import LibND4J.Arrays.Products
import LibND4J.Convolutions.Columns
import LibND4J.Convolutions.MaxPool3D
import LibND4J.Convolutions.OutputSizes

/-!
# Convolutions of images

`conv2d` copies the windows of the input to the rows of a matrix, multiplies it with the
weights, which it views as another one, and has the product written to its output, which it
reshapes to a matrix in F order.  `mmulHelper` writes the columns of the product one after the
other; where the output can be viewed as that matrix they do not lie there.

Main results:

- Theorem `conv2dProduct_eq`: the matrices that are multiplied, and where the output keeps
  its elements.
- Theorem `convolves_iff`: the output is right exactly if a window has several taps, a bias
  has several entries, and the output is not viewed as its own transpose.
-/

namespace LibND4J
namespace Convolutions

open Accumulation Arrays Shape Strided

/-! ## The operation -/

section Operation

variable {T : Type}

/-- A condition of an operation. -/
def require (condition : Ops.Condition) : Except Failure Unit :=
  (Ops.requireTrue condition).mapError .validation

def isSameMode (argI : List Int) : Bool :=
  intArgument argI 8 ≠ 0

/-- The sizes that `calcOutHWpool2D` computes from the arguments. -/
def outputSizes (argI : List Int) (inY inX : Int) : Int × Int :=
  let a := intArgument argI
  calcOutHWpool2D (a 0) (a 1) (a 2) (a 3) (a 4) (a 5) (a 6) (a 7) inY inX
    (if isSameMode argI then 1 else 0)

/-- `pY` and `pX`, after `_calcPadding2D` where it is called. -/
def paddings (argI : List Int) (oY oX inY inX : Int) : Int × Int :=
  let a := intArgument argI
  if isSameMode argI then calcPadding2D oY oX inY inX (a 0) (a 1) (a 2) (a 3) (a 6) (a 7)
  else (a 4, a 5)

/-- `applyTransform` with `Im2col` and the parameters `extrasIm2Col`. -/
def applyIm2col [Zero T] (run : Runtime T) (argI : List Int) (pY pX : Int)
    (input target : NDArray T) : NDArray T :=
  let a := intArgument argI
  let inShape := input.shapeInfo.shape
  let outShape := target.shapeInfo.shape
  ⟨target.shapeInfo, im2col ⟨(a 0).toNat, a 2, pY, a 6⟩ ⟨(a 1).toNat, a 3, pX, a 7⟩ input.shapeInfo
    target.shapeInfo
    (run.iterations (sizeAt inShape 0 * sizeAt inShape 1 * sizeAt outShape 4 * sizeAt outShape 5))
    input.buffer target.buffer⟩

variable [CommRing T] [DecidableEq T]

/-- `conv2d` up to the product, which is written to the output. -/
def conv2dProduct (run : Runtime T) (argI : List Int) (input weights output : NDArray T) :
    Except Failure (NDArray T) := do
  let batchSize := sizeAt input.shapeInfo.shape 0
  let outDepth := sizeAt weights.shapeInfo.shape 0
  let inDepth := sizeAt weights.shapeInfo.shape 1
  let inY := sizeAt input.shapeInfo.shape 2
  let inX := sizeAt input.shapeInfo.shape 3
  let kY := intArgument argI 0
  let kX := intArgument argI 1
  require ⟨sizeAt weights.shapeInfo.shape 2 = kY ∧ sizeAt weights.shapeInfo.shape 3 = kX,
    "Kernels should have dimensions of [%i, %i], but got [%i, %i] instead"⟩
  let (oY, oX) := outputSizes argI inY inX
  let (pY, pX) := paddings argI oY oX inY inX
  require ⟨(output.shapeInfo.length : Int) = batchSize * outDepth * oY * oX,
    "Z should have total length of %i, but got %i instead"⟩
  let col := NDArray.ofShape 'c' [batchSize, oY.toNat, oX.toNat, inDepth, kY.toNat, kX.toNat]
  let col2 ← col.permute [0, 3, 4, 5, 1, 2]
  -- `col2` is a view of `col`
  let col : NDArray T := ⟨col.shapeInfo, (applyIm2col run argI pY pX input col2).buffer⟩
  let im2col2d ← col.reshape run 'c' [batchSize * oY * oX, inDepth * kY * kX]
  let permutedW ← weights.permute [3, 2, 1, 0]
  let reshapedW ← permutedW.reshape run 'f' [kX * kY * inDepth, outDepth]
  let output ← output.reshape run 'f' [Ops.rows im2col2d.shapeInfo, Ops.columns reshapedW.shapeInfo]
  let res ← im2col2d.mmulHelper run reshapedW (some output) 1 0
  return res.getD output

/-- `conv2d` from the product on. -/
def conv2dFinish (run : Runtime T) (oY oX : Int) (batchSize outDepth : Nat)
    (bias : Option (NDArray T)) (output : NDArray T) : Except Failure (NDArray T) := do
  let output ← match bias with
    | none => pure output
    | some bias => output.addiRowVector run bias
  let output ← output.reshape run 'f' [oX, oY, batchSize, outDepth]
  return output.permutei [2, 3, 1, 0]

def conv2d (run : Runtime T) (argI : List Int) (input weights : NDArray T)
    (bias : Option (NDArray T)) (output : NDArray T) : Except Failure (NDArray T) := do
  let (oY, oX) := outputSizes argI (sizeAt input.shapeInfo.shape 2)
    (sizeAt input.shapeInfo.shape 3)
  let output ← conv2dProduct run argI input weights output
  conv2dFinish run oY oX (sizeAt input.shapeInfo.shape 0) (sizeAt weights.shapeInfo.shape 0) bias
    output

/-- The shape function of `conv2d`. -/
def conv2dShape (argI : List Int) (inShape wShape : List Nat) : List Int :=
  let (oY, oX) := outputSizes argI (sizeAt inShape 2) (sizeAt inShape 3)
  [sizeAt inShape 0, sizeAt wShape 0, oY, oX]

end Operation

/-! ## The arrays of a call -/

/-- The integer arguments of a call. -/
def windowArguments (aH aW : ImageAxis) (isSameMode : Int) : List Int :=
  [aH.kernel, aW.kernel, aH.stride, aW.stride, aH.padding, aW.padding, aH.dilation, aW.dilation,
    isSameMode]

/-- The sizes of a convolution of images, its arguments, and whether there is a bias. -/
structure Conv2DGeometry where
  batchSize : Nat
  inDepth : Nat
  outDepth : Nat
  inY : Nat
  inX : Nat
  oY : Nat
  oX : Nat
  aH : ImageAxis
  aW : ImageAxis
  isSameMode : Int
  biasGiven : Bool
  batchSize_pos : 0 < batchSize
  inDepth_pos : 0 < inDepth
  outDepth_pos : 0 < outDepth
  inY_pos : 0 < inY
  inX_pos : 0 < inX
  oY_pos : 0 < oY
  oX_pos : 0 < oX
  outputSizes_eq : outputSizes (windowArguments aH aW isSameMode) inY inX = ((oY : Int), (oX : Int))

namespace Conv2DGeometry

variable (g : Conv2DGeometry)

def argI : List Int :=
  windowArguments g.aH g.aW g.isSameMode

def inputShape : List Nat :=
  [g.batchSize, g.inDepth, g.inY, g.inX]

def weightShape : List Nat :=
  [g.outDepth, g.inDepth, g.aH.kernel, g.aW.kernel]

def outputShape : List Nat :=
  [g.batchSize, g.outDepth, g.oY, g.oX]

/-- The rows of the product: the windows of all items. -/
def windowCount : Nat :=
  g.batchSize * g.oY * g.oX

/-- The taps of a window. -/
def tapCount : Nat :=
  g.inDepth * g.aH.kernel * g.aW.kernel

/-- The windows along the height, with the padding of the mode. -/
def rowParams : AxisParams :=
  ⟨g.aH.kernel, g.aH.stride, (paddings g.argI g.oY g.oX g.inY g.inX).1, g.aH.dilation⟩

/-- The windows along the width. -/
def columnParams : AxisParams :=
  ⟨g.aW.kernel, g.aW.stride, (paddings g.argI g.oY g.oX g.inY g.inX).2, g.aW.dilation⟩

/-- The row of a window. -/
def rowOf (b y x : Nat) : Nat :=
  (b * g.oY + y) * g.oX + x

/-- The place of a tap in its row. -/
def tapOf (c i j : Nat) : Nat :=
  (c * g.aH.kernel + i) * g.aW.kernel + j

theorem inputShape_pos : ∀ d ∈ g.inputShape, 0 < d := by
  simp [inputShape, g.batchSize_pos, g.inDepth_pos, g.inY_pos, g.inX_pos]

theorem weightShape_pos : ∀ d ∈ g.weightShape, 0 < d := by
  simp [weightShape, g.outDepth_pos, g.inDepth_pos, g.aH.kernel_pos, g.aW.kernel_pos]

theorem outputShape_pos : ∀ d ∈ g.outputShape, 0 < d := by
  simp [outputShape, g.batchSize_pos, g.outDepth_pos, g.oY_pos, g.oX_pos]

theorem windowCount_pos : 0 < g.windowCount :=
  Nat.mul_pos (Nat.mul_pos g.batchSize_pos g.oY_pos) g.oX_pos

theorem tapCount_pos : 0 < g.tapCount :=
  Nat.mul_pos (Nat.mul_pos g.inDepth_pos g.aH.kernel_pos) g.aW.kernel_pos

theorem rowOf_lt {b y x : Nat} (hb : b < g.batchSize) (hy : y < g.oY) (hx : x < g.oX) :
    g.rowOf b y x < g.windowCount :=
  mul_add_lt (mul_add_lt hb hy) hx

theorem tapOf_lt {c i j : Nat} (hc : c < g.inDepth) (hi : i < g.aH.kernel) (hj : j < g.aW.kernel) :
    g.tapOf c i j < g.tapCount :=
  mul_add_lt (mul_add_lt hc hi) hj

/-- Every row is that of a window. -/
theorem exists_rowOf {r : Nat} (hr : r < g.windowCount) :
    ∃ b < g.batchSize, ∃ y < g.oY, ∃ x < g.oX, r = g.rowOf b y x := by
  refine ⟨r / g.oX / g.oY, ?_, r / g.oX % g.oY, Nat.mod_lt _ g.oY_pos, r % g.oX,
    Nat.mod_lt _ g.oX_pos, ?_⟩
  · rw [Nat.div_lt_iff_lt_mul g.oY_pos, Nat.div_lt_iff_lt_mul g.oX_pos]
    exact hr
  · rw [rowOf, Nat.div_add_mod', Nat.div_add_mod']

/-- The shape function declares the shape of the output. -/
theorem conv2dShape_eq : (conv2dShape g.argI g.inputShape g.weightShape).map Int.toNat =
    g.outputShape := by
  have hsizes : outputSizes g.argI g.inY g.inX = ((g.oY : Int), (g.oX : Int)) :=
    g.outputSizes_eq
  have hY : sizeAt g.inputShape 2 = g.inY := rfl
  have hX : sizeAt g.inputShape 3 = g.inX := rfl
  rw [conv2dShape, hY, hX, hsizes]
  rfl

end Conv2DGeometry

section Correlation

variable {T : Type} [CommRing T] (g : Conv2DGeometry)

/-- The correlation of a window with the weights of a channel. -/
def correlationAt (x w : NDArray T) (b o y x' : Nat) : T :=
  ∑ c ∈ Finset.range g.inDepth, ∑ i ∈ Finset.range g.aH.kernel, ∑ j ∈ Finset.range g.aW.kernel,
    w.element [o, c, i, j] * pixelAt x b c (g.rowParams.place y i) (g.columnParams.place x' j)

/-- The entry of a bias, which counts zero if there is none. -/
def biasAt (bias : Option (NDArray T)) (o : Nat) : T :=
  match bias with
  | none => 0
  | some bias => bias.element [0, o]

/-- A row vector with an entry for each channel, if a bias is given. -/
def FittingBias (bias : Option (NDArray T)) : Prop :=
  bias.isSome = g.biasGiven ∧
    ∀ row, bias = some row → row.shapeInfo.shape = [1, g.outDepth] ∧ row.shapeInfo.HonestEws

/-- For all images, weights and biases `conv2d` fills the output that is declared, whatever it
held before, with the correlations. -/
def Convolves (T : Type) [CommRing T] [DecidableEq T] (run : Runtime T) : Prop :=
  ∀ (x w memory : Int → T) (bias : Option (NDArray T)), FittingBias g bias →
    ∃ out, conv2d run g.argI ⟨shapeBuffer g.inputShape, x⟩ ⟨shapeBuffer g.weightShape, w⟩ bias
        ⟨shapeBuffer ((conv2dShape g.argI g.inputShape g.weightShape).map Int.toNat), memory⟩ =
          .ok out ∧
      out.shapeInfo.shape = [g.batchSize, g.outDepth, g.oY, g.oX] ∧
      ∀ b < g.batchSize, ∀ o < g.outDepth, ∀ y < g.oY, ∀ x' < g.oX,
        out.element [b, o, y, x'] = biasAt bias o +
          correlationAt g ⟨shapeBuffer g.inputShape, x⟩ ⟨shapeBuffer g.weightShape, w⟩ b o y x'

end Correlation

/-! ## The matrices of the product -/

section Matrices

variable {T : Type} [Zero T] (run : Runtime T)

def Conv2DGeometry.colShape (g : Conv2DGeometry) : List Nat :=
  [g.batchSize, g.oY, g.oX, g.inDepth, g.aH.kernel, g.aW.kernel]

theorem Conv2DGeometry.colShape_pos (g : Conv2DGeometry) : ∀ d ∈ g.colShape, 0 < d := by
  simp [colShape, g.batchSize_pos, g.oY_pos, g.oX_pos, g.inDepth_pos, g.aH.kernel_pos,
    g.aW.kernel_pos]

/-- The shape information of `col2`. -/
def Conv2DGeometry.col2Info (g : Conv2DGeometry) : ShapeInfo :=
  permuteShapeBuffer (newShapeInfo 'c' g.colShape) [0, 3, 4, 5, 1, 2]

theorem Conv2DGeometry.colAxes_perm (g : Conv2DGeometry) :
    [0, 3, 4, 5, 1, 2].Perm (List.range (newShapeInfo 'c' g.colShape).rank) := by
  rw [ShapeInfo.rank, shape_newShapeInfo, colShape]
  simp only [List.length_cons, List.length_nil]
  decide

theorem Conv2DGeometry.shape_col2Info (g : Conv2DGeometry) : g.col2Info.shape =
    [g.batchSize, g.inDepth, g.rowParams.kernel, g.columnParams.kernel, g.oY, g.oX] := by
  rw [col2Info, shape_permuteShapeBuffer g.colAxes_perm, shape_newShapeInfo]
  rfl

/-- The cells of `col2` are those of `col`. -/
theorem Conv2DGeometry.dot_col2Info (g : Conv2DGeometry) (b c i j y x : Nat) :
    dot [b, c, i, j, y, x] g.col2Info.stride =
      dot [b, y, x, c, i, j] (newShapeInfo 'c' g.colShape).stride := by
  have hrank : [b, y, x, c, i, j].length = (newShapeInfo 'c' g.colShape).rank := by
    rw [ShapeInfo.rank, shape_newShapeInfo]
    rfl
  have hstride : (newShapeInfo 'c' g.colShape).stride.length = [b, y, x, c, i, j].length := by
    rw [ShapeInfo.stride_length, shape_newShapeInfo]
    rfl
  rw [col2Info, stride_permuteShapeBuffer g.colAxes_perm]
  exact dot_map_getD (hrank ▸ g.colAxes_perm) hstride

theorem Conv2DGeometry.cellsApart_col2Info (g : Conv2DGeometry) : CellsApart g.col2Info := by
  intro p p' hp hp' h
  rw [g.shape_col2Info] at hp hp'
  obtain ⟨b, c, i, j, y, x, rfl, hb, hc, hi, hj, hy, hx⟩ := inBox_six.mp hp
  obtain ⟨b', c', i', j', y', x', rfl, hb', hc', hi', hj', hy', hx'⟩ := inBox_six.mp hp'
  rw [g.dot_col2Info, g.dot_col2Info] at h
  have hsame := cellsApart_newShapeInfo (Or.inl rfl) g.colShape_pos [b, y, x, c, i, j]
    [b', y', x', c', i', j']
    (by
      rw [shape_newShapeInfo]
      exact inBox_six.mpr ⟨b, y, x, c, i, j, rfl, hb, hy, hx, hc, hi, hj⟩)
    (by
      rw [shape_newShapeInfo]
      exact inBox_six.mpr ⟨b', y', x', c', i', j', rfl, hb', hy', hx', hc', hi', hj'⟩) h
  simp only [List.cons.injEq, and_true] at hsame
  obtain ⟨rfl, rfl, rfl, rfl, rfl, rfl⟩ := hsame
  rfl

/-- The cell of `col` for a window and a tap. -/
theorem Conv2DGeometry.dot_col {b y x c i j : Nat} (g : Conv2DGeometry) (hb : b < g.batchSize)
    (hy : y < g.oY) (hx : x < g.oX) (hc : c < g.inDepth) (hi : i < g.aH.kernel)
    (hj : j < g.aW.kernel) :
    dot [b, y, x, c, i, j] (newShapeInfo 'c' g.colShape).stride =
      (Blas.linearIndexC g.windowCount g.tapCount (g.rowOf b y x) (g.tapOf c i j) : Nat) := by
  have hbox : InBox g.colShape [b, y, x, c, i, j] :=
    inBox_six.mpr ⟨b, y, x, c, i, j, rfl, hb, hy, hx, hc, hi, hj⟩
  rw [dot_shapeBuffer hbox, Blas.linearIndexC, Conv2DGeometry.rowOf, Conv2DGeometry.tapOf,
    Conv2DGeometry.tapCount, Conv2DGeometry.colShape]
  simp only [encode, List.prod_cons, List.prod_nil]
  congr 1
  ring

/-- What `Im2col` leaves in the buffer of `col`. -/
def Conv2DGeometry.columns (g : Conv2DGeometry) (run : Runtime T) (x : Int → T) : Int → T :=
  im2col g.rowParams g.columnParams (shapeBuffer g.inputShape) g.col2Info
    (run.iterations (g.batchSize * g.inDepth * g.oY * g.oX)) x fun _ => 0

/-- The row of a window holds its pixels. -/
theorem Conv2DGeometry.columns_apply (g : Conv2DGeometry) (x : Int → T) {b y x' c i j : Nat}
    (hb : b < g.batchSize) (hy : y < g.oY) (hx : x' < g.oX) (hc : c < g.inDepth)
    (hi : i < g.aH.kernel) (hj : j < g.aW.kernel) :
    g.columns run x (Blas.linearIndexC g.windowCount g.tapCount (g.rowOf b y x') (g.tapOf c i j)) =
      pixelAt ⟨shapeBuffer g.inputShape, x⟩ b c (g.rowParams.place y i)
        (g.columnParams.place x' j) := by
  have hbox : InBox g.col2Info.shape [b, c, i, j, y, x'] := by
    rw [g.shape_col2Info]
    exact inBox_six.mpr ⟨b, c, i, j, y, x', rfl, hb, hc, hi, hj, hy, hx⟩
  rw [← g.dot_col hb hy hx hc hi hj, ← g.dot_col2Info]
  refine im2col_apply (x := ⟨shapeBuffer g.inputShape, x⟩) (shape_shapeBuffer _) g.shape_col2Info
    ?_ g.cellsApart_col2Info (run.iterations_perm _) _ hbox
  simp [g.batchSize_pos, g.inDepth_pos, g.oY_pos, g.oX_pos]

/-- The array that the columns of the windows are reshaped from. -/
theorem Conv2DGeometry.im2col2d_spec (g : Conv2DGeometry) (x : Int → T) :
    ∃ im2col2d, (NDArray.mk (newShapeInfo 'c' g.colShape) (g.columns run x)).reshape run 'c'
        [g.batchSize * g.oY * g.oX, g.inDepth * g.aH.kernel * g.aW.kernel] = .ok im2col2d ∧
      im2col2d.shapeInfo.order = 'c' ∧ Factor im2col2d g.windowCount g.tapCount ∧
      RowsInBuffer im2col2d g.windowCount g.tapCount ∧ im2col2d.buffer = g.columns run x := by
  have hlength : (newShapeInfo 'c' g.colShape).length = g.windowCount * g.tapCount := by
    rw [ShapeInfo.length, shape_newShapeInfo, colShape, windowCount, tapCount]
    simp only [List.prod_cons, List.prod_nil]
    ring
  have hadm : Admissible (newShapeInfo 'c' g.colShape).length
      [g.batchSize * g.oY * g.oX, g.inDepth * g.aH.kernel * g.aW.kernel]
      [g.windowCount, g.tapCount] := by
    have hcast := @admissible_of_nat [g.windowCount, g.tapCount] (newShapeInfo 'c' g.colShape).length
      (by simp [g.windowCount_pos, g.tapCount_pos]) (by simp [hlength])
    simpa only [windowCount, tapCount, List.map_cons, List.map_nil, Nat.cast_mul] using hcast
  obtain ⟨im2col2d, hreshape, hbuffer, horder, hfactor, hrows⟩ :=
    @reshape_rows T ⟨newShapeInfo 'c' g.colShape, g.columns run x⟩ _ _ run
      (positive_newShapeInfo g.colShape_pos 'c') _ hadm (dense_newShapeInfo (Or.inl rfl) g.colShape)
  exact ⟨im2col2d, hreshape, horder, hfactor, hrows, hbuffer⟩

theorem Conv2DGeometry.weightAxes_perm (g : Conv2DGeometry) :
    [3, 2, 1, 0].Perm (List.range (shapeBuffer g.weightShape).rank) := by
  rw [ShapeInfo.rank, shape_shapeBuffer, weightShape]
  simp only [List.length_cons, List.length_nil]
  decide

omit [Zero T] in
/-- The weights, viewed as a matrix with a column for each channel. -/
theorem Conv2DGeometry.reshapedW_spec (g : Conv2DGeometry) (w : Int → T) :
    ∃ permutedW reshapedW,
      (NDArray.mk (shapeBuffer g.weightShape) w).permute [3, 2, 1, 0] = .ok permutedW ∧
      permutedW.reshape run 'f' [g.aW.kernel * g.aH.kernel * g.inDepth, g.outDepth] =
        .ok reshapedW ∧
      Factor reshapedW g.tapCount g.outDepth ∧ ColumnsInBuffer reshapedW g.tapCount g.outDepth ∧
      reshapedW.buffer = w := by
  have hdense : Consecutive true (permuteShapeBuffer (shapeBuffer g.weightShape) [3, 2, 1, 0]) :=
    Consecutive.reverseAxes (dense_newShapeInfo (Or.inl rfl) g.weightShape)
  have hshape : (permuteShapeBuffer (shapeBuffer g.weightShape) [3, 2, 1, 0]).shape =
      [g.aW.kernel, g.aH.kernel, g.inDepth, g.outDepth] := by
    rw [shape_permuteShapeBuffer g.weightAxes_perm, shape_shapeBuffer]
    rfl
  have hpos : (permuteShapeBuffer (shapeBuffer g.weightShape) [3, 2, 1, 0]).Positive := by
    rw [ShapeInfo.Positive, hshape]
    simp [g.outDepth_pos, g.inDepth_pos, g.aH.kernel_pos, g.aW.kernel_pos]
  have hlength : (permuteShapeBuffer (shapeBuffer g.weightShape) [3, 2, 1, 0]).length =
      g.tapCount * g.outDepth := by
    rw [ShapeInfo.length, hshape, tapCount]
    simp only [List.prod_cons, List.prod_nil]
    ring
  have hadm : Admissible (permuteShapeBuffer (shapeBuffer g.weightShape) [3, 2, 1, 0]).length
      [g.aW.kernel * g.aH.kernel * g.inDepth, g.outDepth] [g.tapCount, g.outDepth] := by
    have hcast := @admissible_of_nat [g.tapCount, g.outDepth] _
      (by simp [g.outDepth_pos, g.tapCount_pos]) (by simpa using hlength.symm)
    have htap : ((g.tapCount : Nat) : Int) = g.aW.kernel * g.aH.kernel * g.inDepth := by
      rw [tapCount]
      push_cast
      ring
    rw [← htap]
    exact hcast
  obtain ⟨reshapedW, hreshape, hbuffer, hfactor, hcolumns⟩ :=
    @reshape_columns T ⟨permuteShapeBuffer (shapeBuffer g.weightShape) [3, 2, 1, 0], w⟩ _ _ run hpos
      _ hadm hdense
  refine ⟨_, reshapedW, permute_eq ?_, hreshape, hfactor, hcolumns, hbuffer⟩
  rw [ShapeInfo.rank, shape_shapeBuffer]
  rfl

end Matrices

section Entries

variable {T : Type} [CommRing T] (g : Conv2DGeometry)

/-- The entry of the product for a window and a channel is their correlation. -/
theorem productAt_eq (run : Runtime T) {x w : Int → T} {im2col2d reshapedW : NDArray T}
    (hrows : RowsInBuffer im2col2d g.windowCount g.tapCount)
    (hcolumns : ColumnsInBuffer reshapedW g.tapCount g.outDepth)
    (hx : im2col2d.buffer = g.columns run x) (hw : reshapedW.buffer = w) {b o y x' : Nat}
    (hb : b < g.batchSize) (ho : o < g.outDepth) (hy : y < g.oY) (hx' : x' < g.oX) :
    productAt im2col2d reshapedW g.tapCount (g.rowOf b y x') o =
      correlationAt g ⟨shapeBuffer g.inputShape, x⟩ ⟨shapeBuffer g.weightShape, w⟩ b o y x' := by
  have hterm : ∀ c < g.inDepth, ∀ i < g.aH.kernel, ∀ j < g.aW.kernel,
      im2col2d.element [g.rowOf b y x', g.tapOf c i j] *
          reshapedW.element [g.tapOf c i j, o] =
        (NDArray.mk (shapeBuffer g.weightShape) w).element [o, c, i, j] *
          pixelAt ⟨shapeBuffer g.inputShape, x⟩ b c (g.rowParams.place y i)
            (g.columnParams.place x' j) := by
    intro c hc i hi j hj
    have hrow := hrows _ (g.rowOf_lt hb hy hx') _ (g.tapOf_lt hc hi hj)
    have hcolumn := hcolumns _ (g.tapOf_lt hc hi hj) o ho
    have hweight : InBox g.weightShape [o, c, i, j] :=
      inBox_four.mpr ⟨o, c, i, j, rfl, ho, hc, hi, hj⟩
    have hcell : Blas.linearIndexF g.tapCount g.outDepth (g.tapOf c i j) o =
        encode g.weightShape [o, c, i, j] := by
      rw [Blas.linearIndexF, Conv2DGeometry.tapOf, Conv2DGeometry.tapCount,
        Conv2DGeometry.weightShape]
      simp only [encode, List.prod_cons, List.prod_nil]
      ring
    rw [← hrow, ← hcolumn, hx, hw, g.columns_apply run x hb hy hx' hc hi hj, hcell,
      element_shapeBuffer hweight, mul_comm]
  rw [productAt, Conv2DGeometry.tapCount, sum_range_mul, sum_range_mul]
  refine Finset.sum_congr rfl fun c hc => Finset.sum_congr rfl fun i hi =>
    Finset.sum_congr rfl fun j hj => ?_
  exact hterm c (Finset.mem_range.mp hc) i (Finset.mem_range.mp hi) j (Finset.mem_range.mp hj)

end Entries

/-! ## The output as a matrix -/

/-- The matrix that the output is viewed as has its rows, and not its columns, one after the
other. -/
def Conv2DGeometry.Transposed (g : Conv2DGeometry) : Prop :=
  2 ≤ g.outDepth ∧ (2 ≤ g.batchSize ∧ g.oY = 1 ∧ g.oX = 1 ∨
    g.batchSize = 1 ∧ (g.oY = 1 ∧ g.oX = g.outDepth ∨ g.oY = g.outDepth ∧ g.oX = 1))

instance (g : Conv2DGeometry) : Decidable g.Transposed :=
  inferInstanceAs (Decidable (_ ∧ _))

/-- The cell of an entry of the matrix of the output. -/
def Conv2DGeometry.cellOf (g : Conv2DGeometry) (r o : Nat) : Nat :=
  if g.Transposed then Blas.linearIndexC g.windowCount g.outDepth r o
  else Blas.linearIndexF g.windowCount g.outDepth r o

namespace Conv2DGeometry

variable {g : Conv2DGeometry}

theorem prod_outputShape (g : Conv2DGeometry) :
    g.outputShape.prod = g.windowCount * g.outDepth := by
  rw [outputShape, windowCount]
  simp only [List.prod_cons, List.prod_nil]
  ring

/-- Then only two extents of the output are above one. -/
theorem Transposed.filter_eq (h : g.Transposed) :
    g.outputShape.filter (· ≠ 1) = [g.windowCount, g.outDepth] := by
  obtain ⟨ho, ⟨hb, hy, hx⟩ | ⟨hb, ⟨hy, hx⟩ | ⟨hy, hx⟩⟩⟩ := h
  · have hbne : g.batchSize ≠ 1 := by omega
    have hone : g.outDepth ≠ 1 := by omega
    simp [outputShape, windowCount, hy, hx, hbne, hone]
  · have hone : g.outDepth ≠ 1 := by omega
    simp [outputShape, windowCount, hb, hy, hx, hone]
  · have hone : g.outDepth ≠ 1 := by omega
    simp [outputShape, windowCount, hb, hy, hx, hone]

theorem Transposed.two_le_windowCount (h : g.Transposed) : 2 ≤ g.windowCount := by
  obtain ⟨ho, ⟨hb, hy, hx⟩ | ⟨hb, ⟨hy, hx⟩ | ⟨hy, hx⟩⟩⟩ := h
  · rwa [windowCount, hy, hx, Nat.mul_one, Nat.mul_one]
  · rwa [windowCount, hb, hy, hx, Nat.mul_one, Nat.one_mul]
  · rwa [windowCount, hb, hy, hx, Nat.mul_one, Nat.one_mul]

theorem Transposed.transposeIndex_eq (h : g.Transposed) {k : Nat} (hk : k < g.outputShape.prod) :
    transposeIndex g.outputShape k = k % g.windowCount * g.outDepth + k / g.windowCount := by
  rw [← transposeIndex_filter hk, h.filter_eq,
    transposeIndex_pair _ _ (by rwa [← g.prod_outputShape])]

/-- If two strides show the places of a channel and the channels as a matrix in F order, it is the
transpose, or the elements lie one after the other. -/
theorem transposed_of_linear_single (hb : g.batchSize = 1) {s t : Int}
    (h : ∀ k < [g.outDepth, g.oY, g.oX].prod,
      ((k % g.windowCount : Nat) : Int) * s + ((k / g.windowCount : Nat) : Int) * t =
        transposeIndex [g.outDepth, g.oY, g.oX] k) :
    g.Transposed ∨ ∀ k < [g.outDepth, g.oY, g.oX].prod,
      transposeIndex [g.outDepth, g.oY, g.oX] k = k := by
  have hO := g.outDepth_pos
  have hY := g.oY_pos
  have hX := g.oX_pos
  have hcount : g.windowCount = g.oY * g.oX := by rw [windowCount, hb, Nat.one_mul]
  have hplaces : [g.oY, g.oX].prod = g.oY * g.oX := by simp
  have hYX : 0 < g.oY * g.oX := Nat.mul_pos hY hX
  by_cases hone : g.oY * g.oX = 1
  · right
    intro k hk
    rw [List.prod_cons, hplaces, hone, mul_one] at hk
    exact transposeIndex_of_prod_one (hplaces.trans hone) hk
  by_cases ho : g.outDepth = 1
  · right
    rw [ho] at h ⊢
    intro k hk
    rw [List.prod_cons, hplaces, one_mul] at hk
    rw [transposeIndex_one_cons (hplaces ▸ hk), transposeIndex_pair _ _ hk]
    by_cases hy : g.oY = 1
    · rw [hy, Nat.mod_one, Nat.zero_mul, Nat.zero_add, Nat.div_one]
    by_cases hx : g.oX = 1
    · rw [hx, mul_one] at hk
      rw [hx, mul_one, Nat.mod_eq_of_lt hk, Nat.div_eq_of_lt hk, add_zero]
    · -- rows of the size of a channel do not end with the rows of the image
      have hlinear : ∀ k < g.oY * [g.oX].prod,
          ((k % g.windowCount : Nat) : Int) * s + ((k / g.windowCount : Nat) : Int) * t =
            transposeIndex [g.oY, g.oX] k := by
        intro k hk
        rw [List.prod_singleton] at hk
        rw [← transposeIndex_one_cons (hplaces ▸ hk)]
        exact h k (by rwa [List.prod_cons, hplaces, one_mul])
      have hsize := (size_eq_of_linear (by omega) (by simpa using hX) (by simp; omega)
        (by omega) hlinear).1
      rw [hcount] at hsize
      have := Nat.eq_of_mul_eq_mul_left hY (hsize.trans (Nat.mul_one _).symm)
      omega
  · left
    obtain ⟨hsize, ht⟩ := size_eq_of_linear (d := g.outDepth) (by omega)
      (by simp [hY, hX]) (by rw [hplaces]; omega) (by omega) h
    rw [hcount] at hsize
    refine ⟨by omega, Or.inr ⟨hb, ?_⟩⟩
    by_cases hy : g.oY = 1
    · exact Or.inl ⟨hy, by rwa [hy, one_mul] at hsize⟩
    by_cases hx : g.oX = 1
    · exact Or.inr ⟨by rwa [hx, mul_one] at hsize, hx⟩
    · -- the second column starts a row further, and the last but one does not
      rw [transposeIndex_pair _ _ (by omega), Nat.mod_eq_of_lt (by omega), Nat.div_eq_of_lt (by omega),
        one_mul, add_zero] at ht
      have hlt : g.oY * g.outDepth < [g.outDepth, g.oY, g.oX].prod := by
        rw [List.prod_cons, hplaces, ← mul_assoc, mul_comm g.outDepth]
        exact lt_mul_of_one_lt_right (Nat.mul_pos hY hO) (by omega)
      have hturn := h _ hlt
      rw [hcount, hsize, Nat.mul_mod_left, Nat.mul_div_cancel _ hO, transposeIndex_cons _ _ hlt,
        Nat.mul_mod_left, Nat.mul_div_cancel _ hO, transposeIndex_pair _ _ (by
          exact lt_mul_of_one_lt_right hY (by omega)), Nat.mod_self, Nat.div_self hY, ht] at hturn
      simp only [Nat.cast_zero, zero_mul, zero_add] at hturn
      exact absurd (by exact_mod_cast hturn) hone

/-- If two strides show the output as a matrix in F order, it is the transpose, or the elements lie
one after the other. -/
theorem transposed_of_linear {s t : Int}
    (h : ∀ k < g.outputShape.prod,
      ((k % g.windowCount : Nat) : Int) * s + ((k / g.windowCount : Nat) : Int) * t =
        transposeIndex g.outputShape k) :
    g.Transposed ∨ ∀ k < g.outputShape.prod, transposeIndex g.outputShape k = k := by
  have hrest : ∀ d ∈ [g.outDepth, g.oY, g.oX], 0 < d := by
    simp [g.outDepth_pos, g.oY_pos, g.oX_pos]
  by_cases hb : g.batchSize = 1
  · have hdrop : ∀ k < [g.outDepth, g.oY, g.oX].prod,
        k < g.outputShape.prod ∧
          transposeIndex g.outputShape k = transposeIndex [g.outDepth, g.oY, g.oX] k := by
      intro k hk
      rw [outputShape, hb, List.prod_cons, one_mul]
      exact ⟨hk, transposeIndex_one_cons hk⟩
    have hprod : g.outputShape.prod = [g.outDepth, g.oY, g.oX].prod := by
      rw [outputShape, List.prod_cons, hb, one_mul]
    have hlinear : ∀ k < [g.outDepth, g.oY, g.oX].prod,
        ((k % g.windowCount : Nat) : Int) * s + ((k / g.windowCount : Nat) : Int) * t =
          transposeIndex [g.outDepth, g.oY, g.oX] k := by
      intro k hk
      rw [← (hdrop k hk).2]
      exact h k (hdrop k hk).1
    refine (transposed_of_linear_single hb hlinear).imp id fun hsame k hk => ?_
    · rw [hprod] at hk
      rw [(hdrop k hk).2, hsame k hk]
  · have hB := g.batchSize_pos
    have hrestPos : 0 < [g.outDepth, g.oY, g.oX].prod := prod_pos_of_pos hrest
    by_cases hone : [g.outDepth, g.oY, g.oX].prod = 1
    · right
      intro k hk
      rw [outputShape, List.prod_cons, hone, mul_one] at hk
      exact transposeIndex_of_prod_one hone hk
    · left
      have hYX : 0 < g.oY * g.oX := Nat.mul_pos g.oY_pos g.oX_pos
      have hcount : g.windowCount = g.batchSize * (g.oY * g.oX) := by
        rw [windowCount, Nat.mul_assoc]
      have hle : g.batchSize ≤ g.windowCount := by
        rw [hcount]
        exact Nat.le_mul_of_pos_right _ hYX
      have hsize := (size_eq_of_linear (d := g.batchSize) (by omega) hrest (by omega)
        (by omega) h).1
      rw [hcount] at hsize
      have hplaces : g.oY * g.oX = 1 :=
        Nat.eq_of_mul_eq_mul_left hB (hsize.trans (Nat.mul_one _).symm)
      obtain ⟨hy, hx⟩ := mul_eq_one.mp hplaces
      have hdepth : [g.outDepth, g.oY, g.oX].prod = g.outDepth := by simp [hy, hx]
      exact ⟨by omega, Or.inl ⟨by omega, hy, hx⟩⟩

theorem cellOf_lt {r o : Nat} (hr : r < g.windowCount) (ho : o < g.outDepth) :
    g.cellOf r o < g.windowCount * g.outDepth := by
  rw [cellOf]
  split
  · exact mul_add_lt hr ho
  · exact Blas.linearIndexF_lt hr ho

theorem cellOf_inj {r o r' o' : Nat} (hr : r < g.windowCount) (ho : o < g.outDepth)
    (hr' : r' < g.windowCount) (ho' : o' < g.outDepth) (h : g.cellOf r o = g.cellOf r' o') :
    r = r' ∧ o = o' := by
  rw [cellOf, cellOf] at h
  split at h
  · exact mul_add_inj ho ho' h
  · exact (mul_add_inj hr hr' h).symm

end Conv2DGeometry

section OutputMatrix

variable {T : Type} {g : Conv2DGeometry}

/-- The matrix that the output is reshaped to. -/
structure OutputMatrix (g : Conv2DGeometry) (memory : Int → T) (matrix : NDArray T) : Prop where
  shape_eq : matrix.shapeInfo.shape = [g.windowCount, g.outDepth]
  order_eq : matrix.shapeInfo.order = 'f'
  honest : matrix.shapeInfo.HonestEws
  dot_eq : ∀ r < g.windowCount, ∀ o < g.outDepth,
    dot [r, o] matrix.shapeInfo.stride = (g.cellOf r o : Nat)
  unwritten : ∀ v, (∀ i, memory i = v) → ∀ r < g.windowCount, ∀ o < g.outDepth,
    matrix.buffer (g.cellOf r o : Nat) = v

/-- The output is viewed where two strides show it, and copied to a new matrix otherwise. -/
theorem outputMatrix_spec (run : Runtime T) (g : Conv2DGeometry) (memory : Int → T) :
    ∃ matrix, (NDArray.mk (shapeBuffer g.outputShape) memory).reshape run 'f'
      [g.windowCount, g.outDepth] = .ok matrix ∧ OutputMatrix g memory matrix := by
  have hpos : (shapeBuffer g.outputShape).Positive :=
    positive_newShapeInfo g.outputShape_pos 'c'
  have hlength : (shapeBuffer g.outputShape).length = g.windowCount * g.outDepth := by
    rw [ShapeInfo.length, shape_shapeBuffer, g.prod_outputShape]
  have hadm : Admissible (shapeBuffer g.outputShape).length
      ([g.windowCount, g.outDepth].map Nat.cast) [g.windowCount, g.outDepth] :=
    admissible_of_nat (by simp [g.windowCount_pos, g.outDepth_pos]) (by simp [hlength])
  have hindex : ∀ {r o : Nat}, r < g.windowCount → o < g.outDepth →
      Blas.linearIndexF g.windowCount g.outDepth r o < g.outputShape.prod := by
    intro r o hr ho
    rw [g.prod_outputShape]
    exact Blas.linearIndexF_lt hr ho
  rcases reshape_cases hpos hadm.positive true with ⟨hyes, -⟩ | ⟨hno, -, hnone⟩
  · obtain ⟨target, htarget, hshape, horder, hews, hview⟩ :=
      @reshape_view T ⟨shapeBuffer g.outputShape, memory⟩ _ _ _ run hpos (Or.inr rfl) hadm hyes
    obtain ⟨s, t, hstride⟩ : ∃ s t, target.stride = [s, t] := by
      apply List.length_eq_two.mp
      rw [target.stride_length, hshape]
      rfl
    have haxes : target.axes = [(g.windowCount, s), (g.outDepth, t)] := by
      rw [ShapeInfo.axes, hshape, hstride]
      rfl
    have hlinear : ∀ k < g.outputShape.prod,
        ((k % g.windowCount : Nat) : Int) * s + ((k / g.windowCount : Nat) : Int) * t =
          transposeIndex g.outputShape k := by
      intro k hk
      have hsame := hview.2 k (by
        rw [hview.1, ShapeInfo.volume_axes, hlength, ← g.prod_outputShape]
        exact hk)
      rw [← elementOffset_shapeBuffer g.outputShape_pos hk, ← elementOffset_pair _ _ _ _ (by
        rwa [← g.prod_outputShape]), ← haxes]
      exact hsame
    refine ⟨⟨target, memory⟩, htarget, ?_⟩
    refine ⟨hshape, horder, fun h => absurd h (by rw [hews]; decide), fun r hr o ho => ?_,
      fun v hv r hr o ho => hv _⟩
    have hcell : dot [r, o] target.stride =
        transposeIndex g.outputShape (Blas.linearIndexF g.windowCount g.outDepth r o) := by
      rw [← hlinear _ (hindex hr ho), Blas.linearIndexF, mul_add_mod_of_lt hr, mul_add_div_of_lt hr,
        hstride]
      simp
    rw [hcell, Conv2DGeometry.cellOf]
    by_cases htransposed : g.Transposed
    · rw [if_pos htransposed, htransposed.transposeIndex_eq (hindex hr ho), Blas.linearIndexF,
        mul_add_mod_of_lt hr, mul_add_div_of_lt hr, Blas.linearIndexC]
    · rw [if_neg htransposed,
        (Conv2DGeometry.transposed_of_linear hlinear).resolve_left htransposed _ (hindex hr ho)]
  · -- the strides of the transpose would show it
    have htransposed : ¬ g.Transposed := by
      intro h
      refine hnone [(g.outDepth : Int), 1] rfl ⟨?_, fun k hk => ?_⟩
      · rw [ShapeInfo.volume_axes, hlength]
        simp
      · have hk' : k < g.windowCount * g.outDepth := by simpa using hk
        have hk'' : k < g.outputShape.prod := by rwa [g.prod_outputShape]
        rw [elementOffset_shapeBuffer g.outputShape_pos hk'', h.transposeIndex_eq hk'']
        have hpair := elementOffset_pair g.windowCount g.outDepth (g.outDepth : Int) 1 hk'
        rw [mul_one] at hpair
        exact_mod_cast hpair
    obtain ⟨buffer, hcopy, helement⟩ :=
      @reshape_copy T ⟨shapeBuffer g.outputShape, memory⟩ _ _ _ run hpos
        (honestEws_newShapeInfo (Or.inl rfl) g.outputShape_pos) (Or.inr rfl) hadm hno
    have hdot : ∀ r < g.windowCount, ∀ o < g.outDepth,
        dot [r, o] (freshShapeInfo 'f' [g.windowCount, g.outDepth]).stride =
          (g.cellOf r o : Nat) := by
      intro r hr o ho
      rw [Conv2DGeometry.cellOf, if_neg htransposed]
      exact dot_linearIndexF_of_dense (shape_newShapeInfo 'f' _)
        (dense_newShapeInfo (Or.inr rfl) _) hr ho
    refine ⟨_, hcopy, ?_⟩
    refine ⟨shape_newShapeInfo 'f' _, order_newShapeInfo (Or.inr rfl) _,
      honestEws_newShapeInfo (Or.inr rfl) hadm.positive, hdot, fun v hv r hr o ho => ?_⟩
    have hbox : InBox [g.windowCount, g.outDepth] [r, o] := .cons hr (.cons ho .nil)
    have hvalue := helement (encode [g.windowCount, g.outDepth] [r, o])
      (by simpa [hlength] using encode_lt hbox)
    have hbox' : InBox (freshShapeInfo 'f' [g.windowCount, g.outDepth]).shape [r, o] := by
      rwa [shape_freshShapeInfo]
    rw [decode_encode hbox, element_eq hbox', hdot r hr o ho] at hvalue
    exact hvalue.trans (hv _)

theorem OutputMatrix.cellsApart {memory : Int → T} {matrix : NDArray T}
    (h : OutputMatrix g memory matrix) : CellsApart matrix.shapeInfo := by
  intro p p' hp hp' heq
  rw [h.shape_eq] at hp hp'
  cases hp with
  | cons hr hrest =>
    cases hrest with
    | cons ho hnil =>
      cases hnil
      cases hp' with
      | cons hr' hrest' =>
        cases hrest' with
        | cons ho' hnil' =>
          cases hnil'
          rw [h.dot_eq _ hr _ ho, h.dot_eq _ hr' _ ho'] at heq
          obtain ⟨rfl, rfl⟩ := Conv2DGeometry.cellOf_inj hr ho hr' ho' (Int.ofNat_inj.mp heq)
          rfl

end OutputMatrix

/-! ## From the product on -/

section Finish

variable {T : Type} {g : Conv2DGeometry}

/-- The coordinate of an entry, with the places in F order first. -/
theorem decodeF_window {b o y x : Nat} (hb : b < g.batchSize) (ho : o < g.outDepth)
    (hy : y < g.oY) (hx : x < g.oX) :
    decodeF [g.oX, g.oY, g.batchSize, g.outDepth]
        (Blas.linearIndexF g.windowCount g.outDepth (g.rowOf b y x) o) = [x, y, b, o] := by
  have hindex : Blas.linearIndexF g.windowCount g.outDepth (g.rowOf b y x) o =
      ((o * g.batchSize + b) * g.oY + y) * g.oX + x := by
    rw [Blas.linearIndexF, Conv2DGeometry.windowCount, Conv2DGeometry.rowOf]
    ring
  have hob := mul_add_lt ho hb
  have hoby := mul_add_lt hob hy
  have hobyx := mul_add_lt hoby hx
  rw [hindex, decodeF_cons _ _ (by
      simp only [List.prod_cons, List.prod_nil]
      linarith), mul_add_mod_of_lt hx, mul_add_div_of_lt hx,
    decodeF_cons _ _ (by
      simp only [List.prod_cons, List.prod_nil]
      linarith), mul_add_mod_of_lt hy, mul_add_div_of_lt hy,
    decodeF_cons _ _ (by
      simp only [List.prod_cons, List.prod_nil]
      linarith), mul_add_mod_of_lt hb, mul_add_div_of_lt hb,
    decodeF_cons _ _ (by simpa using ho), Nat.mod_eq_of_lt ho, decodeF_nil]

/-- The rows of a matrix are spread over the items and places again. -/
theorem spread_spec (run : Runtime T) {array : NDArray T}
    (hshape : array.shapeInfo.shape = [g.windowCount, g.outDepth]) :
    ∃ target, array.reshape run 'f' [g.oX, g.oY, g.batchSize, g.outDepth] = .ok target ∧
      (target.permutei [2, 3, 1, 0]).shapeInfo.shape = g.outputShape ∧
      ∀ b < g.batchSize, ∀ o < g.outDepth, ∀ y < g.oY, ∀ x < g.oX,
        (target.permutei [2, 3, 1, 0]).element [b, o, y, x] =
          array.buffer (dot [g.rowOf b y x, o] array.shapeInfo.stride) := by
  have hspread : ∀ d ∈ [g.oX, g.oY, g.batchSize, g.outDepth], 0 < d := by
    simp [g.oX_pos, g.oY_pos, g.batchSize_pos, g.outDepth_pos]
  have hpos : array.shapeInfo.Positive := by
    rw [ShapeInfo.Positive, hshape]
    simp [g.windowCount_pos, g.outDepth_pos]
  have hplaces : [g.oX, g.oY, g.batchSize].prod = g.windowCount := by
    rw [Conv2DGeometry.windowCount]
    simp only [List.prod_cons, List.prod_nil]
    ring
  have hlength : array.shapeInfo.length = g.windowCount * g.outDepth :=
    Ops.length_of_shape hshape
  have hprod : [g.oX, g.oY, g.batchSize, g.outDepth].prod = array.shapeInfo.length := by
    rw [hlength, ← hplaces]
    simp only [List.prod_cons, List.prod_nil]
    ring
  obtain ⟨s, t, hstride⟩ : ∃ s t, array.shapeInfo.stride = [s, t] := by
    apply List.length_eq_two.mp
    rw [array.shapeInfo.stride_length, hshape]
    rfl
  have haxes : array.shapeInfo.axes = [(g.windowCount, s)] ++ [(g.outDepth, t)] := by
    rw [ShapeInfo.axes, hshape, hstride]
    rfl
  have hview : SameElements true ([g.oX, g.oY, g.batchSize, g.outDepth].zip
      (groupStrides true [g.oX, g.oY, g.batchSize] s ++ [t])) array.shapeInfo.axes := by
    have hgroup : SameElements true ([g.oX, g.oY, g.batchSize].zip
        (groupStrides true [g.oX, g.oY, g.batchSize] s)) [(g.windowCount, s)] :=
      @sameElements_group true [(g.windowCount, s)] [g.oX, g.oY, g.batchSize] (g.windowCount, s) [] rfl
        (List.isChain_singleton _) (List.cons_ne_nil _ _) (by rw [hplaces]; simp)
    have hlast : SameElements true [(g.outDepth, t)] [(g.outDepth, t)] := ⟨rfl, fun _ _ => rfl⟩
    rw [haxes]
    exact hgroup.append hlast
  have hyes : canReshape array.shapeInfo [g.oX, g.oY, g.batchSize, g.outDepth] true = .yes () :=
    canReshape_of_sameElements hpos hspread (by simp [groupStrides, length_runningStrides]) hview
  obtain ⟨target, htarget, htargetShape, -, -, hsame⟩ :=
    reshape_view run hpos (Or.inr rfl) (admissible_of_nat hspread hprod) hyes
  have hrank : [2, 3, 1, 0].Perm (List.range target.rank) := by
    rw [ShapeInfo.rank, htargetShape]
    simp only [List.length_cons, List.length_nil]
    decide
  have hpermute : (NDArray.mk target array.buffer).permutei [2, 3, 1, 0] =
      ⟨permuteShapeBuffer target [2, 3, 1, 0], array.buffer⟩ :=
    permutei_eq (by rw [ShapeInfo.rank, htargetShape]; rfl)
  refine ⟨⟨target, array.buffer⟩, htarget, ?_, fun b hb o ho y hy x hx => ?_⟩
  · rw [hpermute]
    exact (shape_permuteShapeBuffer hrank).trans (by rw [htargetShape]; rfl)
  · have hbox : InBox target.shape [x, y, b, o] := by
      rw [htargetShape]
      exact inBox_four.mpr ⟨x, y, b, o, rfl, hx, hy, hb, ho⟩
    have hrow := g.rowOf_lt hb hy hx
    have hindex : Blas.linearIndexF g.windowCount g.outDepth (g.rowOf b y x) o <
        array.shapeInfo.length := by
      rw [hlength]
      exact Blas.linearIndexF_lt hrow ho
    have hvalue := element_view hpos (fun d hd => hspread d (htargetShape ▸ hd)) hsame hindex
    rw [htargetShape, hshape] at hvalue
    have hnew : coordinateOf true [g.oX, g.oY, g.batchSize, g.outDepth]
        (Blas.linearIndexF g.windowCount g.outDepth (g.rowOf b y x) o) = [x, y, b, o] :=
      decodeF_window hb ho hy hx
    have hold : coordinateOf true [g.windowCount, g.outDepth]
        (Blas.linearIndexF g.windowCount g.outDepth (g.rowOf b y x) o) = [g.rowOf b y x, o] :=
      decodeF_linearIndexF hrow ho
    have hbox' : InBox array.shapeInfo.shape [g.rowOf b y x, o] := by
      rw [hshape]
      exact .cons hrow (.cons ho .nil)
    rw [← element_eq hbox', ← hold]
    rw [hpermute]
    exact (element_permuteShapeBuffer hrank hbox).trans (hnew ▸ hvalue)

theorem conv2dFinish_spec [CommRing T] [DecidableEq T] (run : Runtime T) {array : NDArray T}
    (hshape : array.shapeInfo.shape = [g.windowCount, g.outDepth])
    (hews : array.shapeInfo.HonestEws) (hcells : CellsApart array.shapeInfo)
    {bias : Option (NDArray T)} (hbias : FittingBias g bias)
    (hdepth : g.biasGiven → 2 ≤ g.outDepth) :
    ∃ out, conv2dFinish run g.oY g.oX g.batchSize g.outDepth bias array = .ok out ∧
      out.shapeInfo.shape = g.outputShape ∧
      ∀ b < g.batchSize, ∀ o < g.outDepth, ∀ y < g.oY, ∀ x < g.oX,
        out.element [b, o, y, x] = biasAt bias o +
          array.buffer (dot [g.rowOf b y x, o] array.shapeInfo.stride) := by
  cases bias with
  | none =>
      obtain ⟨target, htarget, houtShape, helement⟩ := spread_spec run hshape
      refine ⟨target.permutei [2, 3, 1, 0], ?_, houtShape, fun b hb o ho y hy x hx => ?_⟩
      · simp only [conv2dFinish, pure_bind, htarget]
        rfl
      · rw [helement b hb o ho y hy x hx, biasAt, zero_add]
  | some row =>
      obtain ⟨hrow, hrowEws⟩ := hbias.2 row rfl
      obtain ⟨buffer, hadd, hsum⟩ := addiRowVector_spec run hshape g.windowCount_pos
        (hdepth (hbias.1 ▸ rfl)) hews hcells hrow hrowEws
      obtain ⟨target, htarget, houtShape, helement⟩ :=
        @spread_spec T g run ⟨array.shapeInfo, buffer⟩ hshape
      refine ⟨target.permutei [2, 3, 1, 0], ?_, houtShape, fun b hb o ho y hy x hx => ?_⟩
      · simp only [conv2dFinish, hadd]
        exact congrArg (fun r => r >>= fun output => pure (output.permutei [2, 3, 1, 0])) htarget
      · rw [helement b hb o ho y hy x hx, biasAt, add_comm]
        exact hsum _ (g.rowOf_lt hb hy hx) o ho

/-- With a single channel no bias can be added. -/
theorem conv2dFinish_of_single [CommRing T] [DecidableEq T] (run : Runtime T) {array row : NDArray T}
    (hrow : row.shapeInfo.shape = [1, 1]) (oY oX : Int) (batchSize outDepth : Nat) :
    conv2dFinish run oY oX batchSize outDepth (some row) array =
      .error (.thrown "NDArray::addiRowVector: wrong arguments !") := by
  have hnot : ¬ (Loops.isRowVectorArray row.shapeInfo = true) := by
    simp [hrow, Loops.isRowVectorArray, isScalar]
  rw [conv2dFinish]
  simp only [NDArray.addiRowVector, dif_pos (Or.inr (Or.inl hnot))]
  rfl

end Finish

/-! ## The product -/

section Product

variable {T : Type} [CommRing T] [DecidableEq T] (run : Runtime T) (g : Conv2DGeometry)

/-- The matrices that are multiplied, and the one that receives their product. -/
structure ProductMatrices (x w memory : Int → T) (im2col2d reshapedW matrix : NDArray T) : Prop where
  order_eq : im2col2d.shapeInfo.order = 'c'
  windows : Factor im2col2d g.windowCount g.tapCount
  rowsInBuffer : RowsInBuffer im2col2d g.windowCount g.tapCount
  columns_eq : im2col2d.buffer = g.columns run x
  weights : Factor reshapedW g.tapCount g.outDepth
  columnsInBuffer : ColumnsInBuffer reshapedW g.tapCount g.outDepth
  weights_eq : reshapedW.buffer = w
  output : OutputMatrix g memory matrix

/-- The product that `conv2d` computes. -/
theorem conv2dProduct_eq (x w memory : Int → T) :
    ∃ im2col2d reshapedW matrix, ProductMatrices run g x w memory im2col2d reshapedW matrix ∧
      conv2dProduct run g.argI ⟨shapeBuffer g.inputShape, x⟩ ⟨shapeBuffer g.weightShape, w⟩
          ⟨shapeBuffer g.outputShape, memory⟩ =
        (im2col2d.mmulHelper run reshapedW (some matrix) 1 0).map (·.getD matrix) := by
  obtain ⟨im2col2d, hcolumns, horder, hwindows, hrows, hx⟩ := g.im2col2d_spec run x
  obtain ⟨permutedW, reshapedW, hpermuted, hreshaped, hweights, hcols, hw⟩ :=
    g.reshapedW_spec run w
  obtain ⟨matrix, hmatrix, houtput⟩ := outputMatrix_spec run g memory
  refine ⟨im2col2d, reshapedW, matrix, ⟨horder, hwindows, hrows, hx, hweights, hcols, hw, houtput⟩,
    ?_⟩
  have hbind : ∀ {α β : Type} (a : α) (f : α → Except Failure β), (Except.ok a >>= f) = f a :=
    fun _ _ => rfl
  have hsizes : outputSizes g.argI g.inY g.inX = ((g.oY : Int), (g.oX : Int)) :=
    g.outputSizes_eq
  have hrows' : Ops.rows im2col2d.shapeInfo = g.windowCount := by
    rw [Ops.rows, hwindows.shape_eq]
    rfl
  have hcolumns' : Ops.columns reshapedW.shapeInfo = g.outDepth := by
    rw [Ops.columns, hweights.shape_eq]
    rfl
  have hkernels : require ⟨sizeAt g.weightShape 2 = intArgument g.argI 0 ∧
      sizeAt g.weightShape 3 = intArgument g.argI 1,
      "Kernels should have dimensions of [%i, %i], but got [%i, %i] instead"⟩ = .ok () := by
    rw [require, Ops.requireTrue, if_pos (decide_eq_true ⟨rfl, rfl⟩)]
    rfl
  have htotal : require ⟨((shapeBuffer g.outputShape).length : Int) =
      g.batchSize * g.outDepth * g.oY * g.oX,
      "Z should have total length of %i, but got %i instead"⟩ = .ok () := by
    have hlength : ((shapeBuffer g.outputShape).length : Int) =
        g.batchSize * g.outDepth * g.oY * g.oX := by
      rw [ShapeInfo.length, shape_shapeBuffer, g.prod_outputShape, Conv2DGeometry.windowCount]
      push_cast
      ring
    rw [require, Ops.requireTrue, if_pos (decide_eq_true hlength)]
    rfl
  have hcol2 : (NDArray.ofShape 'c' g.colShape).permute [0, 3, 4, 5, 1, 2] =
      .ok (NDArray.mk g.col2Info fun _ => (0 : T)) :=
    permute_eq (by rw [NDArray.ofShape, ShapeInfo.rank, shape_newShapeInfo]; rfl)
  have hfilled : (applyIm2col run g.argI (paddings g.argI g.oY g.oX g.inY g.inX).1
      (paddings g.argI g.oY g.oX g.inY g.inX).2 ⟨shapeBuffer g.inputShape, x⟩
      ⟨g.col2Info, fun _ => 0⟩).buffer = g.columns run x := by
    rw [applyIm2col, Conv2DGeometry.columns, g.shape_col2Info, shape_shapeBuffer]
    rfl
  have hB : sizeAt g.inputShape 0 = g.batchSize := rfl
  have hY : sizeAt g.inputShape 2 = g.inY := rfl
  have hX : sizeAt g.inputShape 3 = g.inX := rfl
  have hO : sizeAt g.weightShape 0 = g.outDepth := rfl
  have hC : sizeAt g.weightShape 1 = g.inDepth := rfl
  have hkY : intArgument g.argI 0 = g.aH.kernel := rfl
  have hkX : intArgument g.argI 1 = g.aW.kernel := rfl
  have hcolShape : [g.batchSize, g.oY, g.oX, g.inDepth, g.aH.kernel, g.aW.kernel] = g.colShape :=
    rfl
  have hspread : (NDArray.mk (NDArray.ofShape (T := T) 'c' g.colShape).shapeInfo
      (g.columns run x)).reshape run 'c'
        [g.batchSize * g.oY * g.oX, g.inDepth * g.aH.kernel * g.aW.kernel] = .ok im2col2d :=
    hcolumns
  unfold conv2dProduct
  simp only [shape_shapeBuffer, hkernels, hbind]
  simp only [hB, hY, hX, hO, hC, hkY, hkX, hsizes, htotal, Int.toNat_natCast, hcolShape, hcol2, hbind,
    hfilled, hspread, hpermuted, hreshaped, hrows', hcolumns', hmatrix]
  cases im2col2d.mmulHelper run reshapedW (some matrix) 1 0 with
  | error e => rfl
  | ok res => rfl

theorem conv2d_eq (x w memory : Int → T) (bias : Option (NDArray T)) :
    conv2d run g.argI ⟨shapeBuffer g.inputShape, x⟩ ⟨shapeBuffer g.weightShape, w⟩ bias
        ⟨shapeBuffer ((conv2dShape g.argI g.inputShape g.weightShape).map Int.toNat), memory⟩ =
      (conv2dProduct run g.argI ⟨shapeBuffer g.inputShape, x⟩ ⟨shapeBuffer g.weightShape, w⟩
        ⟨shapeBuffer g.outputShape, memory⟩ >>=
          conv2dFinish run g.oY g.oX g.batchSize g.outDepth bias) := by
  have hsizes : outputSizes g.argI g.inY g.inX = ((g.oY : Int), (g.oX : Int)) :=
    g.outputSizes_eq
  have hY : sizeAt g.inputShape 2 = g.inY := rfl
  have hX : sizeAt g.inputShape 3 = g.inX := rfl
  rw [g.conv2dShape_eq, conv2d]
  simp only [shape_shapeBuffer, hY, hX, hsizes]
  rfl

/-- With several taps in a window an element of the output is the correlation of the entry of the
product whose cell it reads. -/
theorem conv2d_spec (htaps : g.tapCount ≠ 1) (hdepth : g.biasGiven → 2 ≤ g.outDepth)
    (x w memory : Int → T) {bias : Option (NDArray T)} (hbias : FittingBias g bias) :
    ∃ out, conv2d run g.argI ⟨shapeBuffer g.inputShape, x⟩ ⟨shapeBuffer g.weightShape, w⟩ bias
        ⟨shapeBuffer ((conv2dShape g.argI g.inputShape g.weightShape).map Int.toNat), memory⟩ =
          .ok out ∧
      out.shapeInfo.shape = g.outputShape ∧
      ∀ b < g.batchSize, ∀ o < g.outDepth, ∀ y < g.oY, ∀ x' < g.oX,
        ∀ b₁ < g.batchSize, ∀ o₁ < g.outDepth, ∀ y₁ < g.oY, ∀ x₁ < g.oX,
          Blas.linearIndexF g.windowCount g.outDepth (g.rowOf b₁ y₁ x₁) o₁ =
            g.cellOf (g.rowOf b y x') o →
          out.element [b, o, y, x'] = biasAt bias o +
            correlationAt g ⟨shapeBuffer g.inputShape, x⟩ ⟨shapeBuffer g.weightShape, w⟩
              b₁ o₁ y₁ x₁ := by
  obtain ⟨im2col2d, reshapedW, matrix, h, hproduct⟩ := conv2dProduct_eq run g x w memory
  obtain ⟨buffer, hmmul, hentry⟩ := mmulHelper_spec run htaps h.windows h.order_eq h.rowsInBuffer
    h.weights h.columnsInBuffer h.output.shape_eq h.output.order_eq
  obtain ⟨out, hfinish, hshape, helement⟩ :=
    @conv2dFinish_spec T g _ _ run ⟨matrix.shapeInfo, buffer⟩ h.output.shape_eq h.output.honest
      h.output.cellsApart _ hbias hdepth
  refine ⟨out, ?_, hshape, fun b hb o ho y hy x' hx' b₁ hb₁ o₁ ho₁ y₁ hy₁ x₁ hx₁ hcell => ?_⟩
  · rw [conv2d_eq, hproduct, hmmul]
    exact hfinish
  · rw [helement b hb o ho y hy x' hx', ← productAt_eq g run h.rowsInBuffer h.columnsInBuffer
      h.columns_eq h.weights_eq hb₁ ho₁ hy₁ hx₁, ← hentry _ (g.rowOf_lt hb₁ hy₁ hx₁) _ ho₁, hcell]
    exact congrArg (fun i => biasAt bias o + buffer i)
      (h.output.dot_eq _ (g.rowOf_lt hb hy hx') _ ho)

end Product

/-! ## When the output is right -/

/-- Some tap of some window reads a pixel of the image. -/
def Conv2DGeometry.TouchesImage (g : Conv2DGeometry) : Prop :=
  ∃ y < g.oY, ∃ x < g.oX, ∃ i < g.aH.kernel, ∃ j < g.aW.kernel,
    0 ≤ g.rowParams.place y i ∧ g.rowParams.place y i < g.inY ∧
      0 ≤ g.columnParams.place x j ∧ g.columnParams.place x j < g.inX

section Right

variable {T : Type} [CommRing T] {g : Conv2DGeometry}

/-- If no window touches the image, every correlation is zero. -/
theorem correlationAt_of_not_touches (h : ¬ g.TouchesImage) (x : Int → T) (w : NDArray T)
    (b o : Nat) {y x' : Nat} (hy : y < g.oY) (hx : x' < g.oX) :
    correlationAt g ⟨shapeBuffer g.inputShape, x⟩ w b o y x' = 0 := by
  refine Finset.sum_eq_zero fun c _ => Finset.sum_eq_zero fun i hi => Finset.sum_eq_zero
    fun j hj => ?_
  have hpixel : pixelAt ⟨shapeBuffer g.inputShape, x⟩ b c (g.rowParams.place y i)
      (g.columnParams.place x' j) = 0 := by
    rw [pixelAt, if_neg]
    rintro ⟨hh, hw, hh', hw'⟩
    rw [shape_shapeBuffer] at hh' hw'
    exact h ⟨y, hy, x', hx, i, Finset.mem_range.mp hi, j, Finset.mem_range.mp hj, hh, hh', hw, hw'⟩
  rw [hpixel, mul_zero]

/-- With zero images every correlation is zero. -/
theorem correlationAt_zero (w : NDArray T) (info : ShapeInfo) (b o y x' : Nat) :
    correlationAt g ⟨info, fun _ => 0⟩ w b o y x' = 0 := by
  refine Finset.sum_eq_zero fun c _ => Finset.sum_eq_zero fun i _ => Finset.sum_eq_zero
    fun j _ => ?_
  have hpixel : ∀ h w' : Int, pixelAt (NDArray.mk info fun _ => (0 : T)) b c h w' = 0 := by
    intro h w'
    rw [pixelAt]
    split
    · rfl
    · rfl
  rw [hpixel, mul_zero]

/-- An image of one bright pixel, under weights with one tap, gives one correlation that is not
zero. -/
theorem correlationAt_spot {y₀ x₀ i₀ j₀ o₀ h₀ w₀ : Nat} (hi : i₀ < g.aH.kernel)
    (hj : j₀ < g.aW.kernel) (ho₀ : o₀ < g.outDepth) (hh : h₀ < g.inY) (hw : w₀ < g.inX)
    (hplaceY : g.rowParams.place y₀ i₀ = h₀) (hplaceX : g.columnParams.place x₀ j₀ = w₀)
    {b o y x' : Nat} (hb : b < g.batchSize) (ho : o < g.outDepth) :
    correlationAt g
        ⟨shapeBuffer g.inputShape, Pi.single (encode g.inputShape [0, 0, h₀, w₀] : Int) (1 : T)⟩
        ⟨shapeBuffer g.weightShape, Pi.single (encode g.weightShape [o₀, 0, i₀, j₀] : Int) (1 : T)⟩
        b o y x' =
      if b = 0 ∧ o = o₀ ∧ y = y₀ ∧ x' = x₀ then 1 else 0 := by
  have hspot : InBox g.weightShape [o₀, 0, i₀, j₀] :=
    inBox_four.mpr ⟨o₀, 0, i₀, j₀, rfl, ho₀, g.inDepth_pos, hi, hj⟩
  have hweight : ∀ c < g.inDepth, ∀ i < g.aH.kernel, ∀ j < g.aW.kernel,
      (NDArray.mk (shapeBuffer g.weightShape)
        (Pi.single (encode g.weightShape [o₀, 0, i₀, j₀] : Int) (1 : T))).element [o, c, i, j] =
          if [o, c, i, j] = [o₀, 0, i₀, j₀] then 1 else 0 := by
    intro c hc i hi j hj
    exact element_single (inBox_four.mpr ⟨o, c, i, j, rfl, ho, hc, hi, hj⟩) hspot 1
  have hstrideY : 0 < g.rowParams.stride := Int.natCast_pos.mpr g.aH.stride_pos
  have hstrideX : 0 < g.columnParams.stride := Int.natCast_pos.mpr g.aW.stride_pos
  have hpixel := @pixelAt_single T _ g.batchSize g.inDepth g.inY g.inX 0 0 h₀ w₀ b 0 g.batchSize_pos
    g.inDepth_pos hh hw hb g.inDepth_pos (g.rowParams.place y i₀) (g.columnParams.place x' j₀) 1
  rw [← hplaceY, ← hplaceX] at hpixel
  simp only [AxisParams.place_inj hstrideY, AxisParams.place_inj hstrideX, true_and] at hpixel
  have hzero : ∀ c < g.inDepth, ∀ i < g.aH.kernel, ∀ j < g.aW.kernel, ¬ (c = 0 ∧ i = i₀ ∧ j = j₀) →
      ∀ pixel : T, (NDArray.mk (shapeBuffer g.weightShape)
        (Pi.single (encode g.weightShape [o₀, 0, i₀, j₀] : Int) (1 : T))).element [o, c, i, j] *
          pixel = 0 := by
    intro c hc i hi j hj hne pixel
    rw [hweight c hc i hi j hj, if_neg, zero_mul]
    intro heq
    simp only [List.cons.injEq, and_true] at heq
    exact hne heq.2
  rw [correlationAt, Finset.sum_eq_single_of_mem 0 (Finset.mem_range.mpr g.inDepth_pos),
    Finset.sum_eq_single_of_mem i₀ (Finset.mem_range.mpr hi),
    Finset.sum_eq_single_of_mem j₀ (Finset.mem_range.mpr hj), hweight 0 g.inDepth_pos i₀ hi j₀ hj]
  · refine (congrArg (fun p => _ * p) hpixel).trans ?_
    simp only [List.cons.injEq, and_true]
    by_cases heq : o = o₀
    · simp only [heq, if_true, one_mul, true_and]
    · simp only [heq, if_false, zero_mul, false_and, and_false]
  · intro j hj' hne
    exact hzero 0 g.inDepth_pos i₀ hi j (Finset.mem_range.mp hj') (fun h => hne h.2.2) _
  · intro i hi' hne
    refine Finset.sum_eq_zero fun j hj' => ?_
    exact hzero 0 g.inDepth_pos i (Finset.mem_range.mp hi') j (Finset.mem_range.mp hj')
      (fun h => hne h.2.1) _
  · intro c hc hne
    refine Finset.sum_eq_zero fun i hi' => Finset.sum_eq_zero fun j hj' => ?_
    exact hzero c (Finset.mem_range.mp hc) i (Finset.mem_range.mp hi') j (Finset.mem_range.mp hj')
      (fun h => hne h.1) _

variable [DecidableEq T] (run : Runtime T) (g)

def zeroBias : Option (NDArray T) :=
  if g.biasGiven then some ⟨shapeBuffer [1, g.outDepth], fun _ => 0⟩ else none

omit [DecidableEq T] in
theorem fittingBias_zeroBias : FittingBias g (zeroBias (T := T) g) := by
  unfold FittingBias zeroBias
  cases g.biasGiven with
  | false => simp
  | true =>
      refine ⟨rfl, fun row hrow => ?_⟩
      cases hrow
      exact ⟨shape_shapeBuffer _, honestEws_newShapeInfo (Or.inl rfl) (by simp [g.outDepth_pos])⟩

omit [DecidableEq T] in
theorem biasAt_zeroBias (o : Nat) : biasAt (zeroBias (T := T) g) o = 0 := by
  unfold biasAt zeroBias
  cases g.biasGiven with
  | false => rfl
  | true => rfl

/-- With a single tap the product is not computed: what the output held shows. -/
theorem not_convolves_of_single_tap [Nontrivial T] (htaps : g.tapCount = 1)
    (hdepth : g.biasGiven → 2 ≤ g.outDepth) : ¬ Convolves g T run := by
  intro h
  obtain ⟨out, hout, -, helement⟩ := h (fun _ => 0) (fun _ => 0) (fun _ => 1) (zeroBias g)
    (fittingBias_zeroBias g)
  obtain ⟨im2col2d, reshapedW, matrix, hm, hproduct⟩ :=
    conv2dProduct_eq run g (fun _ => 0) (fun _ => 0) fun _ => 1
  rw [conv2d_eq, hproduct] at hout
  have hwindows := hm.windows.shape_eq
  have hweights := hm.weights.shape_eq
  rw [htaps] at hwindows hweights
  rcases mmulHelper_of_one run hwindows hweights 1 0 with ⟨e, herror⟩ | ⟨buffer, hmmul, hkept⟩
  · rw [herror] at hout
    cases hout
  · rw [hmmul] at hout
    obtain ⟨out', hfinish, -, helement'⟩ :=
      @conv2dFinish_spec T g _ _ run ⟨matrix.shapeInfo, buffer⟩ hm.output.shape_eq hm.output.honest
        hm.output.cellsApart _ (fittingBias_zeroBias g) hdepth
    have hsame : out' = out := Except.ok.inj (hfinish.symm.trans hout)
    -- the last window is not in the first cell, unless it is the only one
    have hcount := g.windowCount_pos
    obtain ⟨b, hb, y, hy, x, hx, hlast⟩ := g.exists_rowOf (r := g.windowCount - 1) (by omega)
    have hrow := g.rowOf_lt hb hy hx
    have hcell : ((g.cellOf (g.rowOf b y x) 0 : Nat) : Int) ≠ 0 ∨ g.windowCount = 1 := by
      by_cases hone : g.windowCount = 1
      · exact Or.inr hone
      · left
        have hO := g.outDepth_pos
        have hmul : 0 < (g.windowCount - 1) * g.outDepth := Nat.mul_pos (by omega) hO
        rw [← hlast, Conv2DGeometry.cellOf, Blas.linearIndexC, Blas.linearIndexF]
        split <;> omega
    have hexpected := helement b hb 0 g.outDepth_pos y hy x hx
    rw [biasAt_zeroBias, correlationAt_zero, add_zero, ← hsame,
      helement' b hb 0 g.outDepth_pos y hy x hx, biasAt_zeroBias, zero_add,
      hm.output.dot_eq _ hrow _ g.outDepth_pos] at hexpected
    have hheld : buffer (g.cellOf (g.rowOf b y x) 0 : Nat) = 1 :=
      (hkept _ hcell).trans (hm.output.unwritten 1 (fun _ => rfl) _ hrow _ g.outDepth_pos)
    exact one_ne_zero (hheld.symm.trans hexpected)

/-- With a single channel a bias makes the operation throw. -/
theorem not_convolves_of_single_channel (hbias : g.biasGiven = true) (hdepth : g.outDepth = 1) :
    ¬ Convolves g T run := by
  intro h
  obtain ⟨out, hout, -, -⟩ := h (fun _ => 0) (fun _ => 0) (fun _ => 0) (zeroBias g)
    (fittingBias_zeroBias g)
  have hrow : zeroBias (T := T) g = some ⟨shapeBuffer [1, 1], fun _ => 0⟩ := by
    rw [zeroBias, hbias, hdepth, if_pos rfl]
  rw [conv2d_eq, hrow] at hout
  cases hproduct : conv2dProduct run g.argI ⟨shapeBuffer g.inputShape, fun _ => (0 : T)⟩
      ⟨shapeBuffer g.weightShape, fun _ => 0⟩ ⟨shapeBuffer g.outputShape, fun _ => 0⟩ with
  | error e =>
      rw [hproduct] at hout
      cases hout
  | ok matrix =>
      rw [hproduct] at hout
      have hthrown := @conv2dFinish_of_single T _ _ run matrix ⟨shapeBuffer [1, 1], fun _ => 0⟩
        (shape_shapeBuffer _) g.oY g.oX g.batchSize g.outDepth
      cases hout.symm.trans hthrown

/-- With the output viewed as its own transpose, a channel shows entries of another one. -/
theorem not_convolves_of_transposed [Nontrivial T] (htaps : g.tapCount ≠ 1)
    (htransposed : g.Transposed) (htouches : g.TouchesImage) : ¬ Convolves g T run := by
  intro h
  obtain ⟨y₀, hy₀, x₀, hx₀, i₀, hi, j₀, hj, hplace⟩ := htouches
  obtain ⟨hnonnegY, hltY, hnonnegX, hltX⟩ := hplace
  obtain ⟨h₀, hh⟩ := Int.eq_ofNat_of_zero_le hnonnegY
  obtain ⟨w₀, hw⟩ := Int.eq_ofNat_of_zero_le hnonnegX
  rw [hh] at hltY
  rw [hw] at hltX
  have hO : 2 ≤ g.outDepth := htransposed.1
  have hrow := g.rowOf_lt g.batchSize_pos hy₀ hx₀
  -- the entry of the product that is found where the entry of this window and channel should be
  obtain ⟨o₀, ho₀, hother⟩ : ∃ o₀ < g.outDepth,
      Blas.linearIndexC g.windowCount g.outDepth (g.rowOf 0 y₀ x₀) o₀ ≠
        Blas.linearIndexF g.windowCount g.outDepth (g.rowOf 0 y₀ x₀) o₀ := by
    unfold Blas.linearIndexC Blas.linearIndexF
    by_cases hzero : g.rowOf 0 y₀ x₀ = 0
    · refine ⟨1, by omega, ?_⟩
      have hcount := htransposed.two_le_windowCount
      rw [hzero]
      omega
    · refine ⟨0, by omega, ?_⟩
      have hmul : g.rowOf 0 y₀ x₀ * 2 ≤ g.rowOf 0 y₀ x₀ * g.outDepth := Nat.mul_le_mul_left _ hO
      omega
  have hread : g.cellOf (g.rowOf 0 y₀ x₀) o₀ =
      Blas.linearIndexC g.windowCount g.outDepth (g.rowOf 0 y₀ x₀) o₀ := if_pos htransposed
  obtain ⟨r₁, hr₁, o₁, ho₁, hindex⟩ := Blas.exists_linearIndexF (g.cellOf_lt hrow ho₀)
  obtain ⟨b₁, hb₁, y₁, hy₁, x₁, hx₁, rfl⟩ := g.exists_rowOf hr₁
  obtain ⟨out, hout, -, helement⟩ := h
    (Pi.single (encode g.inputShape [0, 0, h₀, w₀] : Int) 1)
    (Pi.single (encode g.weightShape [o₀, 0, i₀, j₀] : Int) 1) (fun _ => 0) (zeroBias g)
    (fittingBias_zeroBias g)
  obtain ⟨out', hout', -, helement'⟩ := conv2d_spec run g htaps (fun _ => hO)
    (Pi.single (encode g.inputShape [0, 0, h₀, w₀] : Int) 1)
    (Pi.single (encode g.weightShape [o₀, 0, i₀, j₀] : Int) 1) (fun _ => 0) (fittingBias_zeroBias g)
  have hsame : out' = out := Except.ok.inj (hout'.symm.trans hout)
  have hexpected := helement 0 g.batchSize_pos o₀ ho₀ y₀ hy₀ x₀ hx₀
  rw [← hsame, helement' 0 g.batchSize_pos o₀ ho₀ y₀ hy₀ x₀ hx₀ b₁ hb₁ o₁ ho₁ y₁ hy₁ x₁ hx₁ hindex.symm,
    add_right_inj] at hexpected
  have hspot := @correlationAt_spot T _ g y₀ x₀ i₀ j₀ o₀ h₀ w₀ hi hj ho₀ (Int.ofNat_lt.mp hltY)
    (Int.ofNat_lt.mp hltX) hh hw
  by_cases hbright : b₁ = 0 ∧ o₁ = o₀ ∧ y₁ = y₀ ∧ x₁ = x₀
  · obtain ⟨rfl, rfl, rfl, rfl⟩ := hbright
    exact hother (hread.symm.trans hindex)
  · rw [hspot hb₁ ho₁, hspot g.batchSize_pos ho₀, if_neg hbright, if_pos ⟨rfl, rfl, rfl, rfl⟩]
      at hexpected
    exact zero_ne_one hexpected

/-- The output is right exactly if a window has several taps, a bias has several entries, and the
output is not viewed as its own transpose where the windows touch the image. -/
theorem convolves_iff [Nontrivial T] :
    Convolves g T run ↔ 2 ≤ g.tapCount ∧ (g.biasGiven → 2 ≤ g.outDepth) ∧
      ¬ (g.Transposed ∧ g.TouchesImage) := by
  have htapCount := g.tapCount_pos
  have houtDepth := g.outDepth_pos
  constructor
  · intro h
    have hdepth : g.biasGiven → 2 ≤ g.outDepth := by
      intro hbias
      by_contra hlt
      exact not_convolves_of_single_channel g run hbias (by omega) h
    have htaps : 2 ≤ g.tapCount := by
      by_contra hlt
      exact not_convolves_of_single_tap g run (by omega) hdepth h
    exact ⟨htaps, hdepth, fun ⟨htransposed, htouches⟩ =>
      not_convolves_of_transposed g run (by omega) htransposed htouches h⟩
  · rintro ⟨htaps, hdepth, hnot⟩ x w memory bias hbias
    obtain ⟨out, hout, hshape, helement⟩ := conv2d_spec run g (by omega) hdepth x w memory hbias
    refine ⟨out, hout, hshape, fun b hb o ho y hy x' hx' => ?_⟩
    have hrow := g.rowOf_lt hb hy hx'
    by_cases htransposed : g.Transposed
    · -- no window touches the image: all entries are zero
      have htouches : ¬ g.TouchesImage := fun htouches => hnot ⟨htransposed, htouches⟩
      obtain ⟨r₁, hr₁, o₁, ho₁, hindex⟩ := Blas.exists_linearIndexF (g.cellOf_lt hrow ho)
      obtain ⟨b₁, hb₁, y₁, hy₁, x₁, hx₁, rfl⟩ := g.exists_rowOf hr₁
      rw [helement b hb o ho y hy x' hx' b₁ hb₁ o₁ ho₁ y₁ hy₁ x₁ hx₁ hindex.symm,
        correlationAt_of_not_touches htouches _ _ _ _ hy₁ hx₁,
        correlationAt_of_not_touches htouches _ _ _ _ hy hx']
    · exact helement b hb o ho y hy x' hx' b hb o ho y hy x' hx' (if_neg htransposed).symm

end Right

/-! ## Small convolutions -/

/-- One thread, and memory that holds zeros. -/
def sequentialRuntime : Runtime Int where
  settings := Loops.Settings.initial 1 Nat.one_pos
  schedule := List.flatten
  schedule_perm := (oneThread fun _ => (0 : Int)).schedule_perm
  iterations := List.range
  iterations_perm := (oneThread fun _ => (0 : Int)).iterations_perm
  fresh := fun _ => 0

/-- A kernel that goes on by one pixel. -/
def steppingAxis (kernel : Nat) (hkernel : 0 < kernel) : ImageAxis where
  kernel := kernel
  stride := 1
  padding := 0
  dilation := 1
  kernel_pos := hkernel
  stride_pos := Nat.one_pos
  dilation_pos := Nat.one_pos

/-- Two channels of a two by two kernel over an image of three by three pixels, with a bias. -/
def smallConvolution : Conv2DGeometry where
  batchSize := 1
  inDepth := 1
  outDepth := 2
  inY := 3
  inX := 3
  oY := 2
  oX := 2
  aH := steppingAxis 2 Nat.two_pos
  aW := steppingAxis 2 Nat.two_pos
  isSameMode := 0
  biasGiven := true
  batchSize_pos := Nat.one_pos
  inDepth_pos := Nat.one_pos
  outDepth_pos := Nat.two_pos
  inY_pos := three_pos
  inX_pos := three_pos
  oY_pos := Nat.two_pos
  oX_pos := Nat.two_pos
  outputSizes_eq := by decide

/-- A kernel of one pixel over an image of one channel. -/
def singleTap : Conv2DGeometry where
  batchSize := 1
  inDepth := 1
  outDepth := 1
  inY := 1
  inX := 1
  oY := 1
  oX := 1
  aH := steppingAxis 1 Nat.one_pos
  aW := steppingAxis 1 Nat.one_pos
  isSameMode := 0
  biasGiven := false
  batchSize_pos := Nat.one_pos
  inDepth_pos := Nat.one_pos
  outDepth_pos := Nat.one_pos
  inY_pos := Nat.one_pos
  inX_pos := Nat.one_pos
  oY_pos := Nat.one_pos
  oX_pos := Nat.one_pos
  outputSizes_eq := by decide

theorem convolves_smallConvolution : Convolves smallConvolution Int sequentialRuntime :=
  (convolves_iff smallConvolution sequentialRuntime).mpr
    ⟨by decide, fun _ => by decide, fun h => absurd h.1 (by decide)⟩

/-- A product with one row and one column is never computed. -/
theorem not_convolves_singleTap :
    ¬ ∀ (g : Conv2DGeometry) (run : Runtime Int), Convolves g Int run :=
  fun h => not_convolves_of_single_tap singleTap sequentialRuntime (by decide)
    (fun hbias => absurd hbias (by decide)) (h singleTap sequentialRuntime)

end Convolutions
end LibND4J
