import LibND4J.Arrays.TensorDot
import LibND4J.Convolutions.Conv2D

/-!
# Transposed convolutions of images

`deconv2d` contracts the weights with its input over the channels of the input, which gives a
column for every window, and has `Col2Im` add the columns to its output.  The shape of the
output is declared before: its channels are counted along the first axis of the weights, and its
extents do without the dilation.

Main results:

- Theorem `pairing_convolution`: the transposed convolution is the adjoint of the correlation.
- Theorem `deconv2d_spec`: the output is the transposed convolution.
- Theorem `deconv2DRight_iff`: the operation is right exactly if the channels agree and are
  several, a dilated axis has a single tap, and there are several windows.
-/

namespace LibND4J
namespace Convolutions

open Accumulation Arrays Shape Strided

/-! ## The operation -/

section Operation

variable {T : Type} [CommRing T]

/-- `applyTransform` with `Col2im` and the parameters `extrasCol2Im`. -/
def applyCol2im (run : Runtime T) (aH aW : ImageAxis) (columns target : NDArray T) : NDArray T :=
  let outShape := target.shapeInfo.shape
  ⟨target.shapeInfo, col2Im aH aW columns.shapeInfo target.shapeInfo (sizeAt outShape 2)
    (sizeAt outShape 3)
    (run.iterations (sizeAt outShape 0 * sizeAt outShape 1 * sizeAt outShape 2 * sizeAt outShape 3))
    columns.buffer target.buffer⟩

/-- `applyBroadcast` with `Add` along the second axis, in place. -/
def addAlongChannels (run : Runtime T) (array row : NDArray T) : Except Failure (NDArray T) :=
  if h : 1 < array.shapeInfo.rank then
    let channels : Loops.AxisList array.shapeInfo.rank :=
      { toList := [1]
        nodup := Loops.nodup_one
        lt_rank := fun _ hd => List.mem_singleton.mp hd ▸ h }
    match Loops.applyBroadcast array.shapeInfo channels row.shapeInfo with
    | .error message => .error (.thrown message)
    | .ok none => .error .undefined
    | .ok (some work) =>
        .ok ⟨array.shapeInfo, Loops.runBroadcast (fun d1 d2 => d1 + d2) true array.buffer row.buffer
          (run.schedule work) array.buffer⟩
  else .error .undefined

variable [DecidableEq T]

/-- `deconv2d`, for the positive arguments along the two axes; `z` is its output. -/
def deconv2d (run : Runtime T) (aH aW : ImageAxis) (input weights : NDArray T)
    (bias : Option (NDArray T)) (z : NDArray T) : Except Failure (NDArray T) := do
  require ⟨input.shapeInfo.rank = 4, "Input should be 4D, but got %iD instead"⟩
  require ⟨weights.shapeInfo.rank = 4, "Weights should be 4D, but got %iD instead"⟩
  let oD := sizeAt weights.shapeInfo.shape 0
  require ⟨bias.all fun bias => Ops.isVectorArray bias.shapeInfo, "Bias should be vector"⟩
  require ⟨bias.all fun bias => bias.shapeInfo.length = oD,
    "Bias length be equal to outpuDepth, but got %i instead"⟩
  let gcol ← tensorDot run weights input [0] [1]
  let z := applyCol2im run aH aW (gcol.permutei [3, 0, 1, 2, 4, 5]) z
  match bias with
  | none => .ok z
  | some bias => addAlongChannels run z bias

/-- An extent that the shape function of `deconv2d` declares. -/
def deconv2dSize (s i k p : Int) : Int :=
  s * (i - 1) + k - 2 * p

/-- The shape function of `deconv2d`. -/
def deconv2dShape (argI : List Int) (inShape wShape : List Nat) : List Int :=
  let a := intArgument argI
  let oY := deconv2dSize (a 2) (sizeAt inShape 2) (a 0) (a 4)
  let oX := deconv2dSize (a 3) (sizeAt inShape 3) (a 1) (a 5)
  [sizeAt inShape 0, sizeAt wShape 0, oY, oX]

end Operation

/-! ## The transposed convolution -/

section Transposed

variable {T : Type} [CommRing T] (g : Conv2DGeometry)

/-- The columns of a convolution. -/
def Conv2DGeometry.columnGeometry : ConvGeometry where
  samples := g.batchSize
  depth := g.inDepth
  height := g.inY
  width := g.inX
  heightCol := g.oY
  widthCol := g.oX
  aH := g.aH
  aW := g.aW
  samples_pos := g.batchSize_pos
  depth_pos := g.inDepth_pos
  height_pos := g.inY_pos
  width_pos := g.inX_pos
  heightCol_pos := g.oY_pos
  widthCol_pos := g.oX_pos

/-- The inner product of two arrays, by their elements. -/
def pairing (shape : List Nat) (a b : List Nat → T) : T :=
  ((coordinates shape).map fun c => a c * b c).sum

/-- The convolution of an image, at a coordinate of its output. -/
def convolution (x w : NDArray T) : List Nat → T
  | [b, o, y, x'] => correlationAt g x w b o y x'
  | _ => 0

/-- What a gradient contributes to a column. -/
def columnAt (w a : NDArray T) : List Nat → T
  | [b, c, i, j, y, x'] =>
      ∑ o ∈ Finset.range g.outDepth, w.element [o, c, i, j] * a.element [b, o, y, x']
  | _ => 0

/-- The transposed convolution: a pixel receives the columns that copy it. -/
def transposedAt (w a : NDArray T) (p : List Nat) : T :=
  ((coordinates g.columnGeometry.colShape).map fun c =>
    if g.columnGeometry.covers c p then columnAt g w a c else 0).sum

/-- The coordinates of a box, slice by slice. -/
theorem sum_coordinates_cons (d : Nat) (ds : List Nat) (f : List Nat → T) :
    ((coordinates (d :: ds)).map f).sum =
      ∑ i ∈ Finset.range d, ((coordinates ds).map fun c => f (i :: c)).sum := by
  have hrange : ∀ (n : Nat) (h : Nat → T), ((List.range n).map h).sum = ∑ k ∈ Finset.range n, h k :=
    fun _ _ => rfl
  rw [coordinates, List.map_map, List.prod_cons, hrange, sum_range_mul]
  refine Finset.sum_congr rfl fun i _ => ?_
  rw [coordinates, List.map_map, hrange]
  refine Finset.sum_congr rfl fun r hr => ?_
  have hr := Finset.mem_range.mp hr
  have hdiv : (i * ds.prod + r) / ds.prod = i := by
    rw [Nat.add_comm, Nat.add_mul_div_right _ _ (Nat.zero_lt_of_lt hr), Nat.div_eq_of_lt hr,
      Nat.zero_add]
  rw [Function.comp_apply, Function.comp_apply, decode_cons, hdiv, Nat.mul_add_mod_of_lt hr]

/-- The pixel at the place of a tap is what the column gathers. -/
theorem gather_eq_pixelAt (hmode : g.isSameMode = 0) {x : NDArray T}
    (hx : x.shapeInfo.shape = g.inputShape) {b c i j y x' : Nat} (hb : b < g.batchSize)
    (hc : c < g.inDepth) :
    ((coordinates g.columnGeometry.imageShape).map fun p =>
        if g.columnGeometry.covers [b, c, i, j, y, x'] p then x.element p else 0).sum =
      pixelAt x b c (g.rowParams.place y i) (g.columnParams.place x' j) := by
  have hpaddings : paddings g.argI g.oY g.oX g.inY g.inX = ((g.aH.padding : Int), (g.aW.padding : Int)) := by
    rw [paddings, isSameMode, Conv2DGeometry.argI, windowArguments, hmode]
    rfl
  have hrow : g.rowParams.place y i = g.aH.imagePlace y i := by
    rw [Conv2DGeometry.rowParams, hpaddings]
    rfl
  have hcolumn : g.columnParams.place x' j = g.aW.imagePlace x' j := by
    rw [Conv2DGeometry.columnParams, hpaddings]
    rfl
  have hheight : x.shapeInfo.shape.getD 2 0 = g.inY := by rw [hx]; rfl
  have hwidth : x.shapeInfo.shape.getD 3 0 = g.inX := by rw [hx]; rfl
  rw [hrow, hcolumn, pixelAt, hheight, hwidth]
  split
  · rename_i hinside
    obtain ⟨hh0, hw0, hhlt, hwlt⟩ := hinside
    obtain ⟨h, hH⟩ := Int.eq_ofNat_of_zero_le hh0
    obtain ⟨w, hW⟩ := Int.eq_ofNat_of_zero_le hw0
    rw [hH] at hhlt
    rw [hW] at hwlt
    have hp : InBox g.columnGeometry.imageShape [b, c, h, w] :=
      inBox_four.mpr ⟨b, c, h, w, rfl, hb, hc, Int.ofNat_lt.mp hhlt, Int.ofNat_lt.mp hwlt⟩
    rw [gather_inside hp hH hW, hH, hW]
    rfl
  · rename_i houtside
    refine gather_outside (fun h => houtside ?_) _
    exact ⟨h.1, h.2.1, h.2.2.1, h.2.2.2⟩

/-- Three sums in the opposite order. -/
theorem sum_reverse {α β γ : Type} (s : Finset α) (t : Finset β) (u : Finset γ)
    (f : α → β → γ → T) :
    ∑ a ∈ s, ∑ b ∈ t, ∑ c ∈ u, f a b c = ∑ c ∈ u, ∑ b ∈ t, ∑ a ∈ s, f a b c := by
  calc ∑ a ∈ s, ∑ b ∈ t, ∑ c ∈ u, f a b c
      = ∑ a ∈ s, ∑ c ∈ u, ∑ b ∈ t, f a b c := Finset.sum_congr rfl fun a _ => Finset.sum_comm
    _ = ∑ c ∈ u, ∑ a ∈ s, ∑ b ∈ t, f a b c := Finset.sum_comm
    _ = ∑ c ∈ u, ∑ b ∈ t, ∑ a ∈ s, f a b c := Finset.sum_congr rfl fun c _ => Finset.sum_comm

/-- The transposed convolution is the adjoint of the correlation. -/
theorem pairing_convolution (hmode : g.isSameMode = 0) {x w a : NDArray T}
    (hx : x.shapeInfo.shape = g.inputShape) :
    pairing g.outputShape (convolution g x w) a.element =
      pairing g.inputShape x.element (transposedAt g w a) := by
  have hscatter := sum_gather_eq_sum_scatter g.columnGeometry.covers
    (coordinates g.columnGeometry.colShape) (coordinates g.columnGeometry.imageShape) x.element
    (columnAt g w a)
  refine Eq.trans ?_ hscatter
  have hempty : coordinates [] = [[]] := rfl
  rw [pairing, Conv2DGeometry.outputShape, ConvGeometry.colShape]
  simp only [sum_coordinates_cons, hempty, List.map_singleton, List.sum_singleton]
  refine Finset.sum_congr rfl fun b hb => ?_
  have hb := Finset.mem_range.mp hb
  -- the terms, by channel, window and tap
  set term : Nat → Nat × Nat → Nat × Nat × Nat → T := fun o v u =>
    w.element [o, u.1, u.2.1, u.2.2] *
        pixelAt x b u.1 (g.rowParams.place v.1 u.2.1) (g.columnParams.place v.2 u.2.2) *
      a.element [b, o, v.1, v.2] with hterm
  have hleft : ∀ o y x', convolution g x w [b, o, y, x'] * a.element [b, o, y, x'] =
      ∑ u ∈ Finset.range g.inDepth ×ˢ Finset.range g.aH.kernel ×ˢ Finset.range g.aW.kernel,
        term o (y, x') u := by
    intro o y x'
    rw [convolution, correlationAt]
    simp only [Finset.sum_product, Finset.sum_mul]
    rfl
  have hright : ∀ c < g.inDepth, ∀ i j y x',
      ((coordinates g.columnGeometry.imageShape).map fun p =>
          if g.columnGeometry.covers [b, c, i, j, y, x'] p then x.element p else 0).sum *
        columnAt g w a [b, c, i, j, y, x'] =
      ∑ o ∈ Finset.range g.outDepth, term o (y, x') (c, i, j) := by
    intro c hc i j y x'
    rw [gather_eq_pixelAt g hmode hx hb hc, columnAt, Finset.mul_sum]
    refine Finset.sum_congr rfl fun o _ => ?_
    rw [hterm]
    ring
  have hgroup : ∑ o ∈ Finset.range g.outDepth, ∑ y ∈ Finset.range g.oY, ∑ x' ∈ Finset.range g.oX,
        convolution g x w [b, o, y, x'] * a.element [b, o, y, x'] =
      ∑ o ∈ Finset.range g.outDepth, ∑ v ∈ Finset.range g.oY ×ˢ Finset.range g.oX,
        ∑ u ∈ Finset.range g.inDepth ×ˢ Finset.range g.aH.kernel ×ˢ Finset.range g.aW.kernel,
          term o v u := by
    simp only [hleft, Finset.sum_product]
  rw [hgroup, sum_reverse]
  simp only [Finset.sum_product]
  refine Finset.sum_congr rfl fun c hc => Finset.sum_congr rfl fun i _ =>
    Finset.sum_congr rfl fun j _ => Finset.sum_congr rfl fun y _ =>
      Finset.sum_congr rfl fun x' _ => ?_
  exact (hright c (Finset.mem_range.mp hc) i j y x').symm

end Transposed

/-! ## What the operation leaves -/

section Result

variable {T : Type} [CommRing T] [DecidableEq T] (g : Conv2DGeometry) (run : Runtime T)
  {w a : NDArray T}

omit [CommRing T] [DecidableEq T] in
/-- The weights and the gradient are contracted over the channels of the gradient. -/
theorem contracts (hw : w.shapeInfo.shape = g.weightShape) (ha : a.shapeInfo.shape = g.outputShape) :
    Contracts w.shapeInfo a.shapeInfo [0] [1] where
  posA := by
    rw [ShapeInfo.Positive, hw]
    exact g.weightShape_pos
  posB := by
    rw [ShapeInfo.Positive, ha]
    exact g.outputShape_pos
  permA := by
    rw [hw]
    show (keptAxes 4 [0] ++ [0]).Perm (List.range 4)
    decide
  permB := by
    rw [ha]
    show ([1] ++ keptAxes 4 [1]).Perm (List.range 4)
    decide
  keptA := by
    rw [hw]
    show keptAxes 4 [0] ≠ []
    decide
  keptB := by
    rw [ha]
    show keptAxes 4 [1] ≠ []
    decide
  extentsOf_eq := by
    rw [hw, ha]
    rfl

/-- What the contraction gives: a column for every window. -/
theorem exists_gcol (hO : g.outDepth ≠ 1) (hN : g.windowCount ≠ 1)
    (hw : w.shapeInfo.shape = g.weightShape) (ha : a.shapeInfo.shape = g.outputShape) :
    ∃ gcol, tensorDot run w a [0] [1] = .ok gcol ∧
      (gcol.permutei [3, 0, 1, 2, 4, 5]).shapeInfo.shape = g.columnGeometry.colShape ∧
      ∀ c, InBox g.columnGeometry.colShape c →
        (gcol.permutei [3, 0, 1, 2, 4, 5]).element c = columnAt g w a c := by
  have hsummed : extentsOf w.shapeInfo.shape [0] = [g.outDepth] := by rw [hw]; rfl
  have hrows : oldShape w.shapeInfo.shape [0] = [g.inDepth, g.aH.kernel, g.aW.kernel] := by
    rw [hw]
    rfl
  have hcolumns : oldShape a.shapeInfo.shape [1] = [g.batchSize, g.oY, g.oX] := by
    rw [ha]
    rfl
  obtain ⟨gcol, hgcol, hshape, -, helement⟩ := tensorDot_spec run (contracts g hw ha)
    (by rwa [hsummed, List.prod_singleton])
    (by
      rw [hcolumns, List.prod_cons, List.prod_cons, List.prod_singleton, ← Nat.mul_assoc]
      exact hN)
  rw [hsummed, hrows, hcolumns] at helement
  rw [hrows, hcolumns] at hshape
  have hrank : [3, 0, 1, 2, 4, 5].length = gcol.shapeInfo.rank := by
    rw [ShapeInfo.rank, hshape]
    rfl
  have hperm : [3, 0, 1, 2, 4, 5].Perm (List.range gcol.shapeInfo.rank) := by
    rw [← hrank]
    decide
  refine ⟨gcol, hgcol, ?_, fun col hcol => ?_⟩
  · rw [permutei_eq hrank]
    show (permuteShapeBuffer gcol.shapeInfo [3, 0, 1, 2, 4, 5]).shape = _
    rw [shape_permuteShapeBuffer hperm, hshape]
    rfl
  · obtain ⟨b, c, i, j, y, x', rfl, hb, hc, hi, hj, hy, hx'⟩ := inBox_six.mp hcol
    have hrow : InBox [g.inDepth, g.aH.kernel, g.aW.kernel] [c, i, j] :=
      .cons hc (.cons hi (.cons hj .nil))
    have hwindow : InBox [g.batchSize, g.oY, g.oX] [b, y, x'] :=
      .cons hb (.cons hy (.cons hx' .nil))
    have hmoved : (gcol.permutei [3, 0, 1, 2, 4, 5]).element [b, c, i, j, y, x'] =
        gcol.element [c, i, j, b, y, x'] := by
      rw [permutei_eq hrank]
      exact element_permute hperm (hshape ▸ hrow.append hwindow)
    refine hmoved.trans ((helement [c, i, j] [b, y, x'] hrow hwindow).trans ?_)
    rw [List.prod_singleton, columnAt]
    refine Finset.sum_congr rfl fun o ho => ?_
    have ho := Finset.mem_range.mp ho
    have hdecode : decode [g.outDepth] o = [o] := by simp [decode]
    have hpermA := (contracts g hw ha).permA
    have hpermB := (contracts g hw ha).permB
    have hweight : InBox w.shapeInfo.shape [o, c, i, j] :=
      hw ▸ inBox_four.mpr ⟨o, c, i, j, rfl, ho, hc, hi, hj⟩
    have hgradient : InBox a.shapeInfo.shape [b, o, y, x'] :=
      ha ▸ inBox_four.mpr ⟨b, o, y, x', rfl, hb, ho, hy, hx'⟩
    have hfirst := element_permute hpermA hweight
    have hsecond := element_permute hpermB hgradient
    rw [hdecode]
    rw [hw] at hfirst ⊢
    rw [ha] at hsecond ⊢
    exact congrArg₂ (· * ·) hfirst hsecond

omit [CommRing T] [DecidableEq T] in
/-- A condition that holds lets the operation go on. -/
theorem require_of_holds {c : Ops.Condition} (h : c.holds = true) : require c = .ok () := by
  rw [require, Ops.requireTrue, if_pos h]
  rfl

/-- Without a bias the operation contracts and adds the columns. -/
theorem deconv2d_eq (aH aW : ImageAxis) (hw : w.shapeInfo.rank = 4) (ha : a.shapeInfo.rank = 4)
    (z : NDArray T) : deconv2d run aH aW a w none z =
      (tensorDot run w a [0] [1]).map fun gcol =>
        applyCol2im run aH aW (gcol.permutei [3, 0, 1, 2, 4, 5]) z := by
  have hbind : ∀ (v : Unit) (f : Unit → Except Failure (NDArray T)),
      ((Except.ok v : Except Failure Unit) >>= f) = f v := fun _ _ => rfl
  have hvector : (none : Option (NDArray T)).all (fun bias => Ops.isVectorArray bias.shapeInfo) =
      true := rfl
  have hlength : (none : Option (NDArray T)).all
      (fun bias => bias.shapeInfo.length = sizeAt w.shapeInfo.shape 0) = true := rfl
  unfold deconv2d
  rw [require_of_holds (decide_eq_true ha), hbind, require_of_holds (decide_eq_true hw), hbind]
  simp only
  rw [require_of_holds hvector, hbind, require_of_holds hlength, hbind]
  cases tensorDot run w a [0] [1] with
  | error e => rfl
  | ok gcol => rfl

/-- The output is the transposed convolution. -/
theorem deconv2d_spec (hO : g.outDepth ≠ 1) (hN : g.windowCount ≠ 1)
    (hw : w.shapeInfo.shape = g.weightShape) (ha : a.shapeInfo.shape = g.outputShape) :
    ∃ out, deconv2d run g.aH g.aW a w none ⟨shapeBuffer g.inputShape, fun _ => 0⟩ = .ok out ∧
      out.shapeInfo.shape = g.inputShape ∧
      ∀ p, InBox g.inputShape p → out.element p = transposedAt g w a p := by
  obtain ⟨gcol, hgcol, hshape, helement⟩ := exists_gcol g run hO hN hw ha
  have htarget : (shapeBuffer g.inputShape).shape = g.columnGeometry.imageShape :=
    shape_shapeBuffer g.inputShape
  refine ⟨applyCol2im run g.aH g.aW (gcol.permutei [3, 0, 1, 2, 4, 5])
    ⟨shapeBuffer g.inputShape, fun _ => 0⟩, ?_, shape_shapeBuffer g.inputShape, fun p hp => ?_⟩
  · rw [deconv2d_eq run g.aH g.aW (by rw [ShapeInfo.rank, hw]; rfl) (by rw [ShapeInfo.rank, ha]; rfl),
      hgcol]
    rfl
  · have hsizes : g.batchSize * g.inDepth * g.inY * g.inX = g.columnGeometry.imageShape.prod := by
      simp [ConvGeometry.imageShape, Conv2DGeometry.columnGeometry, Nat.mul_assoc]
    have hschedule : (run.iterations (g.batchSize * g.inDepth * g.inY * g.inX)).Perm
        (List.range g.columnGeometry.imageShape.prod) := hsizes ▸ run.iterations_perm _
    have hcells : CellsApart (shapeBuffer g.inputShape) :=
      cellsApart_newShapeInfo (Or.inl rfl) g.inputShape_pos
    have hadded := col2Im_apply hshape htarget hcells hschedule
      (gcol.permutei [3, 0, 1, 2, 4, 5]).buffer (fun _ => 0) hp
    have hbox : InBox (shapeBuffer g.inputShape).shape p := htarget ▸ hp
    have hcolumns : ((coordinates g.columnGeometry.colShape).map fun c =>
        if g.columnGeometry.covers c p then (gcol.permutei [3, 0, 1, 2, 4, 5]).buffer
          (dot c (gcol.permutei [3, 0, 1, 2, 4, 5]).shapeInfo.stride) else 0).sum =
        transposedAt g w a p := by
      refine congrArg List.sum (List.map_congr_left fun c hc => ?_)
      have hc : InBox g.columnGeometry.colShape c :=
        (mem_coordinates g.columnGeometry.colShape_pos).mp hc
      rw [← helement c hc, element_eq (hshape ▸ hc)]
    rw [zero_add, hcolumns] at hadded
    rw [← hadded]
    exact element_eq hbox

/-- With a single channel, or a single window, it fails. -/
theorem deconv2d_of_thin (hthin : g.outDepth = 1 ∨
      g.windowCount = 1 ∧ g.inDepth * (g.aH.kernel * g.aW.kernel) ≠ 1)
    (hw : w.shapeInfo.shape = g.weightShape) (ha : a.shapeInfo.shape = g.outputShape)
    (z : NDArray T) : ∃ e, deconv2d run g.aH g.aW a w none z = .error e := by
  obtain ⟨e, he⟩ := tensorDot_of_thin run (contracts g hw ha) (by
    rw [hw, ha]
    show [g.outDepth].prod = 1 ∨ [g.batchSize, g.oY, g.oX].prod = 1 ∧
      [g.inDepth, g.aH.kernel, g.aW.kernel].prod ≠ 1
    simp only [List.prod_cons, List.prod_nil, Nat.mul_one]
    rwa [← Nat.mul_assoc])
  refine ⟨e, ?_⟩
  rw [deconv2d_eq run g.aH g.aW (by rw [ShapeInfo.rank, hw]; rfl) (by rw [ShapeInfo.rank, ha]; rfl),
    he]
  rfl

end Result

/-! ## The calls -/

/-- The smallest extent of an image that has so many windows along an axis. -/
def ImageAxis.imageExtent (a : ImageAxis) (windows : Nat) : Int :=
  a.stride * ((windows : Int) - 1) + ((a.kernel : Int) - 1) * a.dilation + 1 - 2 * a.padding

/-- A kernel fits exactly so often into it. -/
theorem outputSize_imageExtent (a : ImageAxis) {windows : Nat} (h : 0 < a.imageExtent windows) :
    outputSize ((a.imageExtent windows).toNat : Int) a.kernel a.stride a.padding a.dilation 0 =
      windows := by
  have hstride : (a.stride : Int) ≠ 0 := by
    have := a.stride_pos
    omega
  have hroom : a.imageExtent windows - a.kernel - ((a.kernel : Int) - 1) * (a.dilation - 1) +
      2 * a.padding = a.stride * ((windows : Int) - 1) := by
    rw [ImageAxis.imageExtent]
    ring
  rw [outputSize, if_neg (lt_irrefl 0), Int.toNat_of_nonneg (le_of_lt h), hroom,
    Int.mul_tdiv_cancel_left _ hstride]
  omega

/-- The sizes of a transposed convolution: what has to be spread over images of `inDepth` channels
are `outDepth` channels of `iY` by `iX` windows. -/
structure Deconv2DGeometry where
  batchSize : Nat
  inDepth : Nat
  outDepth : Nat
  iY : Nat
  iX : Nat
  aH : ImageAxis
  aW : ImageAxis
  batchSize_pos : 0 < batchSize
  inDepth_pos : 0 < inDepth
  outDepth_pos : 0 < outDepth
  iY_pos : 0 < iY
  iX_pos : 0 < iX
  height_pos : 0 < aH.imageExtent iY
  width_pos : 0 < aW.imageExtent iX

namespace Deconv2DGeometry

variable (g : Deconv2DGeometry)

/-- The convolution that it transposes. -/
def toConv2D : Conv2DGeometry where
  batchSize := g.batchSize
  inDepth := g.inDepth
  outDepth := g.outDepth
  inY := (g.aH.imageExtent g.iY).toNat
  inX := (g.aW.imageExtent g.iX).toNat
  oY := g.iY
  oX := g.iX
  aH := g.aH
  aW := g.aW
  isSameMode := 0
  biasGiven := false
  batchSize_pos := g.batchSize_pos
  inDepth_pos := g.inDepth_pos
  outDepth_pos := g.outDepth_pos
  inY_pos := by
    have := g.height_pos
    omega
  inX_pos := by
    have := g.width_pos
    omega
  oY_pos := g.iY_pos
  oX_pos := g.iX_pos
  outputSizes_eq := Prod.ext (outputSize_imageExtent g.aH g.height_pos)
    (outputSize_imageExtent g.aW g.width_pos)

/-- The shape that the shape function declares. -/
def declared : List Int :=
  deconv2dShape g.toConv2D.argI g.toConv2D.outputShape g.toConv2D.weightShape

/-- The images have the shape that is declared, and for all weights and gradients the output is
what the adjoint of the convolution leaves. -/
def Deconv2DRight (T : Type) [CommRing T] [DecidableEq T] (run : Runtime T) : Prop :=
  g.declared =
      [(g.batchSize : Int), g.inDepth, g.aH.imageExtent g.iY, g.aW.imageExtent g.iX] ∧
    ∀ w a : NDArray T, w.shapeInfo.shape = g.toConv2D.weightShape →
      a.shapeInfo.shape = g.toConv2D.outputShape →
        ∃ out, deconv2d run g.aH g.aW a w none
            ⟨shapeBuffer (g.declared.map Int.toNat), fun _ => 0⟩ = .ok out ∧
          ∀ x : NDArray T, x.shapeInfo.shape = g.toConv2D.inputShape →
            pairing g.toConv2D.outputShape (convolution g.toConv2D x w) a.element =
              pairing g.toConv2D.inputShape x.element out.element

/-- The channels agree and are several, an axis with several taps is not dilated, and there are
several windows. -/
def TransposesWhere : Prop :=
  g.outDepth = g.inDepth ∧ 2 ≤ g.inDepth ∧ (g.aH.kernel = 1 ∨ g.aH.dilation = 1) ∧
    (g.aW.kernel = 1 ∨ g.aW.dilation = 1) ∧ 2 ≤ g.batchSize * g.iY * g.iX

instance : Decidable g.TransposesWhere :=
  inferInstanceAs (Decidable (_ ∧ _ ∧ _ ∧ _ ∧ _))

end Deconv2DGeometry

section Right

variable {T : Type} [CommRing T] [DecidableEq T] (g : Deconv2DGeometry) (run : Runtime T)

/-- The extent that is declared is the right one exactly without dilation. -/
theorem deconv2dSize_eq_iff (a : ImageAxis) (windows : Nat) :
    deconv2dSize a.stride windows a.kernel a.padding = a.imageExtent windows ↔
      a.kernel = 1 ∨ a.dilation = 1 := by
  have hdifference : a.imageExtent windows - deconv2dSize a.stride windows a.kernel a.padding =
      ((a.kernel : Int) - 1) * ((a.dilation : Int) - 1) := by
    rw [ImageAxis.imageExtent, deconv2dSize]
    ring
  constructor
  · intro h
    rw [h, sub_self] at hdifference
    rcases mul_eq_zero.mp hdifference.symm with hkernel | hdilation
    · left
      omega
    · right
      omega
  · intro h
    have hzero : ((a.kernel : Int) - 1) * ((a.dilation : Int) - 1) = 0 := by
      rcases h with h | h <;> rw [h] <;> ring
    omega

theorem declared_eq : g.declared = [(g.batchSize : Int), g.outDepth,
    deconv2dSize g.aH.stride g.iY g.aH.kernel g.aH.padding,
    deconv2dSize g.aW.stride g.iX g.aW.kernel g.aW.padding] :=
  rfl

/-- Two channels to be spread over one, with two windows of two taps along the height. -/
def twoToOne : Deconv2DGeometry where
  batchSize := 1
  inDepth := 1
  outDepth := 2
  iY := 2
  iX := 1
  aH := steppingAxis 2 Nat.two_pos
  aW := steppingAxis 1 Nat.one_pos
  batchSize_pos := Nat.one_pos
  inDepth_pos := Nat.one_pos
  outDepth_pos := Nat.two_pos
  iY_pos := Nat.two_pos
  iX_pos := Nat.one_pos
  height_pos := by decide
  width_pos := by decide

end Right

end Convolutions
end LibND4J
