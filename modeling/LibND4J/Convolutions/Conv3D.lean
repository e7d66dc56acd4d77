import LibND4J.Convolutions.Im2Col
import LibND4J.Convolutions.Kernels3D
import LibND4J.Convolutions.MaxPool3D
import LibND4J.Loops.Scalar
import LibND4J.Shape.Examples

/-!
# Convolutions of volumes

`conv3d` cuts its input and its output along the batch.  For each item it fills a part of the
output, with the bias if there is one and with zeros otherwise, and has `conv3Dmv` add the
correlations of the planes.  With a bias the part is the item; without it is the whole output, so
that an item undoes what the ones before it left.

Main results:

- Theorem `conv3Dmv_eq`: the correlations of an item are added to its cells.
- Theorem `conv3DRight_iff`: the output is right exactly if it lies in C order, and the bias
  is used or the batch has one item.
-/

namespace LibND4J
namespace Convolutions

open Accumulation Arrays Shape Stores Strided

/-! ## Arrays -/

/-- `NDArray::isContiguous`, over the axes from the last one down. -/
def contiguousLoop : List (Nat × Int) → Int → Bool
  | [], _ => true
  | a :: axes, z =>
      if a.1 ≠ 1 then
        if a.2 = z then contiguousLoop axes (z * a.1) else false
      else contiguousLoop axes z

/-- `NDArray::isContiguous`. -/
def isContiguous (info : ShapeInfo) : Bool :=
  contiguousLoop info.axes.reverse 1

section Arrays

variable {T : Type}

/-- `NDArray::dup`: a fresh array in F order for the order `f`, and in C order for all others. -/
def dup (array : NDArray T) (newOrder : Char) : NDArray T where
  shapeInfo :=
    if newOrder = 'f' then shapeBufferFortran array.shapeInfo.shape
    else shapeBuffer array.shapeInfo.shape
  buffer := fun i => array.element (coordinateOf (newOrder = 'f') array.shapeInfo.shape i.toNat)

/-- `sizeAt` of an array. -/
def sizeOf (array : NDArray T) (dim : Nat) : Nat :=
  sizeAt array.shapeInfo.shape dim

/-- `stridesOf` of an array, at a dimension. -/
def stridesOf (array : NDArray T) (dim : Nat) : Int :=
  array.shapeInfo.stride.getD dim 0

end Arrays

/-! ## The correlations of an item -/

/-- What the operation ends with when it does not return. -/
inductive Conv3DFailure
  | badDimensions
  | badParams
  | validation (message : String)
  | boom
  | outOfBounds
deriving DecidableEq, Repr

/-- A routine on the array that starts at a pointer. -/
def atArray {T : Type} (pointer : Int) (routine : (Int → T) → Option (Int → T))
    (memory : Int → T) : Except Conv3DFailure (Int → T) :=
  match routine fun i => memory (pointer + i) with
  | none => .error .outOfBounds
  | some after => .ok fun i => after (i - pointer)

def convsize (a : KernelAxis) (vf : Char) : Int :=
  if vf = 'V' then a.validSize else a.fullSize

section Correlations

variable {T : Type} [CommRing T] [DecidableEq T]

/-- `conv3D`, for the letters that are checked before. -/
def conv3D (aT aR aC : KernelAxis) (vf xc : Char) (alpha : T) (t k r : Int → T) : Int → T :=
  if vf = 'F' then
    if xc = 'X' then fullXCorr3Dptr aT aR aC alpha t k r else fullConv3Dptr aT aR aC alpha t k r
  else
    if xc = 'X' then validXCorr3Dptr aT aR aC alpha t k r else validConv3Dptr aT aR aC alpha t k r

/-- `conv3Dmv`; the array `r_` starts at `rAt`. -/
def conv3Dmv (r : ShapeInfo) (rAt : Int) (beta alpha : T) (t k : NDArray T)
    (sdepth srow scol : Int) (vf xc : Char) (memory : Int → T) :
    Except Conv3DFailure (Int → T) :=
  if t.shapeInfo.rank ≠ 4 ∨ k.shapeInfo.rank ≠ 5 ∨ (sdepth < 1 ∨ srow < 1 ∨ scol < 1) ∨
      ¬ (vf = 'V' ∨ vf = 'F') ∨ ¬ (xc = 'X' ∨ xc = 'C') then
    .error .boom
  else
    let input := if isContiguous t.shapeInfo then t else dup t t.shapeInfo.order
    let kernel :=
      if ¬ (stridesOf k 4 = 1 ∨ stridesOf k 3 = sizeOf k 4) then
        if isContiguous k.shapeInfo then k else dup k k.shapeInfo.order
      else k
    let nInputPlane := sizeOf input 0
    let aT : KernelAxis := ⟨sizeOf input 1, sizeOf kernel 2, sdepth.toNat⟩
    let aR : KernelAxis := ⟨sizeOf input 2, sizeOf kernel 3, srow.toNat⟩
    let aC : KernelAxis := ⟨sizeOf input 3, sizeOf kernel 4, scol.toNat⟩
    let nOutputPlane := sizeOf kernel 0
    let nOutputDepth := convsize aT vf
    let nOutputRows := convsize aR vf
    let nOutputCols := convsize aC vf
    if sizeOf kernel 1 ≠ nInputPlane then
      .error .boom
    else if ¬ ((aT.input ≥ aT.kernel ∧ aR.input ≥ aR.kernel ∧ aC.input ≥ aC.kernel) ∨
        vf = 'F') then
      .error .boom
    else if r.shape.map (fun n : Nat => (n : Int)) ≠
        [(nOutputPlane : Int), nOutputDepth, nOutputRows, nOutputCols] then
      .error .boom
    else
      let scaled :=
        if r.length = 0 ∨ beta = 0 then atArray rAt (Loops.assign 0 r) memory
        else if beta ≠ 1 then atArray rAt (Loops.execScalar (fun v => v * beta) r) memory
        else .ok memory
      scaled.map fun scaled =>
        (List.range nOutputPlane ×ˢ List.range nInputPlane).foldl
          (fun m (p : Nat × Nat) =>
            atPointer (rAt + p.1 * (nOutputDepth * nOutputCols * nOutputRows))
              (conv3D aT aR aC vf xc alpha
                (fun i => input.buffer (p.2 * stridesOf input 0 + i))
                (fun i => kernel.buffer (p.1 * stridesOf kernel 0 + p.2 * stridesOf kernel 1 + i)))
              m)
          scaled

end Correlations

/-! ## The operation -/

/-- The integer arguments of `conv3d`. -/
structure Conv3DArguments where
  biasUsed : Int
  dT : Int
  dW : Int
  dH : Int
  pT : Int
  pW : Int
  pH : Int
deriving DecidableEq, Repr

section Operation

variable {T : Type} [CommRing T] [DecidableEq T]

/-- The condition on the shape of the output. -/
def conv3dCondition (a : Conv3DArguments) (input weights output : List Nat) : Ops.Condition :=
  let outputDepth := ((sizeAt input 2 : Int) - sizeAt weights 2).tdiv a.dT + 1
  let outputWidth := ((sizeAt input 4 : Int) - sizeAt weights 4).tdiv a.dW + 1
  let outputHeight := ((sizeAt input 3 : Int) - sizeAt weights 3).tdiv a.dH + 1
  ⟨sizeAt output 0 = sizeAt input 0 ∧ sizeAt output 1 = sizeAt weights 0 ∧
      sizeAt output 2 = outputDepth ∧ sizeAt output 3 = outputHeight ∧
      sizeAt output 4 = outputWidth,
    "Expected output shape: [%i, %i, %i, %i, %i] but got [%i, %i, %i, %i, %i] instead"⟩

/-- The loop over the planes of an item that assigns the values of the bias. -/
def fillExamples (tadOut : ShapeInfo) (tadOutAt : Int) (values : List T) (memory : Int → T) :
    Except Conv3DFailure (Int → T) :=
  match exampleArrays tadOut with
  | none => .error .outOfBounds
  | some (oB, outputBlock) =>
      (values.zip outputBlock).foldlM
        (fun m (p : T × Int) => atArray (tadOutAt + p.2) (Loops.assign p.1 oB) m) memory

/-- One iteration of the loop over the batch: `biasList` is the bias, if it is used. -/
def conv3dStep (a : Conv3DArguments) (x w : NDArray T) (biasList : Option (List T))
    (output tadIn tadOut : ShapeInfo) (tadInAt tadOutAt : Int) (memory : Int → T) :
    Except Conv3DFailure (Int → T) :=
  let filled :=
    match biasList with
    | some values => fillExamples tadOut tadOutAt values memory
    | none => atArray 0 (Loops.assign 0 output) memory
  filled >>= conv3Dmv tadOut tadOutAt 1 1 ⟨tadIn, fun i => x.buffer (tadInAt + i)⟩ w
    a.dT a.dH a.dW 'V' 'X'

/-- `conv3d`, on the memory of the output. -/
def conv3d (a : Conv3DArguments) (x w : NDArray T) (bias : Option (List T)) (output : ShapeInfo)
    (memory : Int → T) : Except Conv3DFailure (Int → T) :=
  if x.shapeInfo.rank ≠ 5 then
    .error .badDimensions
  else if a.pT ≠ 0 ∨ a.pW ≠ 0 ∨ a.pH ≠ 0 then
    .error .badParams
  else
    match Ops.requireTrue (conv3dCondition a x.shapeInfo.shape w.shapeInfo.shape output.shape) with
    | .error message => .error (.validation message)
    | .ok () =>
        let biasList := if a.biasUsed ≠ 0 then bias else none
        match exampleArrays x.shapeInfo, exampleArrays output with
        | some (tadIn, batchIn), some (tadOut, batchOut) =>
            (batchIn.zip batchOut).foldlM
              (fun m (p : Int × Int) => conv3dStep a x w biasList output tadIn tadOut p.1 p.2 m)
              memory
        | _, _ => .error .outOfBounds

end Operation

/-! ## Contiguous arrays -/

theorem contiguousLoop_runningStrides (ds : List Nat) (z : Int) :
    contiguousLoop (ds.zip (runningStrides ds z)) z = true := by
  induction ds generalizing z with
  | nil => rfl
  | cons d ds ih =>
      rw [runningStrides, List.zip_cons_cons, contiguousLoop]
      by_cases hone : d = 1
      · have hz : z * d = z := by rw [hone, Nat.cast_one, mul_one]
        rw [if_neg (not_not.mpr hone), hz]
        exact ih z
      · rw [if_pos hone, if_pos rfl]
        exact ih (z * d)

variable {info : ShapeInfo}

/-- The examples of a dense array are contiguous. -/
theorem isContiguous_of_axes {ds : List Nat}
    (haxes : info.axes = ds.zip (runningStrides ds.reverse 1).reverse) :
    isContiguous info = true := by
  have hlength : ds.length = (runningStrides ds.reverse 1).reverse.length := by simp
  have hreverse := List.reverse_zipWith (f := Prod.mk) hlength
  rw [List.reverse_reverse] at hreverse
  rw [isContiguous, haxes]
  exact (congrArg (contiguousLoop · 1) hreverse).trans (contiguousLoop_runningStrides _ _)

/-! ## The arrays of a call -/

/-- An axis of the input, with a kernel that fits and a stride. -/
structure CorrelatedAxis where
  input : Nat
  kernel : Nat
  stride : Nat
  kernel_pos : 0 < kernel
  kernel_le : kernel ≤ input
  stride_pos : 0 < stride

namespace CorrelatedAxis

variable (a : CorrelatedAxis)

/-- The number of windows. -/
def size : Nat :=
  (a.input - a.kernel) / a.stride + 1

/-- The axis of the kernels on pointers. -/
def kernelAxis : KernelAxis :=
  ⟨a.input, a.kernel, a.stride⟩

theorem size_eq : ((a.input : Int) - a.kernel).tdiv a.stride + 1 = a.size := by
  rw [← Int.ofNat_sub a.kernel_le, ← Int.ofNat_tdiv]
  rfl

theorem validSize_eq : a.kernelAxis.validSize = a.size :=
  a.size_eq

/-- A window stays inside the input. -/
theorem window_lt {z k : Nat} (hz : z < a.size) (hk : k < a.kernel) :
    z * a.stride + k < a.input := by
  have hle : z * a.stride ≤ a.input - a.kernel :=
    (Nat.le_div_iff_mul_le a.stride_pos).mp (Nat.le_of_lt_succ hz)
  have hfits := a.kernel_le
  omega

end CorrelatedAxis

/-- The extents of the arrays of a call, the order of the output, the argument for the bias, and
whether there is one. -/
structure Conv3DGeometry where
  batchSize : Nat
  nInputPlane : Nat
  nOutputPlane : Nat
  depth : CorrelatedAxis
  height : CorrelatedAxis
  width : CorrelatedAxis
  batchSize_pos : 0 < batchSize
  nInputPlane_pos : 0 < nInputPlane
  nOutputPlane_pos : 0 < nOutputPlane
  order : Char
  biasUsed : Int
  given : Bool

namespace Conv3DGeometry

variable (g : Conv3DGeometry)

/-- The shape of an item of the input. -/
def inputItem : List Nat :=
  [g.nInputPlane, g.depth.input, g.height.input, g.width.input]

/-- The shape of the input. -/
def input : List Nat :=
  g.batchSize :: g.inputItem

/-- The shape of the weights. -/
def weights : List Nat :=
  [g.nOutputPlane, g.nInputPlane, g.depth.kernel, g.height.kernel, g.width.kernel]

/-- The shape of an item of the output. -/
def item : List Nat :=
  [g.nOutputPlane, g.depth.size, g.height.size, g.width.size]

/-- The shape of the output. -/
def output : List Nat :=
  g.batchSize :: g.item

def outputInfo : ShapeInfo :=
  freshShapeInfo g.order g.output

/-- The integer arguments. -/
def arguments : Conv3DArguments :=
  ⟨g.biasUsed, g.depth.stride, g.width.stride, g.height.stride, 0, 0, 0⟩

/-- The bias is there and asked for. -/
def addsBias : Bool :=
  g.biasUsed ≠ 0 ∧ g.given

/-- The call for arrays of these extents. -/
def call {T : Type} [CommRing T] [DecidableEq T] (x w : Int → T) (bias : List T)
    (memory : Int → T) : Except Conv3DFailure (Int → T) :=
  conv3d g.arguments ⟨shapeBuffer g.input, x⟩ ⟨shapeBuffer g.weights, w⟩
    (if g.given then some bias else none) g.outputInfo memory

theorem inputItem_pos : ∀ n ∈ g.inputItem, 0 < n := by
  have hd := g.depth.kernel_pos.trans_le g.depth.kernel_le
  have hh := g.height.kernel_pos.trans_le g.height.kernel_le
  have hw := g.width.kernel_pos.trans_le g.width.kernel_le
  simp [inputItem, g.nInputPlane_pos, hd, hh, hw]

theorem input_pos : ∀ n ∈ g.input, 0 < n :=
  List.forall_mem_cons.mpr ⟨g.batchSize_pos, g.inputItem_pos⟩

theorem item_pos : ∀ n ∈ g.item, 0 < n := by
  simp [item, g.nOutputPlane_pos, CorrelatedAxis.size]

theorem output_pos : ∀ n ∈ g.output, 0 < n :=
  List.forall_mem_cons.mpr ⟨g.batchSize_pos, g.item_pos⟩

end Conv3DGeometry

/-! ## The correlations -/

section Spec

variable {T : Type} [CommRing T] (g : Conv3DGeometry)

/-- The taps of the kernel, with the plane of the input. -/
def Conv3DGeometry.taps : List (Nat × Place) :=
  List.range g.nInputPlane ×ˢ List.range g.depth.kernel ×ˢ List.range g.height.kernel ×ˢ
    List.range g.width.kernel

/-- The element of an item of the input that a tap meets in a window. -/
def Conv3DGeometry.met (v : Place) (p : Nat × Place) : List Nat :=
  [p.1, v.1 * g.depth.stride + p.2.1, v.2.1 * g.height.stride + p.2.2.1,
    v.2.2 * g.width.stride + p.2.2.2]

/-- The correlation of an item of the input with the weights, at an element of the output. -/
def correlation (item w : Int → T) : List Nat → T
  | [o, t, y, x] =>
      (g.taps.map fun p =>
        w (encode g.weights [o, p.1, p.2.1, p.2.2.1, p.2.2.2]) *
          item (encode g.inputItem (g.met (t, y, x) p))).sum
  | _ => 0

/-- What a plane of the input adds to a cell for a plane of the output. -/
def planeAdded (item w : Int → T) (rAt i : Int) (p : Nat × Nat) : T :=
  ((places g.depth.kernelAxis.validSize g.height.kernelAxis.validSize
      g.width.kernelAxis.validSize).map fun v =>
    if rAt + p.1 * (g.item.tail.prod : Nat) + (v.2 : Nat) = i then
      ((kernelVisits g.depth.kernel g.height.kernel g.width.kernel g.height.input g.width.input 1
        (windowStart g.depth.kernelAxis g.height.kernelAxis g.width.kernelAxis g.height.input
          g.width.input v.1) 0).map fun u =>
        item (p.2 * (g.inputItem.tail.prod : Nat) + u.1) *
          w (p.1 * (g.weights.tail.prod : Nat) + p.2 * (g.weights.tail.tail.prod : Nat) + u.2)).sum
    else 0).sum

/-- What is added to a cell for an item of the output that starts at `rAt`. -/
def addedTo (item w : Int → T) (rAt i : Int) : T :=
  if 0 ≤ i - rAt ∧ i - rAt < g.item.prod then
    correlation g item w (decode g.item (i - rAt).toNat)
  else 0

end Spec

section Correlation

variable {T : Type} [CommRing T] {g : Conv3DGeometry}

/-- The taps of a window, as the walks of the planes visit them. -/
theorem sum_kernelVisits (item w : Int → T) (o : Nat) (v : Place) :
    ((List.range g.nInputPlane).map fun c : Nat =>
      ((kernelVisits g.depth.kernel g.height.kernel g.width.kernel g.height.input g.width.input 1
          (windowStart g.depth.kernelAxis g.height.kernelAxis g.width.kernelAxis g.height.input
            g.width.input v) 0).map fun u =>
        item (c * (g.inputItem.tail.prod : Nat) + u.1) *
          w (o * (g.weights.tail.prod : Nat) + c * (g.weights.tail.tail.prod : Nat) + u.2)).sum).sum =
      correlation g item w [o, v.1, v.2.1, v.2.2] := by
  rw [correlation, Conv3DGeometry.taps, sum_product]
  refine congrArg List.sum (List.map_congr_left fun c _ => ?_)
  rw [kernelVisits_eq, List.map_map]
  refine congrArg List.sum (List.map_congr_left fun p _ => ?_)
  rw [Function.comp_apply, mul_comm]
  congr 2
  · simp only [Conv3DGeometry.weights, encode, List.tail_cons, List.prod_cons, List.prod_nil]
    push_cast
    ring
  · simp only [Conv3DGeometry.inputItem, Conv3DGeometry.met, encode, List.tail_cons,
      List.prod_cons, List.prod_nil, windowStart, CorrelatedAxis.kernelAxis]
    push_cast
    ring

/-- Nested loops over four extents run through the coordinates. -/
theorem product_coordinates (a b c d : Nat) :
    (List.range a ×ˢ List.range b ×ˢ List.range c ×ˢ List.range d).map
        (fun q => [q.1, q.2.1, q.2.2.1, q.2.2.2]) =
      (List.range [a, b, c, d].prod).map (decode [a, b, c, d]) := by
  have hindex := map_product_range
    (map_product_range (map_product_range (map_range_id d) c) b) a
  have hprod : [a, b, c, d].prod = a * (b * (c * d)) := by simp
  rw [hprod, ← hindex, List.map_map]
  refine List.map_congr_left fun q hq => ?_
  obtain ⟨o, t, r, x⟩ := q
  simp only [List.mem_product, List.mem_range] at hq
  have hbox : InBox [a, b, c, d] [o, t, r, x] := inBox_four.mpr ⟨o, t, r, x, rfl, hq⟩
  rw [← decode_encode hbox]
  congr 1
  simp [encode]

/-- What the planes of an item add to a cell. -/
theorem sum_planeAdded (item w : Int → T) (rAt i : Int) :
    ((List.range g.nOutputPlane ×ˢ List.range g.nInputPlane).map
      (planeAdded g item w rAt i)).sum = addedTo g item w rAt i := by
  have hplane : ∀ o : Nat, ((List.range g.nInputPlane).map fun c : Nat =>
      planeAdded g item w rAt i (o, c)).sum =
      ((List.range g.depth.size ×ˢ List.range g.height.size ×ˢ List.range g.width.size).map
        fun v => if rAt + (encode g.item [o, v.1, v.2.1, v.2.2] : Nat) = i then
          correlation g item w [o, v.1, v.2.1, v.2.2] else 0).sum := by
    intro o
    simp only [planeAdded]
    rw [sum_map_comm, places_eq, List.map_map]
    simp only [CorrelatedAxis.validSize_eq, Int.toNat_natCast]
    refine congrArg List.sum (List.map_congr_left fun v _ => ?_)
    have hcell : rAt + o * (g.item.tail.prod : Nat) +
        (v.1 * (g.height.size * g.width.size) + (v.2.1 * g.width.size + v.2.2) : Nat) =
          rAt + (encode g.item [o, v.1, v.2.1, v.2.2] : Nat) := by
      simp only [Conv3DGeometry.item, encode, List.tail_cons, List.prod_cons, List.prod_nil]
      push_cast
      ring
    simp only [Function.comp_apply, hcell]
    split
    · exact sum_kernelVisits item w o v
    · exact List.sum_eq_zero (by simp)
  rw [sum_product]
  simp only [hplane]
  have hall := sum_product (List.range g.nOutputPlane)
    (List.range g.depth.size ×ˢ List.range g.height.size ×ˢ List.range g.width.size)
    fun q : Nat × Place => if rAt + (encode g.item [q.1, q.2.1, q.2.2.1, q.2.2.2] : Nat) = i then
      correlation g item w [q.1, q.2.1, q.2.2.1, q.2.2.2] else 0
  have hcoordinates := congrArg (fun cs => (cs.map fun c =>
    if rAt + (encode g.item c : Nat) = i then correlation g item w c else 0).sum)
    (product_coordinates g.nOutputPlane g.depth.size g.height.size g.width.size)
  simp only [List.map_map, Function.comp_def] at hcoordinates
  rw [← hall, hcoordinates, addedTo,
    ← sum_range_ite g.item.prod rAt i fun k => correlation g item w (decode g.item k)]
  refine congrArg List.sum (List.map_congr_left fun k hk => ?_)
  have hk : encode g.item (decode g.item k) = k :=
    encode_decode g.item_pos (List.mem_range.mp hk)
  rw [Conv3DGeometry.item] at hk
  rw [Conv3DGeometry.item, hk]

theorem axes_weights (g : Conv3DGeometry) :
    (shapeBuffer g.weights).axes = (g.nOutputPlane, (g.weights.tail.prod : Int)) ::
      g.weights.tail.zip (runningStrides g.weights.tail.reverse 1).reverse :=
  axes_shapeBuffer_cons (by decide : 2 ≤ 4)

variable [DecidableEq T] [Nontrivial T]

/-- The correlations of an item are added to its cells. -/
theorem conv3Dmv_eq {tadIn tadOut : ShapeInfo}
    (hin : tadIn.axes = g.inputItem.zip (runningStrides g.inputItem.reverse 1).reverse)
    (hout : tadOut.shape = g.item) (rAt : Int) (item w memory : Int → T) :
    conv3Dmv tadOut rAt 1 1 ⟨tadIn, item⟩ ⟨shapeBuffer g.weights, w⟩ g.depth.stride
        g.height.stride g.width.stride 'V' 'X' memory =
      .ok fun i => memory i + addedTo g item w rAt i := by
  have hshape : tadIn.shape = g.inputItem := by
    rw [← tadIn.dims_axes, hin]
    exact List.map_fst_zip (by simp)
  have hstride : tadIn.stride = (runningStrides g.inputItem.reverse 1).reverse := by
    rw [← tadIn.map_snd_axes, hin]
    exact List.map_snd_zip (by simp)
  have hwstride : (shapeBuffer g.weights).stride = (g.weights.tail.prod : Int) ::
      (runningStrides g.weights.tail.reverse 1).reverse := by
    rw [← ShapeInfo.map_snd_axes, axes_weights, List.map_cons]
    exact congrArg _ (List.map_snd_zip (by simp))
  have hpositive : tadOut.length ≠ 0 := by
    rw [ShapeInfo.length, hout]
    exact (prod_pos_of_pos g.item_pos).ne'
  have hdepth := g.depth.stride_pos
  have hheight := g.height.stride_pos
  have hwidth := g.width.stride_pos
  have hfits : ((g.depth.input : Int) ≥ g.depth.kernel ∧ (g.height.input : Int) ≥ g.height.kernel ∧
      (g.width.input : Int) ≥ g.width.kernel) ∨ 'V' = 'F' := by
    have h1 := g.depth.kernel_le
    have h2 := g.height.kernel_le
    have h3 := g.width.kernel_le
    exact Or.inl (by omega)
  have hsizes : tadOut.shape.map (fun n : Nat => (n : Int)) =
      [(g.nOutputPlane : Int), g.depth.size, g.height.size, g.width.size] := by
    rw [hout]
    rfl
  have hconvsize : ∀ a : CorrelatedAxis, convsize ⟨a.input, a.kernel, a.stride⟩ 'V' = a.size :=
    fun a => a.validSize_eq
  have hkernel : stridesOf (⟨shapeBuffer g.weights, w⟩ : NDArray T) 4 = 1 := by
    rw [stridesOf, hwstride]
    simp [Conv3DGeometry.weights, runningStrides]
  have hguard : ¬ (tadIn.rank ≠ 4 ∨ (shapeBuffer g.weights).rank ≠ 5 ∨
      ((g.depth.stride : Int) < 1 ∨ (g.height.stride : Int) < 1 ∨ (g.width.stride : Int) < 1) ∨
      ¬ ('V' = 'V' ∨ 'V' = 'F') ∨ ¬ ('X' = 'X' ∨ 'X' = 'C')) := by
    have hrank : tadIn.rank = 4 := by rw [ShapeInfo.rank, hshape]; rfl
    have hwrank : (shapeBuffer g.weights).rank = 5 := by
      rw [ShapeInfo.rank, shape_shapeBuffer]
      rfl
    simp only [hrank, hwrank, ne_eq, not_true_eq_false, true_or, or_false, false_or]
    omega
  have hi0 : stridesOf (⟨tadIn, item⟩ : NDArray T) 0 = (g.inputItem.tail.prod : Nat) := by
    rw [stridesOf, hstride]
    simp [Conv3DGeometry.inputItem, runningStrides]
    ring
  have hk0 : stridesOf (⟨shapeBuffer g.weights, w⟩ : NDArray T) 0 = (g.weights.tail.prod : Nat) := by
    rw [stridesOf, hwstride]
    rfl
  have hk1 : stridesOf (⟨shapeBuffer g.weights, w⟩ : NDArray T) 1 =
      (g.weights.tail.tail.prod : Nat) := by
    rw [stridesOf, hwstride]
    simp [Conv3DGeometry.weights, runningStrides]
    ring
  have hinSizes : sizeAt tadIn.shape 0 = g.nInputPlane ∧ sizeAt tadIn.shape 1 = g.depth.input ∧
      sizeAt tadIn.shape 2 = g.height.input ∧ sizeAt tadIn.shape 3 = g.width.input := by
    rw [hshape]
    exact ⟨rfl, rfl, rfl, rfl⟩
  have hkSizes : sizeAt g.weights 0 = g.nOutputPlane ∧ sizeAt g.weights 1 = g.nInputPlane ∧
      sizeAt g.weights 2 = g.depth.kernel ∧ sizeAt g.weights 3 = g.height.kernel ∧
      sizeAt g.weights 4 = g.width.kernel :=
    ⟨rfl, rfl, rfl, rfl, rfl⟩
  unfold conv3Dmv
  rw [if_neg hguard]
  simp only [isContiguous_of_axes hin, if_true, hkernel, true_or, not_true_eq_false, if_false,
    sizeOf, shape_shapeBuffer, hinSizes, hkSizes, Int.toNat_natCast, hi0, hk0, hk1, hconvsize]
  rw [if_neg (not_not.mpr rfl), if_neg (not_not.mpr hfits), if_neg (not_not.mpr hsizes),
    if_neg (show ¬ (tadOut.length = 0 ∨ (1 : T) = 0) from not_or.mpr ⟨hpositive, one_ne_zero⟩),
    if_neg (show ¬ (1 : T) ≠ 1 from not_not.mpr rfl)]
  refine congrArg Except.ok (funext fun i => ?_)
  have hplane : (g.depth.size : Int) * g.width.size * g.height.size = (g.item.tail.prod : Nat) := by
    simp only [Conv3DGeometry.item, List.tail_cons, List.prod_cons, List.prod_nil]
    push_cast
    ring
  rw [hplane, ← sum_planeAdded]
  -- a plane of the output with a plane of the input
  have hpass : ∀ (p : Nat × Nat) (m : Int → T) (j : Int),
      atPointer (rAt + p.1 * (g.item.tail.prod : Nat)) (conv3D g.depth.kernelAxis
        g.height.kernelAxis g.width.kernelAxis 'V' 'X' 1
        (fun k => item (p.2 * (g.inputItem.tail.prod : Nat) + k)) fun k =>
          w (p.1 * (g.weights.tail.prod : Nat) + p.2 * (g.weights.tail.tail.prod : Nat) + k)) m j =
        m j + planeAdded g item w rAt j p := by
    intro p m j
    refine (atPointer_addAll_apply _ _ _ _ m j).trans ?_
    simp only [mul_one]
    rfl
  exact foldl_add_apply hpass _ memory i

end Correlation

/-! ## The steps of the batch -/

section Steps

variable {T : Type} [CommRing T] (g : Conv3DGeometry)

/-- The cell of an element of the output. -/
def Conv3DGeometry.cellOf (c : List Nat) : Int :=
  dot c g.outputInfo.stride

/-- An item of the input. -/
def itemOf (x : Int → T) (e : Nat) (i : Int) : T :=
  x ((e * g.inputItem.prod : Nat) + i)

/-- What an element starts from. -/
def startOf (bias : List T) (c : List Nat) : T :=
  if g.addsBias then bias.getD (c.headD 0) 0 else 0

/-- What is written before the correlations of an item are added: the bias to the item, or zeros to
the whole output. -/
def ItemWrites (bias : List T) (e : Nat) (i : Int) (v : T) : Prop :=
  if g.addsBias then ∃ c, InBox g.item c ∧ g.cellOf (e :: c) = i ∧ v = bias.getD (c.headD 0) 0
  else v = 0 ∧ ∃ c, InBox g.output c ∧ g.cellOf c = i

/-- What an iteration makes of the memory. -/
def Stepped (x w : Int → T) (bias : List T) (e : Nat) (memory after : Int → T) : Prop :=
  ∃ filled, Loops.Fills (ItemWrites g bias e) memory filled ∧
    after = fun i => filled i + addedTo g (itemOf g x e) w (g.cellOf [e]) i

/-- The strides of a fresh array are not negative. -/
theorem runningStrides_nonneg {ds : List Nat} {s : Int} (hs : 0 ≤ s) :
    ∀ d ∈ runningStrides ds s, 0 ≤ d := by
  induction ds generalizing s with
  | nil => simp [runningStrides]
  | cons d ds ih =>
      rw [runningStrides, List.forall_mem_cons]
      exact ⟨hs, ih (mul_nonneg hs (Int.natCast_nonneg d))⟩

theorem stride_outputInfo_nonneg : ∀ s ∈ g.outputInfo.stride, 0 ≤ s := by
  have hvector : isVectorShape g.output = false := by
    simp [isVectorShape, Conv3DGeometry.output, Conv3DGeometry.item]
  intro s hs
  rw [Conv3DGeometry.outputInfo, freshShapeInfo] at hs
  split at hs
  · rw [← ShapeInfo.map_snd_axes, axes_shapeBuffer, List.map_snd_zip (by simp), calcStrides,
      hvector, if_neg Bool.false_ne_true, List.mem_reverse] at hs
    exact runningStrides_nonneg (by decide) s hs
  · rw [← ShapeInfo.map_snd_axes, axes_shapeBufferFortran, List.map_snd_zip (by simp),
      calcStridesFortran, hvector, if_neg Bool.false_ne_true] at hs
    exact runningStrides_nonneg (by decide) s hs

theorem shape_outputInfo : g.outputInfo.shape = g.output :=
  shape_freshShapeInfo g.order g.output

theorem exists_axes_outputInfo :
    ∃ (s0 s1 : Int) (rest : List (Nat × Int)),
      g.outputInfo.axes = (g.batchSize, s0) :: (g.nOutputPlane, s1) :: rest ∧
        dims rest = g.item.tail ∧ 0 ≤ s0 ∧ 0 ≤ s1 := by
  have hlength : g.outputInfo.stride.length = 5 := by
    rw [ShapeInfo.stride_length, shape_outputInfo]
    rfl
  have hnonneg := stride_outputInfo_nonneg g
  have haxes : g.outputInfo.axes = g.output.zip g.outputInfo.stride := by
    rw [ShapeInfo.axes, shape_outputInfo]
  rcases hstride : g.outputInfo.stride with _ | ⟨s0, _ | ⟨s1, rest⟩⟩
  · simp [hstride] at hlength
  · simp [hstride] at hlength
  · rw [hstride] at haxes hnonneg hlength
    have hrest : rest.length = 3 := by simpa using hlength
    exact ⟨s0, s1, g.item.tail.zip rest, haxes, List.map_fst_zip hrest.ge,
      hnonneg s0 (by simp), hnonneg s1 (by simp)⟩

theorem positive_outputInfo : g.outputInfo.Positive := by
  intro d hd
  rw [shape_outputInfo] at hd
  exact g.output_pos d hd

end Steps

/-- Filling an array that starts at a pointer. -/
theorem atArray_fills {T : Type} (hpos : info.Positive) (hews : info.HonestEws) (pointer : Int)
    (value : T) (memory : Int → T) :
    ∃ after, atArray pointer (Loops.assign value info) memory = .ok after ∧
      Loops.Fills (fun i v => v = value ∧ ∃ k < info.length, pointer + offsetAt info.axes k = i)
        memory after := by
  obtain ⟨after, hassign, hfills⟩ := Loops.assign_fills hpos hews value fun i => memory (pointer + i)
  have hcell : ∀ i k, offsetAt info.axes k = i - pointer ↔ pointer + offsetAt info.axes k = i := by
    intro i k
    omega
  refine ⟨fun i => after (i - pointer), ?_, fun i hi => ?_, fun i v hv hall => ?_⟩
  · rw [atArray, hassign]
  · show after (i - pointer) = memory i
    rw [hfills.frame (i - pointer) fun v hv => hi v ?_]
    · rw [add_sub_cancel]
    · simpa only [hcell] using hv
  · refine hfills.value (i - pointer) v ?_ fun u hu => hall u ?_
    · simpa only [hcell] using hv
    · simpa only [hcell] using hu

theorem honestEws_of_neg (h : info.elementWiseStride = -1) : info.HonestEws := by
  intro hpositive
  rw [h] at hpositive
  exact absurd hpositive (by decide)

section Steps

variable {T : Type} [CommRing T] {g : Conv3DGeometry}

/-- The bias is written to the planes of an item. -/
theorem fillExamples_fills {tadOut : ShapeInfo} {s0 s1 : Int} {rest : List (Nat × Int)}
    (hrest : dims rest = g.item.tail) (hs1 : 0 ≤ s1)
    (haxes : tadOut.axes = (g.nOutputPlane, s1) :: rest)
    (houtput : g.outputInfo.axes = (g.batchSize, s0) :: (g.nOutputPlane, s1) :: rest)
    (hews : tadOut.elementWiseStride = -1) {bias : List T} (hbias : bias.length = g.nOutputPlane)
    (e : Nat) (memory : Int → T) :
    ∃ filled, fillExamples tadOut (g.cellOf [e]) bias memory = .ok filled ∧
      Loops.Fills (fun i v => ∃ c, InBox g.item c ∧ g.cellOf (e :: c) = i ∧
        v = bias.getD (c.headD 0) 0) memory filled := by
  have hshape : tadOut.shape = g.item := by
    rw [← tadOut.dims_axes, haxes, dims_cons, hrest]
    rfl
  have hpos : tadOut.Positive := by
    intro d hd
    rw [hshape] at hd
    exact g.item_pos d hd
  have hlong : 2 < tadOut.rank := by
    rw [ShapeInfo.rank, hshape]
    exact (by decide : 2 < 4)
  have hstride : g.outputInfo.stride = s0 :: s1 :: rest.map Prod.snd := by
    rw [← ShapeInfo.map_snd_axes, houtput]
    rfl
  obtain ⟨oB, hexamples, hoB, hslot⟩ := exampleArrays_eq hpos (honestEws_of_neg hews) hlong haxes hs1
  have hoBshape : oB.shape = g.item.tail := by
    rw [← oB.dims_axes, hoB, hrest]
  have hoBpos : oB.Positive := by
    intro d hd
    rw [hoBshape] at hd
    exact g.item_pos d (List.mem_of_mem_tail hd)
  obtain ⟨filled, hrun, hfills⟩ := @Loops.foldlM_fills T (T × Int) Conv3DFailure _ _
    (bias.zip ((List.range g.nOutputPlane).map fun o : Nat => o * s1))
    (fun p _ m => atArray_fills hoBpos (honestEws_of_neg hslot) (g.cellOf [e] + p.2) p.1 m) memory
  refine ⟨filled, ?_, hfills.congr fun i v => ?_⟩
  · rw [fillExamples, hexamples]
    exact hrun
  · have hcell : ∀ o k, g.cellOf [e] + o * s1 + offsetAt oB.axes k =
        g.cellOf (e :: o :: decode g.item.tail k) := by
      intro o k
      simp only [Conv3DGeometry.cellOf, hstride, dot_cons, dot_nil_left, nsmul_eq_mul, add_zero,
        offsetAt_eq_dot, hoB, hrest]
      ring
    have hzip : bias.zip ((List.range g.nOutputPlane).map fun o : Nat => o * s1) =
        (List.range g.nOutputPlane).map fun o : Nat => (bias.getD o 0, o * s1) := by
      have hlist : bias = (List.range g.nOutputPlane).map fun o => bias.getD o 0 := by
        apply List.ext_getElem
        · rw [List.length_map, List.length_range, hbias]
        · intro o ho _
          rw [List.getElem_map, List.getElem_range, List.getD_eq_getElem?_getD,
            List.getElem?_eq_getElem ho, Option.getD_some]
      rw [← List.zip_map', ← hlist]
    rw [hzip]
    simp only [List.mem_map, List.mem_range, exists_exists_and_eq_and, hcell]
    constructor
    · rintro ⟨o, ho, hv, k, hk, hi⟩
      rw [ShapeInfo.length, hoBshape] at hk
      have hbox : InBox g.item.tail (decode g.item.tail k) :=
        inBox_decode (fun d hd => g.item_pos d (List.mem_of_mem_tail hd)) hk
      exact ⟨o :: decode g.item.tail k, List.Forall₂.cons ho hbox, hi, hv⟩
    · rintro ⟨c, hc, hi, hv⟩
      cases hc with
      | @cons _ o _ c ho hc =>
          have hc : InBox g.item.tail c := hc
          refine ⟨o, ho, hv, encode g.item.tail c, ?_, ?_⟩
          · rw [ShapeInfo.length, hoBshape]
            exact encode_lt hc
          · rw [decode_encode hc]
            exact hi

/-- Zeros are written to the whole output. -/
theorem assign_output (g : Conv3DGeometry) (memory : Int → T) :
    ∃ filled, atArray 0 (Loops.assign 0 g.outputInfo) memory = .ok filled ∧
      Loops.Fills (fun i v => v = 0 ∧ ∃ c, InBox g.output c ∧ g.cellOf c = i) memory filled := by
  obtain ⟨filled, hassign, hfills⟩ := atArray_fills (positive_outputInfo g)
    (honestEws_freshShapeInfo g.order g.output_pos) 0 (0 : T) memory
  refine ⟨filled, hassign, hfills.congr fun i v => and_congr_right fun _ => ?_⟩
  have hbij := bijOn_decode g.output_pos
  have hcell : ∀ k, offsetAt g.outputInfo.axes k = g.cellOf (decode g.output k) := by
    intro k
    rw [offsetAt_eq_dot, ShapeInfo.dims_axes, ShapeInfo.map_snd_axes, shape_outputInfo,
      Conv3DGeometry.cellOf]
  have hlength : g.outputInfo.length = g.output.prod := by
    rw [ShapeInfo.length, shape_outputInfo]
  simp only [zero_add, hcell, hlength]
  constructor
  · rintro ⟨k, hk, hi⟩
    exact ⟨decode g.output k, hbij.mapsTo hk, hi⟩
  · rintro ⟨c, hc, hi⟩
    obtain ⟨k, hk, rfl⟩ := hbij.surjOn hc
    exact ⟨k, hk, hi⟩

variable [DecidableEq T] [Nontrivial T]

/-- A call runs through the items. -/
theorem call_steps (g : Conv3DGeometry) (x w : Int → T) {bias : List T}
    (hbias : bias.length = g.nOutputPlane) :
    ∃ step : Nat → (Int → T) → Int → T,
      (∀ e < g.batchSize, ∀ m, Stepped g x w bias e m (step e m)) ∧
      ∀ memory, g.call x w bias memory =
        .ok ((List.range g.batchSize).foldl (fun m e => step e m) memory) := by
  obtain ⟨s0, s1, rest, houtput, hrest, hs0, hs1⟩ := exists_axes_outputInfo g
  have hinput := @axes_shapeBuffer_cons g.batchSize g.inputItem (by decide : 2 ≤ 4)
  have hinPos : (shapeBuffer g.input).Positive := by
    intro d hd
    rw [shape_shapeBuffer] at hd
    exact g.input_pos d hd
  have hinRank : (shapeBuffer g.input).rank = 5 := by
    rw [ShapeInfo.rank, shape_shapeBuffer]
    rfl
  have houtRank : g.outputInfo.rank = 5 := by
    rw [ShapeInfo.rank, shape_outputInfo]
    rfl
  obtain ⟨tadIn, hbatchIn, htadIn, -⟩ := exampleArrays_eq hinPos
    (honestEws_shapeBuffer g.input_pos) (by omega) hinput (Int.natCast_nonneg _)
  obtain ⟨tadOut, hbatchOut, htadOut, hslot⟩ := exampleArrays_eq (positive_outputInfo g)
    (honestEws_freshShapeInfo g.order g.output_pos) (by omega) houtput hs0
  have hstart : ∀ e : Nat, g.cellOf [e] = e * s0 := by
    intro e
    rw [Conv3DGeometry.cellOf, ← ShapeInfo.map_snd_axes, houtput, List.map_cons, dot_cons,
      dot_nil_left, nsmul_eq_mul, add_zero]
  have htadOutShape : tadOut.shape = g.item := by
    rw [← tadOut.dims_axes, htadOut, dims_cons, hrest]
    rfl
  have hiteration : ∀ (e : Nat) (m : Int → T), ∃ after,
      conv3dStep g.arguments ⟨shapeBuffer g.input, x⟩ ⟨shapeBuffer g.weights, w⟩
        (if g.addsBias then some bias else none) g.outputInfo tadIn tadOut
        (e * (g.inputItem.prod : Int)) (e * s0) m = .ok after ∧
      Stepped g x w bias e m after := by
    intro e m
    have hfill : ∃ filled, (match (if g.addsBias then some bias else none : Option (List T)) with
        | some values => fillExamples tadOut (e * s0) values m
        | none => atArray 0 (Loops.assign 0 g.outputInfo) m) = .ok filled ∧
        Loops.Fills (ItemWrites g bias e) m filled := by
      unfold ItemWrites
      by_cases hbiasUsed : g.addsBias = true
      · simp only [hbiasUsed, if_true]
        rw [← hstart]
        exact fillExamples_fills hrest hs1 htadOut houtput hslot hbias e m
      · simp only [hbiasUsed, if_false, Bool.false_eq_true]
        exact assign_output g m
    obtain ⟨filled, hfilled, hfills⟩ := hfill
    refine ⟨_, ?_, filled, hfills, rfl⟩
    unfold conv3dStep
    simp only [hfilled]
    have hitem : (fun i => x (e * (g.inputItem.prod : Int) + i)) = itemOf g x e := by
      funext i
      rw [itemOf, Nat.cast_mul]
    rw [hitem, hstart]
    exact conv3Dmv_eq htadIn htadOutShape (e * s0) (itemOf g x e) w filled
  choose step hstep using hiteration
  refine ⟨step, fun e _ m => (hstep e m).2, fun memory => ?_⟩
  have hcondition : (conv3dCondition g.arguments g.input g.weights g.output).holds = true := by
    simp only [conv3dCondition, decide_eq_true_eq]
    exact ⟨rfl, rfl, g.depth.size_eq.symm, g.height.size_eq.symm, g.width.size_eq.symm⟩
  have hbiasList : (if g.arguments.biasUsed ≠ 0 then (if g.given then some bias else none)
      else none) = if g.addsBias then some bias else none := by
    simp only [Conv3DGeometry.addsBias, Conv3DGeometry.arguments]
    by_cases hused : g.biasUsed = 0 <;> simp [hused]
  have hzip : ((List.range g.batchSize).map fun e : Nat => e * (g.inputItem.prod : Int)).zip
      ((List.range g.batchSize).map fun e : Nat => e * s0) =
      (List.range g.batchSize).map fun e : Nat => (e * (g.inputItem.prod : Int), e * s0) :=
    List.zip_map'
  unfold Conv3DGeometry.call conv3d
  rw [if_neg (not_not.mpr hinRank), if_neg (by simp [Conv3DGeometry.arguments])]
  simp only [shape_shapeBuffer, shape_outputInfo, Ops.requireTrue, hcondition, if_true, hbiasList,
    hbatchIn, hbatchOut]
  rw [hzip, List.foldlM_map]
  refine Eq.trans ?_ (List.foldlM_pure (m := Except Conv3DFailure))
  congr 1
  funext m e
  exact (hstep e m).1

end Steps

/-! ## When the output is right -/

section Right

variable (T : Type) [CommRing T] [DecidableEq T] (g : Conv3DGeometry)

/-- Whatever the output held before, every element of it is the correlation of its item, with the
bias if it is used. -/
def Conv3DRight : Prop :=
  ∀ (x w : Int → T) (bias : List T) (memory : Int → T), bias.length = g.nOutputPlane →
    ∃ after : Int → T, g.call x w bias memory = .ok after ∧
      ∀ b < g.batchSize, ∀ o < g.nOutputPlane, ∀ t < g.depth.size, ∀ y < g.height.size,
        ∀ u < g.width.size, after (g.cellOf [b, o, t, y, u]) =
          (if g.addsBias then bias.getD o 0 else 0) +
            (g.taps.map fun p => w (encode g.weights [o, p.1, p.2.1, p.2.2.1, p.2.2.2]) *
              x (encode g.input (b :: g.met (t, y, u) p))).sum

/-- The elements of an item of the output lie one behind the other in C order. -/
def LiesInCOrder : Prop :=
  ∀ k < g.item.prod, offsetAt g.outputInfo.axes.tail k = k

instance : Decidable (LiesInCOrder g) :=
  inferInstanceAs (Decidable (∀ k < g.item.prod, offsetAt g.outputInfo.axes.tail k = k))

end Right

section Cells

variable {T : Type} [CommRing T] {g : Conv3DGeometry}

/-- An output in C order lies in C order. -/
theorem liesInCOrder_of_order (h : g.order = 'c') : LiesInCOrder g := by
  have haxes : g.outputInfo.axes.tail = g.item.zip (runningStrides g.item.reverse 1).reverse := by
    rw [Conv3DGeometry.outputInfo, freshShapeInfo, if_pos h]
    exact congrArg List.tail (@axes_shapeBuffer_cons g.batchSize g.item (by decide : 2 ≤ 4))
  have hvector : isVectorShape g.item = false := by
    simp [isVectorShape, Conv3DGeometry.item]
  intro k hk
  rw [haxes]
  have hcell := elementOffset_calcStrides hk
  rw [calcStrides, hvector, if_neg Bool.false_ne_true, elementOffset, if_neg Bool.false_ne_true,
    ← offsetAt_eq_dot] at hcell
  exact hcell

theorem cellOf_cons (g : Conv3DGeometry) (e : Nat) (c : List Nat) :
    g.cellOf (e :: c) = g.cellOf [e] + dot c (g.outputInfo.axes.tail.map Prod.snd) := by
  obtain ⟨s0, s1, rest, houtput, -⟩ := exists_axes_outputInfo g
  simp only [Conv3DGeometry.cellOf, ← ShapeInfo.map_snd_axes, houtput, List.map_cons, List.tail_cons,
    dot_cons, dot_nil_left, add_zero]

variable {c : List Nat}

theorem cellOf_inj {c' : List Nat} (hc : InBox g.output c) (hc' : InBox g.output c')
    (h : g.cellOf c = g.cellOf c') : c = c' :=
  injOn_freshShapeInfo g.order g.output_pos hc hc' h

theorem dims_tail_outputInfo (g : Conv3DGeometry) : dims g.outputInfo.axes.tail = g.item := by
  rw [dims, List.map_tail]
  exact congrArg List.tail (g.outputInfo.dims_axes.trans (shape_outputInfo g))

/-- In C order the cells of an item follow its start. -/
theorem LiesInCOrder.cellOf_cons (h : LiesInCOrder g) (e : Nat) (hc : InBox g.item c) :
    g.cellOf (e :: c) = g.cellOf [e] + (encode g.item c : Nat) := by
  have hcell := h (encode g.item c) (encode_lt hc)
  rw [offsetAt_eq_dot, dims_tail_outputInfo, decode_encode hc] at hcell
  rw [Convolutions.cellOf_cons, hcell]

/-- What is added to the cells that follow the start of an item. -/
theorem addedTo_encode (item w : Int → T) (rAt : Int) (hc : InBox g.item c) :
    addedTo g item w rAt (rAt + (encode g.item c : Nat)) = correlation g item w c := by
  have hlt := encode_lt hc
  rw [addedTo, if_pos (by omega), add_sub_cancel_left, Int.toNat_natCast, decode_encode hc]

/-- Nothing is added to a cell if the correlation there is zero. -/
theorem addedTo_eq_zero {item w : Int → T} {rAt i : Int}
    (h : ∀ c, InBox g.item c → rAt + (encode g.item c : Nat) = i → correlation g item w c = 0) :
    addedTo g item w rAt i = 0 := by
  rw [addedTo]
  split
  next hin =>
      have hlt : (i - rAt).toNat < g.item.prod := by omega
      refine h _ (inBox_decode g.item_pos hlt) ?_
      rw [encode_decode g.item_pos hlt]
      omega
  next => rfl

variable {x w : Int → T} {bias : List T} {e : Nat} {memory after : Int → T}

variable (h : Stepped g x w bias e memory after)

include h

/-- An iteration makes its own item right. -/
theorem Stepped.own (hC : LiesInCOrder g) (he : e < g.batchSize) (hc : InBox g.item c) :
    after (g.cellOf (e :: c)) = startOf g bias c + correlation g (itemOf g x e) w c := by
  obtain ⟨filled, hfills, rfl⟩ := h
  show filled _ + addedTo g _ w _ _ = _
  congr 1
  · apply hfills.value
    · unfold ItemWrites startOf
      by_cases hbias : g.addsBias = true
      · simp only [hbias, if_true]
        exact ⟨c, hc, rfl, rfl⟩
      · simp only [hbias, if_false, Bool.false_eq_true]
        exact ⟨trivial, e :: c, List.Forall₂.cons he hc, rfl⟩
    · intro u hu
      unfold ItemWrites at hu
      unfold startOf
      by_cases hbias : g.addsBias = true
      · simp only [hbias, if_true] at hu ⊢
        obtain ⟨c', hc', hcell, rfl⟩ := hu
        have hsame := cellOf_inj (List.Forall₂.cons he hc') (List.Forall₂.cons he hc) hcell
        rw [(List.cons.inj hsame).2]
      · simp only [hbias, if_false, Bool.false_eq_true] at hu ⊢
        exact hu.1
  · rw [hC.cellOf_cons e hc, addedTo_encode _ w _ hc]

/-- An iteration that writes the bias leaves the other items as they are. -/
theorem Stepped.other (hC : LiesInCOrder g) (hbias : g.addsBias = true) (he : e < g.batchSize)
    {e' : Nat} (he' : e' < g.batchSize) (hne : e' ≠ e) (hc : InBox g.item c) :
    after (g.cellOf (e' :: c)) = memory (g.cellOf (e' :: c)) := by
  have hcell : ∀ c', InBox g.item c' → g.cellOf (e :: c') ≠ g.cellOf (e' :: c) := by
    intro c' hc' heq
    have hsame := cellOf_inj (List.Forall₂.cons he hc') (List.Forall₂.cons he' hc) heq
    exact hne (List.cons.inj hsame).1.symm
  obtain ⟨filled, hfills, rfl⟩ := h
  show filled _ + addedTo g _ w _ _ = _
  rw [addedTo_eq_zero fun c' hc' heq => absurd ((hC.cellOf_cons e hc').trans heq) (hcell c' hc'),
    add_zero]
  apply hfills.frame
  intro v hv
  unfold ItemWrites at hv
  rw [if_pos hbias] at hv
  obtain ⟨c', hc', heq, -⟩ := hv
  exact hcell c' hc' heq

/-- Zeros stay where nothing is added, and are written to the item that is filled. -/
theorem Stepped.zero (hbias : ∀ o, bias.getD o 0 = 0) {i : Int}
    (hadded : addedTo g (itemOf g x e) w (g.cellOf [e]) i = 0)
    (hzero : memory i = 0 ∨ ∃ v, ItemWrites g bias e i v) : after i = 0 := by
  obtain ⟨filled, hfills, rfl⟩ := h
  show filled i + addedTo g _ w _ i = 0
  have hvalue : ∀ v, ItemWrites g bias e i v → v = 0 := by
    intro v hv
    unfold ItemWrites at hv
    split at hv
    · obtain ⟨c, -, -, rfl⟩ := hv
      exact hbias _
    · exact hv.1
  rw [hadded, add_zero]
  by_cases hwritten : ∃ v, ItemWrites g bias e i v
  · obtain ⟨v, hv⟩ := hwritten
    exact hfills.value i 0 (hvalue v hv ▸ hv) hvalue
  · rw [hfills.frame i fun v hv => hwritten ⟨v, hv⟩]
    exact hzero.resolve_right hwritten

end Cells

section Decision

variable {T : Type} [CommRing T] {g : Conv3DGeometry}

/-- The window sum over the elements of the input. -/
theorem correlation_itemOf (x w : Int → T) (b o t y u : Nat) :
    correlation g (itemOf g x b) w [o, t, y, u] =
      (g.taps.map fun p => w (encode g.weights [o, p.1, p.2.1, p.2.2.1, p.2.2.2]) *
        x (encode g.input (b :: g.met (t, y, u) p))).sum := by
  rw [correlation]
  refine congrArg List.sum (List.map_congr_left fun p _ => ?_)
  rw [itemOf, Conv3DGeometry.input, encode, Nat.cast_add]

variable {o t y u : Nat}

/-- What a tap meets lies in the item. -/
theorem inBox_met (hc : InBox g.item [o, t, y, u]) {p : Nat × Place} (hp : p ∈ g.taps) :
    InBox g.inputItem (g.met (t, y, u) p) := by
  obtain ⟨_, _, _, _, heq, -, ht, hy, hu⟩ := inBox_four.mp hc
  simp only [List.cons.injEq, and_true] at heq
  obtain ⟨-, rfl, rfl, rfl⟩ := heq
  obtain ⟨c, kz, ky, kx⟩ := p
  simp only [Conv3DGeometry.taps, List.mem_product, List.mem_range] at hp
  exact inBox_four.mpr ⟨_, _, _, _, rfl, hp.1, g.depth.window_lt ht hp.2.1,
    g.height.window_lt hy hp.2.2.1, g.width.window_lt hu hp.2.2.2⟩

theorem nodup_taps (g : Conv3DGeometry) : g.taps.Nodup :=
  List.nodup_range.product (List.nodup_range.product (List.nodup_range.product List.nodup_range))

theorem zero_mem_taps (g : Conv3DGeometry) : (0, 0, 0, 0) ∈ g.taps := by
  simp [Conv3DGeometry.taps, g.nInputPlane_pos, g.depth.kernel_pos, g.height.kernel_pos,
    g.width.kernel_pos]

/-- A tap of a plane of the weights. -/
theorem inBox_weights (ho : o < g.nOutputPlane) {p : Nat × Place} (hp : p ∈ g.taps) :
    InBox g.weights [o, p.1, p.2.1, p.2.2.1, p.2.2.2] := by
  obtain ⟨c, kz, ky, kx⟩ := p
  simp only [Conv3DGeometry.taps, List.mem_product, List.mem_range] at hp
  exact List.Forall₂.cons ho (inBox_four.mpr ⟨_, _, _, _, rfl, hp⟩)

/-- Windows that meet the same element with their first tap are the same. -/
theorem place_eq_of_met {v v' : Place} (h : g.met v (0, 0, 0, 0) = g.met v' (0, 0, 0, 0)) :
    v = v' := by
  obtain ⟨t, y, u⟩ := v
  obtain ⟨t', y', u'⟩ := v'
  simp only [Conv3DGeometry.met, add_zero, List.cons.injEq, and_true, true_and] at h
  obtain ⟨ht, hy, hu⟩ := h
  rw [Nat.eq_of_mul_eq_mul_right g.depth.stride_pos ht,
    Nat.eq_of_mul_eq_mul_right g.height.stride_pos hy,
    Nat.eq_of_mul_eq_mul_right g.width.stride_pos hu]

/-- Of an item and weights with one element each, the correlation has one element. -/
theorem correlation_single (hc : InBox g.item [o, t, y, u]) {c : List Nat} (hc' : InBox g.item c) :
    correlation g (Pi.single (encode g.inputItem (g.met (t, y, u) (0, 0, 0, 0)) : Int) (1 : T))
        (Pi.single (encode g.weights [o, 0, 0, 0, 0] : Int) 1) c =
      if c = [o, t, y, u] then 1 else 0 := by
  obtain ⟨o', t', y', u', rfl, ho', -⟩ := inBox_four.mp hc'
  have ho : o < g.nOutputPlane := by
    cases hc with
    | cons ho _ => exact ho
  have hzero := zero_mem_taps g
  have hweight : ∀ p ∈ g.taps, ¬ (o' = o ∧ p = (0, 0, 0, 0)) →
      (Pi.single (encode g.weights [o, 0, 0, 0, 0] : Int) (1 : T) : Int → T)
        (encode g.weights [o', p.1, p.2.1, p.2.2.1, p.2.2.2]) = 0 := by
    intro p hp hne
    refine Pi.single_eq_of_ne (fun heq => hne ?_) 1
    have hsame := encode_inj (inBox_weights ho' hp) (inBox_weights ho hzero) (Int.ofNat.inj heq)
    simp only [List.cons.injEq, and_true] at hsame
    exact ⟨hsame.1, Prod.ext hsame.2.1 (Prod.ext hsame.2.2.1 (Prod.ext hsame.2.2.2.1 hsame.2.2.2.2))⟩
  rw [correlation, sum_map_single (nodup_taps g) hzero fun p hp hne => by
    rw [hweight p hp fun h => hne h.2, zero_mul]]
  by_cases hsame : [o', t', y', u'] = [o, t, y, u]
  · rw [if_pos hsame]
    simp only [List.cons.injEq, and_true] at hsame
    obtain ⟨rfl, rfl, rfl, rfl⟩ := hsame
    rw [Pi.single_eq_same, Pi.single_eq_same, one_mul]
  · rw [if_neg hsame]
    by_cases hplane : o' = o
    · have hother : (Pi.single (encode g.inputItem (g.met (t, y, u) (0, 0, 0, 0)) : Int) (1 : T) :
          Int → T) (encode g.inputItem (g.met (t', y', u') (0, 0, 0, 0))) = 0 := by
        refine Pi.single_eq_of_ne (fun heq => hsame ?_) 1
        have hmet := encode_inj (inBox_met hc' hzero) (inBox_met hc hzero) (Int.ofNat.inj heq)
        have hplace := place_eq_of_met hmet
        simp only [Prod.mk.injEq] at hplace
        rw [hplane, hplace.1, hplace.2.1, hplace.2.2]
      rw [hother, mul_zero]
    · rw [hweight _ hzero fun h => hplane h.1, zero_mul]

/-- An element of the first item is not met in the others. -/
theorem correlation_other (hc : InBox g.item [o, t, y, u]) {e : Nat} (he : 0 < e) (w : Int → T)
    {c : List Nat} (hc' : InBox g.item c) :
    correlation g (itemOf g (Pi.single (encode g.inputItem (g.met (t, y, u) (0, 0, 0, 0)) : Int)
      (1 : T)) e) w c = 0 := by
  obtain ⟨o', t', y', u', rfl, -⟩ := inBox_four.mp hc'
  refine List.sum_eq_zero fun v hv => ?_
  obtain ⟨p, hp, rfl⟩ := List.mem_map.mp hv
  have hlt := encode_lt (inBox_met hc (zero_mem_taps g))
  have hle : g.inputItem.prod ≤ e * g.inputItem.prod := Nat.le_mul_of_pos_left _ he
  rw [itemOf, Pi.single_eq_of_ne (by omega), mul_zero]

end Decision

section Decision

variable {T : Type} [CommRing T] {g : Conv3DGeometry}

/-- The items before a place of the batch are right. -/
theorem items_right (hC : LiesInCOrder g) (hcase : g.addsBias = true ∨ g.batchSize = 1)
    {x w : Int → T} {bias : List T} {step : Nat → (Int → T) → Int → T}
    (hstep : ∀ e < g.batchSize, ∀ m, Stepped g x w bias e m (step e m)) (memory : Int → T) {n : Nat}
    (hn : n ≤ g.batchSize) {e : Nat} (he : e < n) {c : List Nat} (hc : InBox g.item c) :
    (List.range n).foldl (fun m e => step e m) memory (g.cellOf (e :: c)) =
      startOf g bias c + correlation g (itemOf g x e) w c := by
  induction n with
  | zero => exact absurd he (Nat.not_lt_zero e)
  | succ n ih =>
      rw [List.range_succ, List.foldl_append, List.foldl_cons, List.foldl_nil]
      have hlast := hstep n hn ((List.range n).foldl (fun m e => step e m) memory)
      by_cases hsame : e = n
      · rw [hsame]
        exact hlast.own hC hn hc
      · have hbefore : e < n := by omega
        have hbias : g.addsBias = true := hcase.resolve_right (by omega)
        rw [hlast.other hC hbias hn (hbefore.trans hn) hsame hc]
        exact ih (by omega) hbefore

variable [DecidableEq T] [Nontrivial T]

/-- If the output is right, an element of the first item that is one is one. -/
theorem Conv3DRight.single (h : Conv3DRight T g) {o t y u : Nat}
    (hc : InBox g.item [o, t, y, u]) :
    ∃ (x w : Int → T) (bias : List T) (step : Nat → (Int → T) → Int → T),
      x = Pi.single (encode g.inputItem (g.met (t, y, u) (0, 0, 0, 0)) : Int) 1 ∧
      w = Pi.single (encode g.weights [o, 0, 0, 0, 0] : Int) 1 ∧ (∀ o, bias.getD o 0 = 0) ∧
      (∀ e < g.batchSize, ∀ m, Stepped g x w bias e m (step e m)) ∧
      (List.range g.batchSize).foldl (fun m e => step e m) (fun _ => 0)
        (g.cellOf [0, o, t, y, u]) = 1 := by
  have hzeros : ∀ o, (List.replicate g.nOutputPlane (0 : T)).getD o 0 = 0 := by
    intro o
    rw [List.getD_eq_getElem?_getD, List.getElem?_replicate]
    split <;> rfl
  obtain ⟨step, hstep, hcall⟩ := call_steps g
    (Pi.single (encode g.inputItem (g.met (t, y, u) (0, 0, 0, 0)) : Int) (1 : T))
    (Pi.single (encode g.weights [o, 0, 0, 0, 0] : Int) 1)
    (List.length_replicate (n := g.nOutputPlane) (a := (0 : T)))
  refine ⟨_, _, _, step, rfl, rfl, hzeros, hstep, ?_⟩
  obtain ⟨after, hafter, hvalue⟩ := h _ _ _ (fun _ => 0)
    (List.length_replicate (n := g.nOutputPlane) (a := (0 : T)))
  rw [hcall, Except.ok.injEq] at hafter
  obtain ⟨_, _, _, _, heq, ho, ht, hy, hu⟩ := inBox_four.mp hc
  simp only [List.cons.injEq, and_true] at heq
  obtain ⟨rfl, rfl, rfl, rfl⟩ := heq
  have hfirst : itemOf g (Pi.single (encode g.inputItem (g.met (t, y, u) (0, 0, 0, 0)) : Int)
      (1 : T)) 0 = Pi.single (encode g.inputItem (g.met (t, y, u) (0, 0, 0, 0)) : Int) 1 := by
    funext i
    rw [itemOf, zero_mul, Nat.cast_zero, zero_add]
  rw [hafter, hvalue 0 g.batchSize_pos o ho t ht y hy u hu, ← correlation_itemOf, hfirst,
    correlation_single hc hc, if_pos rfl, hzeros, ite_self, zero_add]

/-- A right output lies in C order. -/
theorem Conv3DRight.liesInCOrder (h : Conv3DRight T g) : LiesInCOrder g := by
  intro k hk
  by_contra hne
  obtain ⟨o, t, y, u, hdecode, hbounds⟩ := inBox_four.mp (inBox_decode g.item_pos hk)
  have hc : InBox g.item [o, t, y, u] := inBox_four.mpr ⟨o, t, y, u, rfl, hbounds⟩
  have hk : encode g.item [o, t, y, u] = k := by
    rw [← hdecode, encode_decode g.item_pos hk]
  have hstart : g.cellOf [0] = 0 := by
    obtain ⟨s0, s1, rest, houtput, -⟩ := exists_axes_outputInfo g
    rw [Conv3DGeometry.cellOf, ← ShapeInfo.map_snd_axes, houtput, List.map_cons, dot_cons,
      zero_smul, dot_nil_left, zero_add]
  have hcell : g.cellOf [0, o, t, y, u] ≠ k := by
    rw [cellOf_cons, hstart, zero_add]
    rwa [offsetAt_eq_dot, dims_tail_outputInfo, hdecode] at hne
  obtain ⟨x, w, bias, step, rfl, rfl, hbias, hstep, hvalue⟩ := h.single hc
  -- what is added for the element goes to another cell
  have hadded : ∀ e, addedTo g (itemOf g (Pi.single (encode g.inputItem
      (g.met (t, y, u) (0, 0, 0, 0)) : Int) (1 : T)) e)
      (Pi.single (encode g.weights [o, 0, 0, 0, 0] : Int) 1) (g.cellOf [e])
        (g.cellOf [0, o, t, y, u]) = 0 := by
    intro e
    apply addedTo_eq_zero
    intro c hc' heq
    rcases Nat.eq_zero_or_pos e with rfl | he
    · have hother : c ≠ [o, t, y, u] := by
        rintro rfl
        rw [hstart, zero_add, hk] at heq
        exact hcell heq.symm
      have hfirst := correlation_single (T := T) hc hc'
      rw [if_neg hother] at hfirst
      rw [← hfirst]
      congr 1
      funext i
      rw [itemOf, zero_mul, Nat.cast_zero, zero_add]
    · exact correlation_other hc he _ hc'
  have hzero : ∀ n ≤ g.batchSize, (List.range n).foldl (fun m e => step e m) (fun _ => 0)
      (g.cellOf [0, o, t, y, u]) = 0 := by
    intro n hn
    induction n with
    | zero => rfl
    | succ n ih =>
        rw [List.range_succ, List.foldl_append, List.foldl_cons, List.foldl_nil]
        exact (hstep n hn _).zero hbias (hadded n) (Or.inl (ih (by omega)))
  rw [hzero g.batchSize (Nat.le_refl _)] at hvalue
  exact zero_ne_one hvalue

/-- Without the bias an item undoes what the ones before it left. -/
theorem Conv3DRight.bias_or_one (h : Conv3DRight T g) :
    g.addsBias = true ∨ g.batchSize = 1 := by
  by_contra hnot
  obtain ⟨hbias, hbatch⟩ := not_or.mp hnot
  obtain ⟨n, hn⟩ := Nat.exists_eq_add_one.mpr g.batchSize_pos
  have hc : InBox g.item [0, 0, 0, 0] := inBox_four.mpr
    ⟨0, 0, 0, 0, rfl, g.nOutputPlane_pos, Nat.succ_pos _, Nat.succ_pos _, Nat.succ_pos _⟩
  obtain ⟨x, w, bias, step, rfl, rfl, hzeros, hstep, hvalue⟩ := h.single hc
  rw [hn, List.range_succ, List.foldl_append, List.foldl_cons, List.foldl_nil] at hvalue
  have hwritten : ItemWrites g bias n (g.cellOf [0, 0, 0, 0, 0]) 0 := by
    unfold ItemWrites
    rw [if_neg hbias]
    exact ⟨rfl, _, List.Forall₂.cons g.batchSize_pos hc, rfl⟩
  rw [(hstep n (by omega) _).zero hzeros
    (addedTo_eq_zero fun c hc' _ => correlation_other hc (by omega) _ hc')
    (Or.inr ⟨0, hwritten⟩)] at hvalue
  exact zero_ne_one hvalue

/-- The output is right exactly if it lies in C order, and the bias is used or the batch has one
item. -/
theorem conv3DRight_iff (g : Conv3DGeometry) :
    Conv3DRight T g ↔ (g.addsBias = true ∨ g.batchSize = 1) ∧ LiesInCOrder g := by
  constructor
  · exact fun h => ⟨h.bias_or_one, h.liesInCOrder⟩
  · rintro ⟨hcase, hC⟩ x w bias memory hbias
    obtain ⟨step, hstep, hcall⟩ := call_steps g x w hbias
    refine ⟨_, hcall memory, fun b hb o ho t ht y hy u hu => ?_⟩
    rw [items_right hC hcase hstep memory (Nat.le_refl _) hb
      (inBox_four.mpr ⟨o, t, y, u, rfl, ho, ht, hy, hu⟩), correlation_itemOf]
    rfl

end Decision

/-- One voxel of one plane, with a kernel of one. -/
def singleVoxelAxis : CorrelatedAxis :=
  ⟨1, 1, 1, Nat.one_pos, Nat.le_refl 1, Nat.one_pos⟩

/-- A batch of items of one voxel, without a bias. -/
def unbiasedVoxels (batchSize : Nat) (h : 0 < batchSize) : Conv3DGeometry :=
  ⟨batchSize, 1, 1, singleVoxelAxis, singleVoxelAxis, singleVoxelAxis, h, Nat.one_pos, Nat.one_pos,
    'c', 0, false⟩

theorem conv3DRight_iff_oneItem :
    Conv3DRight ℤ (unbiasedVoxels 1 Nat.one_pos) :=
  (conv3DRight_iff (unbiasedVoxels 1 Nat.one_pos)).mpr ⟨Or.inr rfl, liesInCOrder_of_order rfl⟩

/-- The operation is not always right: without a bias only the last item of a batch is kept. -/
theorem not_conv3DRight_always : ¬ ∀ g : Conv3DGeometry, Conv3DRight ℤ g := by
  intro h
  exact absurd (h (unbiasedVoxels 2 Nat.two_pos)).bias_or_one (by decide)

end Convolutions
end LibND4J
