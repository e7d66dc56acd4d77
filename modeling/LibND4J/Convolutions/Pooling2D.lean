import LibND4J.Convolutions.OutputSizes
import LibND4J.Library.Accumulation
import LibND4J.Ops.Conditions
import LibND4J.Shape.ShapeBuffer
import Mathlib.Data.List.GetD

/-!
# Pooling of images

`maxpool2d`, `avgpool2d` and `pnormpool2d` pack their arguments into the parameters
of `Pooling2D::execSpecial`; `pooling2d` has the loops of that routine in its own body.

Main results:

- Theorem `poolingCell_pnorm`: a power mean is one over the places that the taps read.
- Theorem `samePnorms_iff`: two windows have the same power means of every image exactly if
  they read every place as often.
- Theorem `poolsAlike_iff`: when the four operations agree.
-/

namespace LibND4J
namespace Convolutions

open Stores Accumulation Shape Ops

/-! ## The loops -/

structure PoolWindow where
  kernelHeight : Int
  kernelWidth : Int
  strideY : Int
  strideX : Int
  padHeight : Int
  padWidth : Int
  dH : Int
  dW : Int
deriving DecidableEq, Repr

/-- The parameters of the loops: `extraParams`, or the local variables of `pooling2d`. -/
structure PoolingParams (T : Type) where
  window : PoolWindow
  poolingMode : Int
  extraParam0 : T

namespace PoolWindow

variable (w : PoolWindow)

/-- The counters `i` and `j` of the loops over the kernel. -/
def taps : List (Nat × Nat) :=
  List.range w.kernelHeight.toNat ×ˢ List.range w.kernelWidth.toNat

/-- `h_offset`. -/
def hOffset (hCol : Nat) : Int :=
  hCol * w.strideY - w.padHeight

/-- `w_offset`. -/
def wOffset (wCol : Nat) : Int :=
  wCol * w.strideX - w.padWidth

/-- `h_im` and `w_im`. -/
def place (hCol wCol : Nat) (tap : Nat × Nat) : Int × Int :=
  (w.hOffset hCol + tap.1 * w.dH, w.wOffset wCol + tap.2 * w.dW)

end PoolWindow

/-- The test of the loops for a place of the image. -/
def insideImage (height width : Nat) (place : Int × Int) : Bool :=
  place.1 ≥ 0 ∧ place.2 ≥ 0 ∧ place.1 < height ∧ place.2 < width

section Loops

variable {T : Type} [Field T] [LinearOrder T] (pow : T → T → T) (lowest : T)

/-- The update of `res`. -/
def poolingStep (p : PoolingParams T) (res val : T) : T :=
  if p.poolingMode = 0 then if res < val then val else res
  else if p.poolingMode = 1 then res + val
  else if p.poolingMode = 2 then res + pow |val| p.extraParam0
  else res

/-- What an iteration stores; `pow` is `nd4j_pow` and `lowest` is `-MAX_FLOAT`. -/
def poolingCell (p : PoolingParams T) (x result : ShapeInfo) (dx : Int → T) (index : Nat) : T :=
  let depth := x.shape.getD 1 0
  let height := x.shape.getD 2 0
  let width := x.shape.getD 3 0
  let strideex := x.stride.getD 0 0
  let stridech := x.stride.getD 1 0
  let strideh := x.stride.getD 2 0
  let stridew := x.stride.getD 3 0
  let heightCol := result.shape.getD 2 0
  let widthCol := result.shape.getD 3 0
  let hIndex := index / widthCol
  let hCol := hIndex % heightCol
  let wCol := index % widthCol
  let cIm := hIndex / heightCol
  let dataIm : Int := (cIm / depth : Nat) * strideex + (cIm % depth : Nat) * stridech +
    p.window.hOffset hCol * strideh + p.window.wOffset wCol * stridew
  let val (tap : Nat × Nat) : T :=
    if insideImage height width (p.window.place hCol wCol tap) then
      dx (dataIm + (tap.1 * p.window.dH * strideh + tap.2 * p.window.dW * stridew))
    else 0
  let res := p.window.taps.foldl (fun res tap => poolingStep pow p res (val tap))
    (if p.poolingMode = 0 then lowest else 0)
  if p.poolingMode = 1 then res / (p.window.kernelWidth * p.window.kernelHeight : Int)
  else if p.poolingMode = 2 then pow res (1 / p.extraParam0)
  else res

/-- `Pooling2D::execSpecial`, with the iterations of the parallel loop in the order of
`schedule`. -/
def pooling2DExecSpecial (p : PoolingParams T) (x result : ShapeInfo) (schedule : List Nat)
    (dx memory : Int → T) : Int → T :=
  storeAll (fun index : Nat => (index : Int)) (fun index _ => poolingCell pow lowest p x result dx
    index) schedule memory

/-! ## The operations -/

/-- The condition of the four operations. -/
def rankCondition (x : ShapeInfo) : List Condition :=
  [⟨x.rank = 4, "Input should have rank of 4, but got %i instead"⟩]

/-- `_calcPadding2D` as `maxpool2d` and `avgpool2d` call it. -/
def declaredPadding (argI : List Int) (x z : ShapeInfo) : Int × Int :=
  let a := intArgument argI
  calcPadding2D (z.shape.getD 2 0 : Nat) (z.shape.getD 3 0 : Nat) (x.shape.getD 2 0 : Nat)
    (x.shape.getD 3 0 : Nat) (a 0) (a 1) (a 2) (a 3) (a 6) (a 7)

/-- `argT` of `maxpool2d`. -/
def maxpool2dParams (argI : List Int) (x z : ShapeInfo) : PoolingParams T :=
  let a := intArgument argI
  let (pY, pX) := if a 8 > 0 then declaredPadding argI x z else (a 4, a 5)
  ⟨⟨a 0, a 1, a 2, a 3, pY, pX, a 6, a 7⟩, 0, 1⟩

/-- `argT` of `avgpool2d`: `pY` and `pX` are computed, but the list takes the arguments. -/
def avgpool2dParams (argI : List Int) : PoolingParams T :=
  let a := intArgument argI
  ⟨⟨a 0, a 1, a 2, a 3, a 4, a 5, a 6, a 7⟩, 1, 1⟩

/-- `argT` of `pnormpool2d`. -/
def pnormpool2dParams (argI : List Int) : PoolingParams T :=
  let a := intArgument argI
  ⟨⟨a 1, a 2, a 3, a 4, a 5, a 6, a 7, a 8⟩, 2, (a 9 : Int)⟩

/-- The local variables of `pooling2d`. -/
def pooling2dParams (argI : List Int) : PoolingParams T :=
  let a := intArgument argI
  ⟨⟨a 0, a 1, a 2, a 3, a 4, a 5, a 6, a 7⟩, a 9, (a 10 : Int)⟩

def maxpool2d (argI : List Int) (x z : ShapeInfo) (schedule : List Nat) (dx memory : Int → T) :
    Except String (Int → T) :=
  requireAll (rankCondition x) >>= fun _ =>
    .ok (pooling2DExecSpecial pow lowest (maxpool2dParams argI x z) x z schedule dx memory)

def avgpool2d (argI : List Int) (x z : ShapeInfo) (schedule : List Nat) (dx memory : Int → T) :
    Except String (Int → T) :=
  requireAll (rankCondition x) >>= fun _ =>
    .ok (pooling2DExecSpecial pow lowest (avgpool2dParams argI) x z schedule dx memory)

def pnormpool2d (argI : List Int) (x z : ShapeInfo) (schedule : List Nat) (dx memory : Int → T) :
    Except String (Int → T) :=
  requireAll (rankCondition x) >>= fun _ =>
    .ok (pooling2DExecSpecial pow lowest (pnormpool2dParams argI) x z schedule dx memory)

/-- `pooling2d`; `putScalar` stores nothing behind the length of its array. -/
def pooling2d (argI : List Int) (x z : ShapeInfo) (schedule : List Nat) (dx memory : Int → T) :
    Except String (Int → T) :=
  requireAll (rankCondition x) >>= fun _ =>
    .ok (storeAll (fun index : Nat => (index : Int))
      (fun index _ => poolingCell pow lowest (pooling2dParams argI) x z dx index)
      (schedule.filter (· < z.length)) memory)

/-- The shape functions of the four operations: samples, depth, and the output sizes. -/
def pooling2dShape (argI : List Int) (x : ShapeInfo) : List Int :=
  let a := intArgument argI
  let (oH, oW) := calcOutHWpool2D (a 0) (a 1) (a 2) (a 3) (a 4) (a 5) (a 6) (a 7)
    (x.shape.getD 2 0 : Nat) (x.shape.getD 3 0 : Nat) (a 8)
  [(x.shape.getD 0 0 : Nat), (x.shape.getD 1 0 : Nat), oH, oW]

end Loops

/-! ## Power means -/

namespace PoolWindow

/-- The places of the image that the taps of an output read. -/
def places (w : PoolWindow) (height width hCol wCol : Nat) : List (Int × Int) :=
  (w.taps.map (w.place hCol wCol)).filter (insideImage height width)

end PoolWindow

/-- The cell of a place of the image that an iteration looks at. -/
def imageCell (x result : ShapeInfo) (index : Nat) (place : Int × Int) : Int :=
  let depth := x.shape.getD 1 0
  let cIm := index / result.shape.getD 3 0 / result.shape.getD 2 0
  (cIm / depth : Nat) * x.stride.getD 0 0 + (cIm % depth : Nat) * x.stride.getD 1 0 +
    place.1 * x.stride.getD 2 0 + place.2 * x.stride.getD 3 0

section Powers

variable {T : Type} [Field T] [LinearOrder T]

/-- What the power means need of `nd4j_pow` at an exponent. -/
structure PowerMeans (pow : T → T → T) (e : T) : Prop where
  zero : pow 0 e = 0
  one : pow 1 e = 1
  injective : ∀ a b, 0 ≤ a → 0 ≤ b → pow a (1 / e) = pow b (1 / e) → a = b

variable [IsStrictOrderedRing T] {pow : T → T → T} {lowest : T}

/-- A power mean is one over the places that the taps read. -/
theorem poolingCell_pnorm {p : PoolingParams T} (hmode : p.poolingMode = 2)
    (hzero : pow 0 p.extraParam0 = 0) (x result : ShapeInfo) (dx : Int → T) (index : Nat) :
    poolingCell pow lowest p x result dx index =
      pow (((p.window.places (x.shape.getD 2 0) (x.shape.getD 3 0)
          (index / result.shape.getD 3 0 % result.shape.getD 2 0)
          (index % result.shape.getD 3 0)).map fun place =>
            pow |dx (imageCell x result index place)| p.extraParam0).sum)
        (1 / p.extraParam0) := by
  have hstep : ∀ res val, poolingStep pow p res val = res + pow |val| p.extraParam0 := by
    intro res val
    simp [poolingStep, hmode]
  simp only [poolingCell, hmode, hstep]
  rw [if_neg (by decide), if_pos trivial, if_neg (by decide), foldl_add_eq, zero_add,
    PoolWindow.places, List.filter_map, List.map_map, sum_map_filter]
  refine congrArg (fun s => pow (List.sum s) (1 / p.extraParam0))
    (List.map_congr_left fun tap _ => ?_)
  simp only [Function.comp_apply]
  split
  · simp only [imageCell, PoolWindow.place]
    congr 3
    ring
  · rw [abs_zero, hzero]

theorem mem_places {w : PoolWindow} {height width hCol wCol : Nat} {place : Int × Int}
    (h : place ∈ w.places height width hCol wCol) : insideImage height width place = true :=
  (List.mem_filter.mp h).2

/-- The image that is one at a place and zero elsewhere. -/
def spotImage (width : Nat) (place : Int × Int) (cell : Int) : T :=
  if cell = place.1 * width + place.2 then 1 else 0

/-- The cells of the first channel. -/
theorem imageCell_dense (samples depth height width outH outW : Nat) {hCol wCol : Nat}
    (hh : hCol < outH) (hw : wCol < outW) (place : Int × Int) :
    imageCell (shapeBuffer [samples, depth, height, width])
        (shapeBuffer [samples, depth, outH, outW]) (hCol * outW + wCol) place =
      place.1 * width + place.2 := by
  have hindex : (hCol * outW + wCol) / outW / outH = 0 := by
    rw [mul_add_div_of_lt hw, Nat.div_eq_of_lt hh]
  have hresult : (shapeBuffer [samples, depth, outH, outW]).shape =
      [samples, depth, outH, outW] := rfl
  have hstride : (shapeBuffer [samples, depth, height, width]).stride =
      calcStrides [samples, depth, height, width] := rfl
  rw [imageCell, hresult, hstride]
  simp [calcStrides, isVectorShape, runningStrides, hindex]

/-- Inside the image a place is known by its cell. -/
theorem place_eq_of_cell_eq {height width : Nat} {a b : Int × Int}
    (ha : insideImage height width a = true) (hb : insideImage height width b = true)
    (h : a.1 * width + a.2 = b.1 * width + b.2) : a = b := by
  rw [insideImage, decide_eq_true_eq] at ha hb
  obtain ⟨y, x⟩ := a
  obtain ⟨y', x'⟩ := b
  obtain ⟨y, rfl⟩ := Int.eq_ofNat_of_zero_le ha.1
  obtain ⟨x, rfl⟩ := Int.eq_ofNat_of_zero_le ha.2.1
  obtain ⟨y', rfl⟩ := Int.eq_ofNat_of_zero_le hb.1
  obtain ⟨x', rfl⟩ := Int.eq_ofNat_of_zero_le hb.2.1
  simp only at h
  have hnat : y * width + x = y' * width + x' := by exact_mod_cast h
  obtain ⟨rfl, rfl⟩ := Strided.mul_add_inj (Int.ofNat_lt.mp ha.2.2.2) (Int.ofNat_lt.mp hb.2.2.2)
    hnat
  rfl

/-- Over the image of one spot the powers count how often it is read. -/
theorem sum_spotImage {e : T} (hpow : PowerMeans pow e) {height width : Nat} {place : Int × Int}
    (hplace : insideImage height width place = true) {places : List (Int × Int)}
    (hplaces : ∀ q ∈ places, insideImage height width q = true) :
    (places.map fun q => pow |(spotImage width place (q.1 * width + q.2) : T)| e).sum =
      (places.count place : T) := by
  induction places with
  | nil => simp
  | cons q places ih =>
      rw [List.forall_mem_cons] at hplaces
      rw [List.map_cons, List.sum_cons, ih hplaces.2, List.count_cons]
      by_cases hq : q = place
      · rw [hq, spotImage, if_pos rfl, abs_one, hpow.one, if_pos (beq_self_eq_true place)]
        push_cast
        ring
      · have hcell : q.1 * (width : Int) + q.2 ≠ place.1 * width + place.2 :=
          fun h => hq (place_eq_of_cell_eq hplaces.1 hplace h)
        rw [spotImage, if_neg hcell, abs_zero, hpow.zero, if_neg (by simpa using hq)]
        simp

/-- Two windows have the same power means of every image exactly if they read every place as
often. -/
theorem samePnorms_iff {e : T} (hpow : PowerMeans pow e) {samples depth : Nat}
    (hsamples : 0 < samples) (hdepth : 0 < depth) (height width outH outW : Nat)
    (u v : PoolWindow) :
    (∀ (dx : Int → T), ∀ index < samples * (depth * (outH * outW)),
      poolingCell pow lowest ⟨u, 2, e⟩ (shapeBuffer [samples, depth, height, width])
          (shapeBuffer [samples, depth, outH, outW]) dx index =
        poolingCell pow lowest ⟨v, 2, e⟩ (shapeBuffer [samples, depth, height, width])
          (shapeBuffer [samples, depth, outH, outW]) dx index) ↔
      ∀ hCol < outH, ∀ wCol < outW,
        (u.places height width hCol wCol).Perm (v.places height width hCol wCol) := by
  have hshape : (shapeBuffer [samples, depth, height, width]).shape =
      [samples, depth, height, width] := rfl
  have hresult : (shapeBuffer [samples, depth, outH, outW]).shape =
      [samples, depth, outH, outW] := rfl
  constructor
  · intro h hCol hh wCol hw
    have hindex : hCol * outW + wCol < samples * (depth * (outH * outW)) := by
      have hone := mul_add_lt (mul_add_lt hsamples hdepth) (mul_add_lt hh hw)
      simp only [Nat.zero_mul, Nat.zero_add, Nat.add_zero] at hone
      rwa [Nat.mul_assoc] at hone
    rw [List.perm_iff_count]
    intro place
    by_cases hplace : insideImage height width place = true
    · have hcells := h (spotImage width place) (hCol * outW + wCol) hindex
      rw [poolingCell_pnorm rfl hpow.zero, poolingCell_pnorm rfl hpow.zero, hshape, hresult] at hcells
      simp only [imageCell_dense samples depth height width outH outW hh hw, List.getD_cons_succ,
        List.getD_cons_zero, mul_add_div_of_lt hw, mul_add_mod_of_lt hw,
        Nat.mod_eq_of_lt hh] at hcells
      rw [sum_spotImage hpow hplace fun q hq => mem_places hq,
        sum_spotImage hpow hplace fun q hq => mem_places hq] at hcells
      exact_mod_cast hpow.injective _ _ (Nat.cast_nonneg _) (Nat.cast_nonneg _) hcells
    · rw [List.count_eq_zero.mpr fun hmem => hplace (mem_places hmem),
        List.count_eq_zero.mpr fun hmem => hplace (mem_places hmem)]
  · intro h dx index hindex
    have hpos : 0 < outH * outW := by
      refine Nat.pos_of_ne_zero fun hzero => ?_
      rw [hzero] at hindex
      simp at hindex
    have hh : index / outW % outH < outH := Nat.mod_lt _ (Nat.pos_of_mul_pos_right hpos)
    have hw : index % outW < outW := Nat.mod_lt _ (Nat.pos_of_mul_pos_left hpos)
    rw [poolingCell_pnorm rfl hpow.zero, poolingCell_pnorm rfl hpow.zero, hshape, hresult]
    exact congrArg (pow · (1 / e)) ((h _ hh _ hw).map _).sum_eq

end Powers

/-! ## The four operations -/

/-- The window that eight arguments describe, from one on. -/
def argumentWindow (argI : List Int) (first : Nat) : PoolWindow :=
  let a (i : Nat) := intArgument argI (first + i)
  ⟨a 0, a 1, a 2, a 3, a 4, a 5, a 6, a 7⟩

section Agreement

variable {T : Type} [Field T] [LinearOrder T]

/-- Two operations leave the same elements, in any order of their iterations. -/
def SameOutput (length : Nat) (f g : List Nat → (Int → T) → (Int → T) → Except String (Int → T)) :
    Prop :=
  ∀ schedule schedule' : List Nat, schedule.Perm (List.range length) →
    schedule'.Perm (List.range length) → ∀ dx memory memory' : Int → T, ∃ a b,
      f schedule dx memory = .ok a ∧ g schedule' dx memory' = .ok b ∧
        ∀ index < length, a (index : Int) = b (index : Int)

/-- The operations on one function of the arguments leave the same elements, and the paddings are
those for the declared size. -/
structure PoolsAlike (pow : T → T → T) (lowest : T) (argI : List Int) (p : Int) (x z : ShapeInfo) :
    Prop where
  maxpool2d_eq : ∀ extra, SameOutput z.length (maxpool2d pow lowest argI x z)
    (pooling2d pow lowest (argI ++ [0, extra]) x z)
  avgpool2d_eq : ∀ extra, SameOutput z.length (avgpool2d pow lowest argI x z)
    (pooling2d pow lowest (argI ++ [1, extra]) x z)
  pnormpool2d_eq : SameOutput z.length (pnormpool2d pow lowest (argI ++ [p]) x z)
    (pooling2d pow lowest (argI ++ [2, p]) x z)
  padding_eq : intArgument argI 8 > 0 → ∀ params ∈ [maxpool2dParams (T := T) argI x z,
    avgpool2dParams argI, pnormpool2dParams (argI ++ [p]), pooling2dParams (argI ++ [0, 0])],
      (params.window.padHeight, params.window.padWidth) = declaredPadding argI x z

/-- The arguments are those of the declared size if it is to be kept, also where
`pnormpool2d` looks for them, and the window that it finds reads every place as often. -/
structure ArgumentsFit (argI : List Int) (x z : ShapeInfo) : Prop where
  padding_eq : intArgument argI 8 > 0 →
    (intArgument argI 4, intArgument argI 5) = declaredPadding argI x z
  shifted_eq : intArgument argI 8 > 0 →
    (intArgument argI 5, intArgument argI 6) = declaredPadding argI x z
  same_reads : ∀ hCol < z.shape.getD 2 0, ∀ wCol < z.shape.getD 3 0,
    ((argumentWindow argI 1).places (x.shape.getD 2 0) (x.shape.getD 3 0) hCol wCol).Perm
      ((argumentWindow argI 0).places (x.shape.getD 2 0) (x.shape.getD 3 0) hCol wCol)

variable {pow : T → T → T} {lowest : T} {x z : ShapeInfo}

theorem intArgument_append {argI : List Int} {i : Nat} (hi : i < argI.length) (more : List Int) :
    intArgument (argI ++ more) i = intArgument argI i :=
  List.getD_append _ _ _ _ hi

theorem intArgument_append_right {argI : List Int} {i : Nat} (hi : argI.length ≤ i)
    (more : List Int) : intArgument (argI ++ more) i = intArgument more (i - argI.length) :=
  List.getD_append_right _ _ _ _ hi

/-- Every iteration stores its own element. -/
theorem pooling2DExecSpecial_apply (params : PoolingParams T) {length : Nat} {schedule : List Nat}
    (hschedule : schedule.Perm (List.range length)) (dx memory : Int → T) {index : Nat}
    (hindex : index < length) :
    pooling2DExecSpecial pow lowest params x z schedule dx memory index =
      poolingCell pow lowest params x z dx index := by
  refine storeAll_of_agree ⟨index, hschedule.mem_iff.mpr (List.mem_range.mpr hindex), rfl⟩
    (fun v _ hv _ => ?_) memory
  rw [Int.ofNat.inj hv]

/-- Images pass the condition of the operations. -/
theorem requireAll_rankCondition (hrank : x.rank = 4) : requireAll (rankCondition x) = .ok () :=
  requireAll_cons_of_holds (decide_eq_true hrank) []

/-- `pooling2d` runs the same loops. -/
theorem pooling2d_eq (hrank : x.rank = 4) (argI : List Int) {schedule : List Nat}
    (hschedule : schedule.Perm (List.range z.length)) (dx memory : Int → T) :
    pooling2d pow lowest argI x z schedule dx memory =
      .ok (pooling2DExecSpecial pow lowest (pooling2dParams argI) x z schedule dx memory) := by
  have hfilter : schedule.filter (· < z.length) = schedule :=
    List.filter_eq_self.mpr fun index hindex =>
      decide_eq_true (List.mem_range.mp (hschedule.mem_iff.mp hindex))
  rw [pooling2d, hfilter, requireAll_rankCondition hrank]
  rfl

/-- Two operations that run the loops leave the same elements exactly if the iterations store the
same. -/
theorem sameOutput_iff {f g : List Nat → (Int → T) → (Int → T) → Except String (Int → T)}
    {u v : PoolingParams T} {length : Nat}
    (hf : ∀ schedule : List Nat, schedule.Perm (List.range length) → ∀ dx memory : Int → T,
      f schedule dx memory = .ok (pooling2DExecSpecial pow lowest u x z schedule dx memory))
    (hg : ∀ schedule : List Nat, schedule.Perm (List.range length) → ∀ dx memory : Int → T,
      g schedule dx memory = .ok (pooling2DExecSpecial pow lowest v x z schedule dx memory)) :
    SameOutput length f g ↔ ∀ (dx : Int → T), ∀ index < length,
      poolingCell pow lowest u x z dx index = poolingCell pow lowest v x z dx index := by
  constructor
  · intro h dx index hindex
    obtain ⟨a, b, ha, hb, hab⟩ := h _ _ (List.Perm.refl _) (List.Perm.refl _) dx dx dx
    rw [hf _ (List.Perm.refl _)] at ha
    rw [hg _ (List.Perm.refl _)] at hb
    have hcell := hab index hindex
    rwa [← Except.ok.inj ha, ← Except.ok.inj hb,
      pooling2DExecSpecial_apply u (List.Perm.refl _) dx dx hindex,
      pooling2DExecSpecial_apply v (List.Perm.refl _) dx dx hindex] at hcell
  · intro h schedule schedule' hschedule hschedule' dx memory memory'
    refine ⟨_, _, hf _ hschedule dx memory, hg _ hschedule' dx memory', fun index hindex => ?_⟩
    rw [pooling2DExecSpecial_apply u hschedule dx memory hindex,
      pooling2DExecSpecial_apply v hschedule' dx memory' hindex, h dx index hindex]

/-- Maxima and means do not look at the exponent. -/
theorem poolingCell_of_mode {mode : Int} (hmode : mode ≠ 2) (w : PoolWindow) (e e' : T) :
    poolingCell pow lowest ⟨w, mode, e⟩ x z = poolingCell pow lowest ⟨w, mode, e'⟩ x z := by
  funext dx index
  simp only [poolingCell, poolingStep, if_neg hmode]

section Parameters

variable {argI : List Int} (hlength : argI.length = 9)
include hlength

omit [LinearOrder T] in
/-- The local variables of `pooling2d`, by the nine arguments. -/
theorem pooling2dParams_append (mode extra : Int) :
    pooling2dParams (T := T) (argI ++ [mode, extra]) =
      ⟨argumentWindow argI 0, mode, (extra : T)⟩ := by
  have harg : ∀ i < 9, intArgument (argI ++ [mode, extra]) i = intArgument argI i :=
    fun i hi => intArgument_append (by omega) _
  have hmode : intArgument (argI ++ [mode, extra]) 9 = mode := by
    rw [intArgument_append_right hlength.le, hlength]
    rfl
  have hextra : intArgument (argI ++ [mode, extra]) 10 = extra := by
    rw [intArgument_append_right (by omega), hlength]
    rfl
  simp only [pooling2dParams, argumentWindow, harg 0 (by decide), harg 1 (by decide),
    harg 2 (by decide), harg 3 (by decide), harg 4 (by decide), harg 5 (by decide),
    harg 6 (by decide), harg 7 (by decide), hmode, hextra, Nat.zero_add]

omit [LinearOrder T] in
/-- The parameters of `pnormpool2d` start at the second argument. -/
theorem pnormpool2dParams_append (p : Int) :
    pnormpool2dParams (T := T) (argI ++ [p]) = ⟨argumentWindow argI 1, 2, (p : T)⟩ := by
  have harg : ∀ i < 9, intArgument (argI ++ [p]) i = intArgument argI i :=
    fun i hi => intArgument_append (by omega) _
  have hpower : intArgument (argI ++ [p]) 9 = p := by
    rw [intArgument_append_right hlength.le, hlength]
    rfl
  simp only [pnormpool2dParams, argumentWindow, harg 1 (by decide), harg 2 (by decide),
    harg 3 (by decide), harg 4 (by decide), harg 5 (by decide), harg 6 (by decide),
    harg 7 (by decide), harg 8 (by decide), hpower, Nat.reduceAdd]

omit hlength [LinearOrder T] in
/-- With the arguments of the declared size `maxpool2d` passes them on. -/
theorem maxpool2dParams_eq
    (hpadding : intArgument argI 8 > 0 →
      (intArgument argI 4, intArgument argI 5) = declaredPadding argI x z) :
    maxpool2dParams (T := T) argI x z = ⟨argumentWindow argI 0, 0, 1⟩ := by
  rw [maxpool2dParams]
  by_cases hsame : intArgument argI 8 > 0
  · rw [if_pos hsame, ← hpadding hsame]
    rfl
  · rw [if_neg hsame]
    rfl

/-- With the arguments of the declared size `maxpool2d` is `pooling2d`. -/
theorem sameOutput_maxpool2d (hrank : x.rank = 4)
    (hpadding : intArgument argI 8 > 0 →
      (intArgument argI 4, intArgument argI 5) = declaredPadding argI x z) (extra : Int) :
    SameOutput z.length (maxpool2d pow lowest argI x z)
      (pooling2d pow lowest (argI ++ [0, extra]) x z) := by
  refine (sameOutput_iff (u := maxpool2dParams argI x z) (fun schedule _ dx memory => ?_)
    fun schedule hschedule dx memory => pooling2d_eq hrank _ hschedule dx memory).mpr ?_
  · rw [maxpool2d, requireAll_rankCondition hrank]
    rfl
  · intro dx index _
    rw [maxpool2dParams_eq hpadding, pooling2dParams_append hlength,
      poolingCell_of_mode (by decide) _ 1 (extra : T)]

/-- `avgpool2d` always is `pooling2d`. -/
theorem sameOutput_avgpool2d (hrank : x.rank = 4) (extra : Int) :
    SameOutput z.length (avgpool2d pow lowest argI x z)
      (pooling2d pow lowest (argI ++ [1, extra]) x z) := by
  refine (sameOutput_iff (u := avgpool2dParams argI) (fun schedule _ dx memory => ?_)
    fun schedule hschedule dx memory => pooling2d_eq hrank _ hschedule dx memory).mpr ?_
  · rw [avgpool2d, requireAll_rankCondition hrank]
    rfl
  · intro dx index _
    rw [pooling2dParams_append hlength, poolingCell_of_mode (by decide) _ (extra : T) 1]
    rfl

end Parameters

variable [IsStrictOrderedRing T] {argI : List Int} {p : Int} {samples depth : Nat}

theorem rank_dense (a b c d : Nat) : (shapeBuffer [a, b, c, d]).rank = 4 := by
  rw [ShapeInfo.rank, shape_shapeBuffer]
  rfl

/-- When `pnormpool2d` is `pooling2d`. -/
theorem sameOutput_pnormpool2d_iff (hlength : argI.length = 9) (hpow : PowerMeans pow (p : T))
    (hsamples : 0 < samples) (hdepth : 0 < depth) (height width outH outW : Nat) :
    SameOutput (shapeBuffer [samples, depth, outH, outW]).length
      (pnormpool2d pow lowest (argI ++ [p]) (shapeBuffer [samples, depth, height, width])
        (shapeBuffer [samples, depth, outH, outW]))
      (pooling2d pow lowest (argI ++ [2, p]) (shapeBuffer [samples, depth, height, width])
        (shapeBuffer [samples, depth, outH, outW])) ↔
      ∀ hCol < outH, ∀ wCol < outW, ((argumentWindow argI 1).places height width hCol wCol).Perm
        ((argumentWindow argI 0).places height width hCol wCol) := by
  have hlengthOf : (shapeBuffer [samples, depth, outH, outW]).length =
      samples * (depth * (outH * outW)) := by
    simp [ShapeInfo.length]
  rw [← @samePnorms_iff _ _ _ _ _ lowest _ hpow _ _ hsamples hdepth, ← hlengthOf,
    ← pnormpool2dParams_append hlength, ← pooling2dParams_append hlength]
  refine sameOutput_iff (fun schedule _ dx memory => ?_) fun schedule hschedule dx memory =>
    pooling2d_eq (rank_dense samples depth height width) _ hschedule dx memory
  rw [pnormpool2d, requireAll_rankCondition (rank_dense samples depth height width)]
  rfl

/-- When the four operations agree. -/
theorem poolsAlike_iff (hlength : argI.length = 9) (hpow : PowerMeans pow (p : T))
    (hsamples : 0 < samples) (hdepth : 0 < depth) (height width outH outW : Nat) :
    PoolsAlike pow lowest argI p (shapeBuffer [samples, depth, height, width])
        (shapeBuffer [samples, depth, outH, outW]) ↔
      ArgumentsFit argI (shapeBuffer [samples, depth, height, width])
        (shapeBuffer [samples, depth, outH, outW]) := by
  have hrank := rank_dense samples depth height width
  have hpnorm := @sameOutput_pnormpool2d_iff _ _ _ _ lowest _ _ _ _ _ hlength hpow hsamples hdepth
    height width outH outW
  constructor
  · intro h
    have hwindows : intArgument argI 8 > 0 →
        (intArgument argI 5, intArgument argI 6) = declaredPadding argI
          (shapeBuffer [samples, depth, height, width]) (shapeBuffer [samples, depth, outH, outW]) ∧
        (intArgument argI 4, intArgument argI 5) = declaredPadding argI
          (shapeBuffer [samples, depth, height, width])
          (shapeBuffer [samples, depth, outH, outW]) := by
      intro hsame
      have hall := h.padding_eq hsame
      simp only [List.forall_mem_cons, pnormpool2dParams_append hlength,
        pooling2dParams_append hlength] at hall
      exact ⟨hall.2.2.1, hall.2.2.2.1⟩
    exact ⟨fun hsame => (hwindows hsame).2, fun hsame => (hwindows hsame).1, by
      simpa using hpnorm.mp h.pnormpool2d_eq⟩
  · intro h
    refine ⟨sameOutput_maxpool2d hlength hrank h.padding_eq, sameOutput_avgpool2d hlength hrank,
      hpnorm.mpr (by simpa using h.same_reads), fun hsame => ?_⟩
    simp only [List.forall_mem_cons, pnormpool2dParams_append hlength,
      pooling2dParams_append hlength, maxpool2dParams_eq h.padding_eq]
    exact ⟨h.padding_eq hsame, h.padding_eq hsame, h.shifted_eq hsame, h.padding_eq hsame,
      fun _ hnone => absurd hnone List.not_mem_nil⟩

end Agreement

/-- The power of an exponent of one. -/
def firstPower (a _e : ℚ) : ℚ :=
  a

theorem powerMeans_firstPower : PowerMeans firstPower ((1 : Int) : ℚ) where
  zero := rfl
  one := rfl
  injective := fun _ _ _ _ h => h

/-- A kernel of one with strides of one, without padding. -/
def identityArguments : List Int :=
  [1, 1, 1, 1, 0, 0, 1, 1, 0]

theorem poolsAlike_iff_onePixel :
    identityArguments.length = 9 ∧ PowerMeans firstPower ((1 : Int) : ℚ) ∧ 0 < 1 ∧
      (PoolsAlike firstPower (-1000) identityArguments 1 (shapeBuffer [1, 1, 1, 1])
          (shapeBuffer [1, 1, 1, 1]) ↔
        ArgumentsFit identityArguments (shapeBuffer [1, 1, 1, 1]) (shapeBuffer [1, 1, 1, 1])) :=
  ⟨rfl, powerMeans_firstPower, by decide,
    poolsAlike_iff rfl powerMeans_firstPower (by decide) (by decide) 1 1 1 1⟩

/-- The operations do not always agree: `pnormpool2d` takes a padding for a stride and a
dilation for a padding, and reads nothing of an image of one pixel. -/
theorem not_poolsAlike_always :
    ¬ ∀ (lowest : ℚ) (argI : List Int) (p : Int), argI.length = 9 →
      PowerMeans firstPower (p : ℚ) → ∀ (samples depth height width outH outW : Nat),
        0 < samples → 0 < depth →
          pooling2dShape argI (shapeBuffer [samples, depth, height, width]) =
            [(samples : Int), (depth : Int), (outH : Int), (outW : Int)] →
          PoolsAlike firstPower lowest argI p (shapeBuffer [samples, depth, height, width])
            (shapeBuffer [samples, depth, outH, outW]) := by
  intro h
  have halike := h (-1000) identityArguments 1 rfl powerMeans_firstPower 1 1 1 1 1 1 (by decide)
    (by decide) (by decide)
  have hreads := (sameOutput_pnormpool2d_iff rfl powerMeans_firstPower (by decide) (by decide)
    1 1 1 1).mp halike.pnormpool2d_eq 0 (by decide) 0 (by decide)
  exact absurd hreads.length_eq (by decide)

end Convolutions
end LibND4J
