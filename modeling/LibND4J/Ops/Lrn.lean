import LibND4J.Arrays.FlatResult
import LibND4J.Arrays.Subarray
import LibND4J.Arrays.Targets
import LibND4J.Library.Windows

/-!
# Local response normalisation

`lrn` divides an image by a power of the sums of the squares over neighbouring channels.  The
sums are made by adding the squares to themselves, shifted by one channel more in every turn and in
both directions.  A turn that shifts by all channels takes a part without channels, and fails.

Main results:

- Theorem `windowSums_spec`: the sums that the turns leave.
- Theorem `normalises_iff`: for which images and depths the operation is right.
- Theorem `not_normalises_always`: two channels and a depth of four.
-/

namespace LibND4J
namespace Ops

open Strided Shape Arrays Loops Windows

theorem LrnBlock.atLeastTwo_two : Nat.AtLeastTwo 2 :=
  ⟨by decide⟩

attribute [local instance] LrnBlock.atLeastTwo_two

/-! ## The operation -/

/-- The arrays of a block and its arguments; `z`, `unitScale` and `scale` are the outputs. -/
structure LrnBlock (T : Type) where
  input : NDArray T
  z : NDArray T
  unitScale : NDArray T
  scale : NDArray T
  inplace : Bool
  alpha : T
  beta : T
  bias : T
  depth : T

/-- The outputs of `lrn`. -/
structure LrnResult (T : Type) where
  z : NDArray T
  unitScale : NDArray T
  scale : NDArray T

section Operation

variable {T : Type} [Field T]

/-- The squares of the activities, in an array that has one cell for each of its elements. -/
def activitySquares (run : Runtime T) (input : NDArray T) : Except Failure (NDArray T) :=
  if LiesInLength input.shapeInfo then
    input.pairwiseTo (fun d1 d2 => d1 * d2) run input ⟨input.shapeInfo, run.fresh⟩
  else .error .undefined

/-- A turn of the loop over the shifts. -/
def addNeighbours (run : Runtime T) (activitySqr : NDArray T) (channel : Nat) (sumPart : NDArray T)
    (i : Nat) : Except Failure (NDArray T) := do
  let indA := channels i channel
  let indB := channels 0 (channel - i)
  let sumPart ← addPart run sumPart activitySqr indA indB
  addPart run sumPart activitySqr indB indA

/-- The sums over the windows. -/
def windowSums (run : Runtime T) (input : NDArray T) (halfDepth : Int) :
    Except Failure (NDArray T) := do
  let activitySqr ← activitySquares run input
  let sumPart ← activitySqr.dup run 'c'
  (List.range' 1 halfDepth.toNat).foldlM
    (addNeighbours run activitySqr (input.shapeInfo.shape.getD 1 0)) sumPart

variable [LinearOrder T] [FloorRing T]

/-- Conversion of a number to `int`; outside its range it is undefined. -/
def truncate (v : T) : Except Failure Int :=
  let whole := if 0 ≤ v then ⌊v⌋ else ⌈v⌉
  if -2 ^ 31 ≤ whole ∧ whole < 2 ^ 31 then .ok whole else .error .undefined

/-- `lrn`, for the power function `pow`. -/
def lrn (run : Runtime T) (pow : T → T → T) (block : LrnBlock T) :
    Except Failure (LrnResult T) := do
  -- in place there is no variable for the second output
  if block.inplace then
    .error (.thrown "std::out_of_range")
  else if block.input.shapeInfo.rank ≠ 4 then
    .error (.validation (
      "Input rank of 4 expected, but got " ++ toString block.input.shapeInfo.rank ++ " instead"))
  else
    let halfDepth ← truncate (block.depth / 2)
    let sumPart ← windowSums run block.input halfDepth
    let unitScale ← sumPart.scalarTo (fun d1 d2 => d1 * d2) run block.alpha block.unitScale
    let unitScale ← unitScale.scalarInto (fun d1 d2 => d1 + d2) run block.bias
    let scale ← unitScale.transformTo (fun d1 => pow d1 (-block.beta)) run block.scale
    let z ← block.input.pairwiseTo (fun d1 d2 => d1 * d2) run scale block.z
    return ⟨z, unitScale, scale⟩

/-! ## Right results -/

/-- The operation completes.  The sum for a channel is that of the squares over the channels of its
window, and the outputs are computed from it. -/
def Normalises (run : Runtime T) (pow : T → T → T) (block : LrnBlock T) (B C H W : Nat) : Prop :=
  ∃ sumPart result, windowSums run block.input ⌊block.depth / 2⌋ = .ok sumPart ∧
    lrn run pow block = .ok result ∧
    ∀ b < B, ∀ c < C, ∀ y < H, ∀ x < W,
      sumPart.element [b, c, y, x] =
        windowSum (fun k => block.input.element [b, k, y, x] ^ 2) C ⌊block.depth / 2⌋₊ c ∧
      result.unitScale.element [b, c, y, x] =
        sumPart.element [b, c, y, x] * block.alpha + block.bias ∧
      result.scale.element [b, c, y, x] =
        pow (result.unitScale.element [b, c, y, x]) (-block.beta) ∧
      result.z.element [b, c, y, x] =
        block.input.element [b, c, y, x] * result.scale.element [b, c, y, x]

end Operation

/-! ## The sums -/

section Sums

variable {T : Type} [Field T] {run : Runtime T} {input activitySqr sumPart : NDArray T}
  {B C H W : Nat}

/-- Shape information of an array of images. -/
structure ImageLayout (info : ShapeInfo) (B C H W : Nat) : Prop where
  shape_eq : info.shape = [B, C, H, W]
  honest : info.HonestEws
  cellsApart : CellsApart info
  offset_eq : info.offset = 0

/-- There is an image, with a channel. -/
structure NonemptyImage (B C H W : Nat) : Prop where
  batch : 0 < B
  channel : 0 < C
  height : 0 < H
  width : 0 < W

theorem NonemptyImage.positive (h : NonemptyImage B C H W) {info : ShapeInfo}
    (hshape : info.shape = [B, C, H, W]) : info.Positive := by
  rw [ShapeInfo.Positive, hshape]
  simp [h.batch, h.channel, h.height, h.width]

/-- The sums hold the windows that reach up to some distance. -/
structure SumsWindows (activitySqr sumPart : NDArray T) (B C H W reach : Nat) : Prop where
  shape_eq : sumPart.shapeInfo.shape = [B, C, H, W]
  cellsApart : CellsApart sumPart.shapeInfo
  sum_eq : ∀ b < B, ∀ c < C, ∀ y < H, ∀ x < W, sumPart.element [b, c, y, x] =
    windowSum (fun k => activitySqr.element [b, k, y, x]) C reach c

/-- The spans of the threads fit for all arrays up to a length. -/
def SpansFit (settings : Settings) (length : Nat) : Prop :=
  ∀ n ≤ length, SpanFits settings n

variable {reach : Nat}

/-- A turn widens the windows. -/
theorem addNeighbours_spec (himage : NonemptyImage B C H W)
    (hsqr : activitySqr.shapeInfo.shape = [B, C, H, W])
    (h : SumsWindows activitySqr sumPart B C H W reach) (hreach : reach + 1 < C)
    (hspan : SpansFit run.settings (B * C * H * W)) :
    ∃ buffer, addNeighbours run activitySqr C sumPart (reach + 1) =
        .ok ⟨sumPart.shapeInfo, buffer⟩ ∧
      SumsWindows activitySqr ⟨sumPart.shapeInfo, buffer⟩ B C H W (reach + 1) := by
  obtain ⟨n, rfl⟩ : ∃ n, C = reach + 1 + n := ⟨C - (reach + 1), by omega⟩
  have hn : 0 < n := by omega
  have hspan' : SpanFits run.settings (B * n * H * W) := by
    refine hspan _ (Nat.mul_le_mul_right W (Nat.mul_le_mul_right H (Nat.mul_le_mul_left B ?_)))
    exact Nat.le_add_left n (reach + 1)
  have hindB : channels 0 (((reach + 1 + n : Nat) : Int) - ((reach + 1 : Nat) : Int)) =
      channels ((0 : Nat) : Int) ((0 + n : Nat) : Int) := by
    congr 1
    push_cast
    ring
  have hle : reach + 1 + n ≤ reach + 1 + n := le_refl _
  have hsmall : 0 + n ≤ reach + 1 + n := by omega
  obtain ⟨first, hfirst, hfirstValue⟩ := addPart_channels run (reach + 1) 0 h.shape_eq
    h.cellsApart hsqr himage.batch himage.height himage.width hn hle hsmall hspan'
  obtain ⟨second, hsecond, hsecondValue⟩ := @addPart_channels T _ ⟨sumPart.shapeInfo, first⟩
    activitySqr B _ H W run 0 (reach + 1) h.shape_eq h.cellsApart hsqr himage.batch himage.height
    himage.width n hn hsmall hle hspan'
  refine ⟨second, ?_, h.shape_eq, h.cellsApart, fun b hb c hc y hy x hx => ?_⟩
  · rw [addNeighbours]
    simp only [hindB, bind, Except.bind, hfirst]
    exact hsecond
  · rw [hsecondValue b hb c hc y hy x hx, hfirstValue b hb c hc y hy x hx,
      h.sum_eq b hb c hc y hy x hx, windowSum_succ _ hc]
    congr 1
    · congr 1
      by_cases hlow : reach + 1 ≤ c
      · rw [if_pos ⟨hlow, hc⟩, if_pos hlow, Nat.zero_add]
      · rw [if_neg fun hin => hlow hin.1, if_neg hlow]
    · by_cases hhigh : c + (reach + 1) < reach + 1 + n
      · have hin : 0 ≤ c ∧ c < 0 + n := by omega
        rw [if_pos hin, if_pos hhigh, Nat.sub_zero, Nat.add_comm c]
      · have hout : ¬ (0 ≤ c ∧ c < 0 + n) := by omega
        rw [if_neg hout, if_neg hhigh]

/-- The turns up to a distance below the number of channels. -/
theorem foldlM_addNeighbours (himage : NonemptyImage B C H W)
    (hsqr : activitySqr.shapeInfo.shape = [B, C, H, W])
    (h : SumsWindows activitySqr sumPart B C H W 0) (hreach : reach < C)
    (hspan : SpansFit run.settings (B * C * H * W)) :
    ∃ buffer, (List.range' 1 reach).foldlM (addNeighbours run activitySqr C) sumPart =
        .ok ⟨sumPart.shapeInfo, buffer⟩ ∧
      SumsWindows activitySqr ⟨sumPart.shapeInfo, buffer⟩ B C H W reach := by
  induction reach with
  | zero => exact ⟨sumPart.buffer, rfl, h⟩
  | succ reach ih =>
      obtain ⟨buffer, hrun, hsums⟩ := ih (Nat.lt_of_succ_lt hreach)
      obtain ⟨buffer', hturn, hsums'⟩ := addNeighbours_spec himage hsqr hsums hreach hspan
      refine ⟨buffer', ?_, hsums'⟩
      rw [List.range'_concat, List.foldlM_append, hrun]
      simp only [bind, Except.bind, List.foldlM_cons, List.foldlM_nil]
      rw [Nat.one_mul, Nat.add_comm 1 reach, hturn]
      rfl

/-- The turn that shifts by all channels fails. -/
theorem addNeighbours_of_channels (run : Runtime T) (activitySqr sumPart : NDArray T) (C : Nat) :
    ∃ e, addNeighbours run activitySqr C sumPart C = .error e := by
  obtain ⟨e, he⟩ := subarray_of_empty sumPart.shapeInfo C
  refine ⟨e, ?_⟩
  simp only [addNeighbours, addPart, bind, Except.bind, he]

variable (himage : NonemptyImage B C H W)

include himage

variable (hinput : ImageLayout input.shapeInfo B C H W)

include hinput

variable (hfits : LiesInLength input.shapeInfo)

include hfits

variable (hspan : SpansFit run.settings (B * C * H * W))

include hspan

/-- The squares, if the array has a cell for each of them. -/
theorem activitySquares_spec :
    ∃ buffer, activitySquares run input = .ok ⟨input.shapeInfo, buffer⟩ ∧
      ∀ c, InBox [B, C, H, W] c →
        (NDArray.mk input.shapeInfo buffer).element c = input.element c ^ 2 := by
  have hlength : input.shapeInfo.length = B * C * H * W := by
    simp [ShapeInfo.length, hinput.shape_eq, mul_assoc]
  obtain ⟨buffer, hrun, hvalue⟩ := @pairwiseTo_spec T input input ⟨input.shapeInfo, run.fresh⟩
    (fun d1 d2 => d1 * d2) run rfl rfl (himage.positive hinput.shape_eq)
    (by rw [hinput.shape_eq]; exact List.cons_ne_nil _ _) hinput.honest hinput.honest hinput.honest
    hinput.cellsApart (hspan _ hlength.le)
  refine ⟨buffer, by rw [activitySquares, if_pos hfits, hrun], fun c hc => ?_⟩
  rw [hvalue c (hinput.shape_eq ▸ hc), pow_two]

/-- What the turns start from. -/
theorem exists_start :
    ∃ activitySqr sumPart, activitySquares run input = .ok activitySqr ∧
      activitySqr.shapeInfo.shape = [B, C, H, W] ∧
      (∀ c, InBox [B, C, H, W] c → activitySqr.element c = input.element c ^ 2) ∧
      activitySqr.dup run 'c' = .ok sumPart ∧
      sumPart.shapeInfo = withEws (newShapeInfo 'c' [B, C, H, W]) 1 ∧
      SumsWindows activitySqr sumPart B C H W 0 := by
  obtain ⟨buffer, hsquares, hvalue⟩ := activitySquares_spec himage hinput hfits hspan
  have hpos : input.shapeInfo.Positive := himage.positive hinput.shape_eq
  obtain ⟨copy, hdup, hcopy⟩ := @dup_spec T ⟨input.shapeInfo, buffer⟩ 'c' run (Or.inl rfl)
    (by rw [hinput.shape_eq]; exact List.cons_ne_nil _ _) hpos hinput.honest
  refine ⟨_, _, hsquares, hinput.shape_eq, hvalue, hdup, by rw [hinput.shape_eq], ?_, ?_, ?_⟩
  · rw [shape_withEws, shape_newShapeInfo, hinput.shape_eq]
  · exact cellsApart_newShapeInfo (Or.inl rfl) hpos
  · intro b hb c hc y hy x hx
    have hbox : InBox input.shapeInfo.shape [b, c, y, x] :=
      hinput.shape_eq ▸ inBox_image.mpr ⟨hb, hc, hy, hx⟩
    obtain ⟨k, hk, hcoords⟩ := (bijOn_coordinateOf false hpos).surjOn hbox
    have hk' : k < (newShapeInfo 'c' input.shapeInfo.shape).length := by
      rwa [ShapeInfo.length, shape_newShapeInfo]
    have hdense := (dense_newShapeInfo (Or.inl rfl) input.shapeInfo.shape).dot_eq hk'
    rw [shape_newShapeInfo] at hdense
    have hcell : (NDArray.mk (withEws (newShapeInfo 'c' input.shapeInfo.shape) 1) copy).element
        [b, c, y, x] = copy k := by
      rw [element_eq (by rwa [shape_withEws, shape_newShapeInfo]), stride_withEws, ← hcoords]
      exact congrArg copy hdense
    rw [windowSum_zero _ hc, hcell, hcopy k hk, ← hcoords]
    rfl

/-- The sums that the turns leave. -/
theorem windowSums_spec (hreach : reach < C) :
    ∃ buffer, windowSums run input reach =
        .ok ⟨withEws (newShapeInfo 'c' [B, C, H, W]) 1, buffer⟩ ∧
      ∀ b < B, ∀ c < C, ∀ y < H, ∀ x < W,
        (NDArray.mk (withEws (newShapeInfo 'c' [B, C, H, W]) 1) buffer).element [b, c, y, x] =
          windowSum (fun k => input.element [b, k, y, x] ^ 2) C reach c := by
  obtain ⟨activitySqr, sumPart, hsquares, hshape, hvalue, hdup, hinfo, hstart⟩ :=
    exists_start himage hinput hfits hspan
  obtain ⟨buffer, hturns, hsums⟩ := foldlM_addNeighbours himage hshape hstart hreach hspan
  rw [hinfo] at hturns hsums
  refine ⟨buffer, ?_, fun b hb c hc y hy x hx => ?_⟩
  · rw [windowSums, hsquares]
    simp only [bind, Except.bind, hdup, hinput.shape_eq, List.getD_cons_succ, List.getD_cons_zero,
      Int.toNat_natCast]
    exact hturns
  · rw [hsums.sum_eq b hb c hc y hy x hx, windowSum, windowSum]
    refine Finset.sum_congr rfl fun k hk => ?_
    have hkC := Finset.mem_range.mp (Finset.mem_filter.mp hk).1
    exact hvalue _ (inBox_image.mpr ⟨hb, hkC, hy, hx⟩)

/-- The turns fail where one shifts by all channels. -/
theorem windowSums_of_ge (hreach : C ≤ reach) : ∃ e, windowSums run input reach = .error e := by
  obtain ⟨activitySqr, sumPart, hsquares, -, -, hdup, -, -⟩ :=
    exists_start himage hinput hfits hspan
  have hturn : C ∈ List.range' 1 reach := by
    rw [List.mem_range'_1]
    have hchannel := himage.channel
    omega
  obtain ⟨e, he⟩ := Runs.foldlM_of_failing 
    (fun s => addNeighbours_of_channels run activitySqr s C) hturn sumPart
  refine ⟨e, ?_⟩
  rw [windowSums, hsquares]
  simp only [bind, Except.bind, hdup, hinput.shape_eq, List.getD_cons_succ, List.getD_cons_zero,
    Int.toNat_natCast]
  exact he

omit hspan

omit hfits

omit hinput

omit himage

/-- An array with cells behind its length has no array of squares. -/
theorem windowSums_of_not_fits (hfits : ¬ LiesInLength input.shapeInfo) (halfDepth : Int) :
    windowSums run input halfDepth = .error .undefined := by
  rw [windowSums, activitySquares, if_neg hfits]
  rfl

end Sums

/-! ## When the operation is right -/

section Right

variable {T : Type} [Field T] [LinearOrder T] [IsStrictOrderedRing T] [FloorRing T]
  {run : Runtime T} {pow : T → T → T} {block : LrnBlock T} {B C H W : Nat}

/-- The input has a channel, and all arrays have its shape; extents are of the type `int`. -/
structure LrnBlock.WellFormed (block : LrnBlock T) (B C H W : Nat) : Prop where
  image : NonemptyImage B C H W
  channel_lt : C < 2 ^ 31
  depth_nonneg : 0 ≤ block.depth
  input : ImageLayout block.input.shapeInfo B C H W
  z : ImageLayout block.z.shapeInfo B C H W
  unitScale : ImageLayout block.unitScale.shapeInfo B C H W
  scale : ImageLayout block.scale.shapeInfo B C H W

omit [IsStrictOrderedRing T] in
theorem truncate_of_lt {v : T} (hv : 0 ≤ v) (hlt : ⌊v⌋ < 2 ^ 31) : truncate v = .ok ⌊v⌋ := by
  have hfloor : 0 ≤ ⌊v⌋ := Int.floor_nonneg.mpr hv
  have hrange : -2 ^ 31 ≤ ⌊v⌋ ∧ ⌊v⌋ < 2 ^ 31 := ⟨by omega, hlt⟩
  simp only [truncate, if_pos hv, if_pos hrange]

theorem rank_of_shape {info : ShapeInfo} (hshape : info.shape = [B, C, H, W]) : info.rank = 4 := by
  rw [ShapeInfo.rank, hshape]
  rfl

/-- What is computed from the sums. -/
theorem lrn_of_windowSums (h : block.WellFormed B C H W) (hinplace : block.inplace = false)
    (hspan : SpansFit run.settings (B * C * H * W)) (hdepth : ⌊block.depth / 2⌋ < 2 ^ 31)
    {sums : Int → T} (hsums : windowSums run block.input ⌊block.depth / 2⌋ =
      .ok ⟨withEws (newShapeInfo 'c' [B, C, H, W]) 1, sums⟩) :
    ∃ result, lrn run pow block = .ok result ∧ ∀ b < B, ∀ c < C, ∀ y < H, ∀ x < W,
      result.unitScale.element [b, c, y, x] =
        (NDArray.mk (withEws (newShapeInfo 'c' [B, C, H, W]) 1) sums).element [b, c, y, x] *
          block.alpha + block.bias ∧
      result.scale.element [b, c, y, x] =
        pow (result.unitScale.element [b, c, y, x]) (-block.beta) ∧
      result.z.element [b, c, y, x] =
        block.input.element [b, c, y, x] * result.scale.element [b, c, y, x] := by
  have hshape : (withEws (newShapeInfo 'c' [B, C, H, W]) 1).shape = [B, C, H, W] := by
    rw [shape_withEws, shape_newShapeInfo]
  have hspan' : ∀ {info : ShapeInfo}, info.shape = [B, C, H, W] →
      SpanFits run.settings info.length := by
    intro info hinfo
    refine hspan _ (le_of_eq ?_)
    simp [ShapeInfo.length, hinfo, mul_assoc]
  have hne : [B, C, H, W] ≠ [] := List.cons_ne_nil _ _
  obtain ⟨products, hproducts, hproductsValue⟩ := @scalarTo_spec T
    ⟨withEws (newShapeInfo 'c' [B, C, H, W]) 1, sums⟩ block.unitScale (fun d1 d2 => d1 * d2) run
    block.alpha (h.unitScale.shape_eq.trans hshape.symm) (h.image.positive hshape)
    (honestEws_withEws (Or.inl rfl) _) h.unitScale.honest h.unitScale.cellsApart rfl
    h.unitScale.offset_eq
  obtain ⟨unitScale, hunit, hunitValue⟩ := @scalarInto_spec T ⟨block.unitScale.shapeInfo, products⟩
    (fun d1 d2 => d1 + d2) run block.bias (h.image.positive h.unitScale.shape_eq)
    h.unitScale.honest h.unitScale.cellsApart h.unitScale.offset_eq
  obtain ⟨scale, hscale, hscaleValue⟩ := @transformTo_spec T ⟨block.unitScale.shapeInfo, unitScale⟩
    block.scale (fun d1 => pow d1 (-block.beta)) run
    (h.scale.shape_eq.trans h.unitScale.shape_eq.symm) (h.image.positive h.unitScale.shape_eq)
    h.unitScale.honest h.scale.honest h.scale.cellsApart (hspan' h.unitScale.shape_eq)
  obtain ⟨z, hz, hzValue⟩ := @pairwiseTo_spec T block.input ⟨block.scale.shapeInfo, scale⟩ block.z
    (fun d1 d2 => d1 * d2) run (h.scale.shape_eq.trans h.input.shape_eq.symm)
    (h.z.shape_eq.trans h.input.shape_eq.symm) (h.image.positive h.input.shape_eq)
    (by rw [h.input.shape_eq]; exact hne) h.input.honest h.scale.honest h.z.honest h.z.cellsApart
    (hspan' h.input.shape_eq)
  refine ⟨⟨⟨block.z.shapeInfo, z⟩, ⟨block.unitScale.shapeInfo, unitScale⟩,
    ⟨block.scale.shapeInfo, scale⟩⟩, ?_, fun b hb c hc y hy x hx => ?_⟩
  · have hrank : ¬ block.input.shapeInfo.rank ≠ 4 := not_not.mpr (rank_of_shape h.input.shape_eq)
    have hhalf : truncate (block.depth / 2) = .ok ⌊block.depth / 2⌋ :=
      truncate_of_lt (div_nonneg h.depth_nonneg zero_le_two) hdepth
    rw [lrn, hinplace, if_neg Bool.false_ne_true, if_neg hrank]
    simp only [bind, Except.bind, hhalf, hsums, hproducts, hunit, hscale, hz, pure, Except.pure]
  · have hbox : InBox [B, C, H, W] [b, c, y, x] := inBox_image.mpr ⟨hb, hc, hy, hx⟩
    refine ⟨?_, ?_, ?_⟩
    · rw [hunitValue _ (h.unitScale.shape_eq.symm ▸ hbox), hproductsValue _ (hshape.symm ▸ hbox)]
    · exact hscaleValue _ (h.unitScale.shape_eq.symm ▸ hbox)
    · exact hzValue _ (h.input.shape_eq.symm ▸ hbox)

/-- The operation is right exactly when it is not in place, its input has a cell for each of its
elements, and half of the depth is below the number of channels. -/
theorem normalises_iff (h : block.WellFormed B C H W)
    (hspan : SpansFit run.settings (B * C * H * W)) :
    Normalises run pow block B C H W ↔
      block.inplace = false ∧ LiesInLength block.input.shapeInfo ∧ ⌊block.depth / 2⌋₊ < C := by
  have hhalf : ⌊block.depth / 2⌋ = (⌊block.depth / 2⌋₊ : Nat) :=
    (Int.natCast_floor_eq_floor (div_nonneg h.depth_nonneg zero_le_two)).symm
  constructor
  · rintro ⟨sumPart, result, hsums, hlrn, -⟩
    refine ⟨?_, ?_, ?_⟩
    · by_contra hinplace
      rw [Bool.not_eq_false] at hinplace
      rw [lrn, hinplace, if_pos rfl] at hlrn
      cases hlrn
    · by_contra hfits
      rw [windowSums_of_not_fits hfits] at hsums
      cases hsums
    · by_contra hreach
      have hfits : LiesInLength block.input.shapeInfo := by
        by_contra hfits
        rw [windowSums_of_not_fits hfits] at hsums
        cases hsums
      obtain ⟨e, he⟩ := windowSums_of_ge h.image h.input hfits hspan (not_lt.mp hreach)
      rw [hhalf, he] at hsums
      cases hsums
  · rintro ⟨hinplace, hfits, hreach⟩
    obtain ⟨sums, hsums, hvalue⟩ := windowSums_spec h.image h.input hfits hspan hreach
    rw [← hhalf] at hsums
    have hdepth : ⌊block.depth / 2⌋ < 2 ^ 31 := by
      have hchannel := h.channel_lt
      omega
    obtain ⟨result, hresult, hright⟩ := lrn_of_windowSums h hinplace hspan hdepth hsums
    exact ⟨_, result, hsums, hresult, fun b hb c hc y hy x hx =>
      ⟨hvalue b hb c hc y hy x hx, hright b hb c hc y hy x hx⟩⟩

end Right

/-! ## Two channels -/

/-- An image of one pixel with two channels. -/
def twoChannels (v : Rat) : NDArray Rat :=
  ⟨newShapeInfo 'c' [1, 2, 1, 1], fun _ => v⟩

/-- A block with an image of two channels. -/
def twoChannelBlock (depth : Rat) : LrnBlock Rat where
  input := twoChannels 1
  z := twoChannels 0
  unitScale := twoChannels 0
  scale := twoChannels 0
  inplace := false
  alpha := 1
  beta := 1
  bias := 0
  depth := depth

theorem imageLayout_twoChannels (v : Rat) : ImageLayout (twoChannels v).shapeInfo 1 2 1 1 where
  shape_eq := shape_newShapeInfo 'c' [1, 2, 1, 1]
  honest := honestEws_newShapeInfo (Or.inl rfl) (by decide)
  cellsApart := cellsApart_newShapeInfo (Or.inl rfl) (by decide)
  offset_eq := rfl

theorem wellFormed_twoChannelBlock {depth : Rat} (hdepth : 0 ≤ depth) :
    (twoChannelBlock depth).WellFormed 1 2 1 1 where
  image := ⟨by decide, by decide, by decide, by decide⟩
  channel_lt := by decide
  depth_nonneg := hdepth
  input := imageLayout_twoChannels 1
  z := imageLayout_twoChannels 0
  unitScale := imageLayout_twoChannels 0
  scale := imageLayout_twoChannels 0

theorem spansFit_twoChannels :
    SpansFit (oneThread fun _ => (0 : Rat)).settings (1 * 2 * 1 * 1) := by
  unfold SpansFit
  decide

theorem liesInLength_twoChannels : LiesInLength (twoChannels 1).shapeInfo := by
  decide

theorem normalises_iff_twoChannels :
    Normalises (oneThread fun _ => 0) (fun d1 _ => d1) (twoChannelBlock 2) 1 2 1 1 :=
  (normalises_iff (wellFormed_twoChannelBlock (by norm_num)) spansFit_twoChannels).mpr
    ⟨rfl, liesInLength_twoChannels, by norm_num [twoChannelBlock]⟩

/-- A window that reaches two channels away is too wide for two channels. -/
theorem not_normalises_always :
    ¬ ∀ (run : Runtime Rat) (pow : Rat → Rat → Rat) (block : LrnBlock Rat) (B C H W : Nat),
      block.WellFormed B C H W → SpansFit run.settings (B * C * H * W) → block.inplace = false →
      Normalises run pow block B C H W := by
  intro h
  have hblock := @wellFormed_twoChannelBlock 4 (by norm_num)
  obtain ⟨sumPart, -, hsums, -⟩ := h (oneThread fun _ => 0) (fun d1 _ => d1) (twoChannelBlock 4)
    1 2 1 1 hblock spansFit_twoChannels rfl
  have hreach : ⌊(twoChannelBlock 4).depth / 2⌋ = ((2 : Nat) : Int) := by
    norm_num [twoChannelBlock]
  obtain ⟨e, he⟩ := windowSums_of_ge hblock.image hblock.input liesInLength_twoChannels
    spansFit_twoChannels (le_refl 2)
  rw [hreach] at hsums
  exact absurd (hsums.symm.trans he) (by simp)

end Ops
end LibND4J
