import LibND4J.Shape.ShapeBuffer
import LibND4J.Shape.TadOffset
import LibND4J.Shape.WholeTad

/-!
# The examples of a batch

`allExamples` cuts an array along its first axis: the tensors along all other dimensions.

Main results:

- Theorem `tadOffset_allExamples`: example `e` starts `e` strides of the first axis
  behind the first.
- Theorem `tadOffset_shapeBuffer`: the examples of a dense array lie one after the other.
- Theorem `exampleArrays_eq`: above rank two the examples keep all other axes, with their
  strides.
-/

namespace LibND4J
namespace Shape

open Strided Selection

/-- The dimensions of `allExamples`. -/
def exampleDimensions {rank : Nat} (hrank : 2 ≤ rank) : Dimensions rank where
  toList := List.range' 1 (rank - 1)
  ne_nil := by
    rw [ne_eq, List.range'_eq_nil_iff]
    omega
  sorted := List.pairwise_lt_range'
  lt_rank := by
    intro d hd
    rw [List.mem_range'_1] at hd
    omega

/-- `allExamples`: the shape information that the examples share, and their offsets. -/
def allExamples (info : ShapeInfo) (hrank : 2 ≤ info.rank) : TAD :=
  TAD.init info (exampleDimensions hrank)

/-- The list of `allExamples`: the shape information of the arrays, and where each of them starts.
`none` stands for ranks below two, which arrays do not have. -/
def exampleArrays (info : ShapeInfo) : Option (ShapeInfo × List Int) :=
  if hrank : 2 ≤ info.rank then
    (allExamples info hrank).shapeInfoOnlyShapeAndStride.map fun ret =>
      (ret, (allExamples info hrank).createOffsets)
  else none

section Examples

variable {rank : Nat} (hrank : 2 ≤ rank)

theorem length_exampleDimensions : (exampleDimensions hrank).toList.length = rank - 1 :=
  List.length_range'

theorem mem_exampleDimensions (i : Nat) :
    (exampleDimensions hrank).mem i = true ↔ 1 ≤ i ∧ i < rank := by
  rw [Dimensions.mem, decide_eq_true_eq, exampleDimensions, List.mem_range'_1]
  omega

theorem kept_exampleDimensions {α : Type} (x : α) {xs : List α} (hlength : xs.length + 1 = rank) :
    (exampleDimensions hrank).kept (x :: xs) = xs := by
  have hfirst : (exampleDimensions hrank).mem 0 = false := by
    rw [Bool.eq_false_iff, ne_eq, mem_exampleDimensions]
    omega
  rw [Dimensions.kept, pick_cons_neg hfirst]
  apply pick_eq_self
  have hkept := length_kept (exampleDimensions hrank) (show (x :: xs).length = rank from hlength)
  rw [Dimensions.kept, pick_cons_neg hfirst, length_exampleDimensions] at hkept
  omega

theorem leftOver_exampleDimensions {α : Type} (x : α) {xs : List α}
    (hlength : xs.length + 1 = rank) : (exampleDimensions hrank).leftOver (x :: xs) = [x] := by
  have hfirst : (exampleDimensions hrank).mem 0 = false := by
    rw [Bool.eq_false_iff, ne_eq, mem_exampleDimensions]
    omega
  have hsum := length_kept_add (exampleDimensions hrank)
    (show (x :: xs).length = rank from hlength)
  rw [length_exampleDimensions] at hsum
  rw [Dimensions.leftOver, pick_not_cons_neg hfirst] at hsum ⊢
  rw [List.length_cons] at hsum
  congr 1
  exact List.eq_nil_of_length_eq_zero (by omega)

end Examples

section Offsets

variable {info : ShapeInfo} {a : Nat × Int} {axes : List (Nat × Int)}

theorem rank_of_axes (haxes : info.axes = a :: axes) : axes.length + 1 = info.rank := by
  rw [← info.length_axes, haxes, List.length_cons]

variable (hpos : info.Positive)

include hpos

/-- Example `e` starts `e` strides of the first axis behind the first. -/
theorem tadOffset_allExamples (hews : info.HonestEws) (hrank : 2 ≤ info.rank)
    (haxes : info.axes = a :: axes) (ha : 0 ≤ a.2) {e : Nat} (he : e < a.1) :
    (allExamples info hrank).tadOffset e = e * a.2 := by
  have hlength := rank_of_axes haxes
  have hleft : (exampleDimensions hrank).leftOver info.axes = [a] := by
    rw [haxes]
    exact leftOver_exampleDimensions hrank a hlength
  have hdims : (exampleDimensions hrank).leftOver info.shape = [a.1] := by
    rw [← dims_leftOver, hleft]
    rfl
  have hstride : (exampleDimensions hrank).leftOver info.stride = [a.2] := by
    rw [← map_snd_leftOver, hleft]
    rfl
  have hproper : (exampleDimensions hrank).toList.length < info.rank := by
    rw [length_exampleDimensions]
    omega
  have hvolume : volume (allExamples info hrank).leftOver = a.1 := by
    rw [volume, TAD.dims_leftOver]
    exact (congrArg List.prod hdims).trans (mul_one _)
  have hstarts : StartsAtCoordinates info (exampleDimensions hrank) := by
    rw [startsAtCoordinates_iff hpos hews hproper]
    refine Or.inr ⟨fun _ _ _ => Or.inr ?_, Or.inr fun c hc => ?_⟩
    · rw [hleft]
      exact List.length_filter_le _ _
    · rw [hdims] at hc
      rw [hstride]
      cases hc with
      | @cons _ u _ _ hlt htail =>
          cases htail
          rw [dot_cons, dot_nil_left, add_zero, nsmul_eq_mul]
          have hmul := mul_nonneg (Int.natCast_nonneg u) ha
          exact le_trans (by decide) hmul
  have hlt : e < volume (TAD.init info (exampleDimensions hrank)).leftOver := hvolume.symm ▸ he
  have hbase : (allExamples info hrank).base (decode [a.1] e) = e * a.2 := by
    rw [TAD.base]
    show dot (decode [a.1] e) ((exampleDimensions hrank).leftOver info.stride) = e * a.2
    rw [hstride, decode_cons, List.prod_nil, Nat.div_one, dot_cons, decode_nil, dot_nil_left,
      add_zero, nsmul_eq_mul]
  have hstart := hstarts e (by rwa [numTads_init hpos])
  rw [dot_start hpos hlt, hdims] at hstart
  exact hstart.trans hbase

theorem numTads_allExamples (hrank : 2 ≤ info.rank) (haxes : info.axes = a :: axes) :
    (allExamples info hrank).numTads = a.1 := by
  have hleft : (exampleDimensions hrank).leftOver info.axes = [a] := by
    rw [haxes]
    exact leftOver_exampleDimensions hrank a (rank_of_axes haxes)
  rw [allExamples, numTads_init hpos]
  exact (congrArg volume hleft).trans (by simp)

/-- Above rank two the examples keep all other axes, with their strides. -/
theorem shapeInfo_allExamples (hrank : 2 ≤ info.rank) (hlong : 2 < info.rank)
    (haxes : info.axes = a :: axes) :
    ∃ ret, (allExamples info hrank).shapeInfoOnlyShapeAndStride = some ret ∧
      ret.axes = axes ∧ ret.elementWiseStride = -1 := by
  have hlength := rank_of_axes haxes
  have hkept : (allExamples info hrank).kept = axes := by
    show (exampleDimensions hrank).kept info.axes = axes
    rw [haxes]
    exact kept_exampleDimensions hrank a hlength
  have hdimension : (allExamples info hrank).dimension.toList.length = info.rank - 1 :=
    length_exampleDimensions hrank
  have hnot : ∀ d, (allExamples info hrank).dimension.toList ≠ [d] := by
    intro d hd
    rw [hd, List.length_singleton] at hdimension
    omega
  have hgeneral : (allExamples info hrank).shapeInfoOnlyShapeAndStride =
      (sliceOfShapeBuffer (allExamples info hrank).firstSlice (permuteShapeBuffer info
        (removeIndex (List.range info.rank) (exampleDimensions hrank).toList ++
          (exampleDimensions hrank).toList.reverse))).bind
        (allExamples info hrank).tensorShapeInfo := by
    unfold TAD.shapeInfoOnlyShapeAndStride
    simp only
    rw [if_neg fun h => hnot _ h.2, if_neg (by omega), if_neg fun h => hnot _ h.1,
      if_neg fun h => hnot _ h.1, if_neg (by omega)]
    rfl
  have hpermuted := axes_permute_dimensions info (exampleDimensions hrank)
  generalize permuteShapeBuffer info
    (removeIndex (List.range info.rank) (exampleDimensions hrank).toList ++
      (exampleDimensions hrank).toList.reverse) = permuted at hpermuted hgeneral
  rw [haxes, leftOver_exampleDimensions hrank a hlength, kept_exampleDimensions hrank a hlength]
    at hpermuted
  have hsame : permuted.rank = info.rank := by
    rw [← permuted.length_axes, hpermuted]
    simpa [Nat.add_comm] using hlength
  obtain ⟨next, hnext, htail, -⟩ := slice_of_rank (hsame ▸ hlong)
    (allExamples info hrank).firstSlice
  rw [hpermuted] at htail
  refine ⟨reverseAxes next, ?_, ?_, rfl⟩
  · rw [hgeneral, hnext, Option.bind_some]
    have haxesPos : ∀ b ∈ axes, 0 < b.1 := fun b hb => hpos.axes b (by simp [haxes, hb])
    apply tensorShapeInfo_all (by omega)
    · intro d hd
      rw [← next.dims_axes, htail] at hd
      obtain ⟨b, hb, rfl⟩ := List.mem_map.mp hd
      exact haxesPos b (List.mem_reverse.mp hb)
    · rw [← next.length_axes, htail]
      simp only [List.singleton_append, List.tail_cons, List.length_reverse]
      omega
    · rw [← next.volume_axes, htail, hkept]
      simp
  · rw [axes_reverseAxes, htail]
    simp

/-- The examples of an array of rank above two. -/
theorem exampleArrays_eq (hews : info.HonestEws) (hlong : 2 < info.rank)
    (haxes : info.axes = a :: axes) (ha : 0 ≤ a.2) :
    ∃ ret, exampleArrays info = some (ret, (List.range a.1).map fun e : Nat => e * a.2) ∧
      ret.axes = axes ∧ ret.elementWiseStride = -1 := by
  have hrank : 2 ≤ info.rank := hlong.le
  obtain ⟨ret, hret, hshape, hslot⟩ := shapeInfo_allExamples hpos hrank hlong haxes
  refine ⟨ret, ?_, hshape, hslot⟩
  have hoffsets : (allExamples info hrank).createOffsets =
      (List.range a.1).map fun e : Nat => e * a.2 := by
    rw [TAD.createOffsets, numTads_allExamples hpos hrank haxes]
    refine List.map_congr_left fun e he => ?_
    exact tadOffset_allExamples hpos hews hrank haxes ha (List.mem_range.mp he)
  rw [exampleArrays, dif_pos hrank, hret, Option.map_some, hoffsets]

end Offsets

/-- The examples of a dense array in C order lie one after the other. -/
theorem tadOffset_shapeBuffer {d : Nat} {ds : List Nat} (hpos : ∀ n ∈ d :: ds, 0 < n)
    (hlong : 2 ≤ ds.length) (hrank : 2 ≤ (shapeBuffer (d :: ds)).rank) {e : Nat} (he : e < d) :
    (allExamples (shapeBuffer (d :: ds)) hrank).tadOffset e = (e * ds.prod : Nat) := by
  have hpositive : (shapeBuffer (d :: ds)).Positive := by
    intro n hn
    rw [shape_shapeBuffer] at hn
    exact hpos n hn
  rw [tadOffset_allExamples hpositive (honestEws_shapeBuffer hpos) hrank
    (axes_shapeBuffer_cons hlong) (Int.natCast_nonneg _) he]
  push_cast
  rfl

end Shape
end LibND4J
