import LibND4J.Arrays.Operations
import Mathlib.Data.List.GetD

/-!
# The shape of a broadcast

`NDArray::broadcast` makes a new array of the shape to which two arrays broadcast.  The loop
that should refuse shapes that do not fit runs while its counter is at most one, so from ranks of two
on it is skipped, and below it runs into the slots in front of the shape information.

Main results:

- Theorem `broadcastShape_eq`: what the second loop makes of shapes that fit.
- Theorem `broadcastsRight_iff`: when the call throws or returns as it should.
-/

namespace LibND4J
namespace Arrays

open Shape

/-! ## The routine -/

/-- The rank and the extents, as they stand in the shape information. -/
def slot (info : ShapeInfo) (i : Nat) : Nat :=
  (info.rank :: info.shape).getD i 0

/-- The comparison of the first loop. -/
def refuses (bigger smaller : ShapeInfo) (i : Nat) : Bool :=
  slot bigger (bigger.rank - smaller.rank + i) ≠ slot smaller i ∧ slot bigger i ≠ 1 ∧
    slot smaller i ≠ 1

/-- The first loop from `i` on: if `i <= 1` holds, it holds for all that follow, and behind the
iteration of zero it reads in front of the shape information. -/
def checkFrom (bigger smaller : ShapeInfo) : Nat → Except Failure Unit
  | 0 =>
      if refuses bigger smaller 0 then
        .error (.thrown "Broadcast method: arrays have incompatible shapes !")
      else
        .error .undefined
  | i + 1 =>
      if refuses bigger smaller (i + 1) then
        .error (.thrown "Broadcast method: arrays have incompatible shapes !")
      else
        checkFrom bigger smaller i

/-- The first loop. -/
def checkShapes (bigger smaller : ShapeInfo) : Except Failure Unit :=
  if smaller.rank ≤ 1 then checkFrom bigger smaller smaller.rank else .ok ()

/-- One iteration of the second loop, on the extents of the new shape information; `j` is the
counter less one. -/
def broadcastStep (diff : Nat) (smallerShape shapeNew : List Nat) (j : Nat) : List Nat :=
  if shapeNew.getD (diff + j) 0 = 1 ∨ smallerShape.getD j 0 = 1 then
    shapeNew.set (diff + j) (shapeNew.getD (diff + j) 0 * smallerShape.getD j 0)
  else shapeNew

/-- The second loop. -/
def broadcastShape (biggerShape smallerShape : List Nat) : List Nat :=
  (List.range smallerShape.length).reverse.foldl
    (broadcastStep (biggerShape.length - smallerShape.length) smallerShape) biggerShape

/-- The array whose rank is greater; the other one if the ranks are the same. -/
def biggerOf (this other : ShapeInfo) : ShapeInfo :=
  if this.rank > other.rank then this else other

def smallerOf (this other : ShapeInfo) : ShapeInfo :=
  if this.rank > other.rank then other else this

/-- `NDArray::broadcast`. -/
def NDArray.broadcast {T : Type} [Zero T] (this other : NDArray T) : Except Failure (NDArray T) :=
  let order := this.shapeInfo.order
  if order ≠ other.shapeInfo.order then
    .error (.thrown "Broadcast method: arrays have different orders!")
  else
    let bigger := biggerOf this.shapeInfo other.shapeInfo
    let smaller := smallerOf this.shapeInfo other.shapeInfo
    checkShapes bigger smaller >>= fun _ =>
      .ok ⟨updateStrides (broadcastShape bigger.shape smaller.shape) order, fun _ => 0⟩

/-! ## What it should do -/

/-- Extents that lie above each other when the last axes are aligned. -/
def alignedExtents (a b : List Nat) : List (Nat × Nat) :=
  a.reverse.zip b.reverse

/-- Aligned extents differ only where one of them is one. -/
def Compatible (a b : List Nat) : Prop :=
  ∀ p ∈ alignedExtents a b, p.1 = p.2 ∨ p.1 = 1 ∨ p.2 = 1

instance (a b : List Nat) : Decidable (Compatible a b) :=
  inferInstanceAs (Decidable (∀ p ∈ alignedExtents a b, p.1 = p.2 ∨ p.1 = 1 ∨ p.2 = 1))

/-- The maximum of aligned extents, where a missing one counts as one. -/
def maxShape (a b : List Nat) : List Nat :=
  ((List.range (max a.length b.length)).map fun i =>
    max (a.reverse.getD i 1) (b.reverse.getD i 1)).reverse

/-- Shapes that do not fit are refused, others lead to a dense array of the maxima. -/
structure BroadcastsRight {T : Type} [Zero T] (this other : NDArray T) : Prop where
  refused : ¬ Compatible this.shapeInfo.shape other.shapeInfo.shape →
    this.broadcast other =
      .error (.thrown "Broadcast method: arrays have incompatible shapes !")
  returned : Compatible this.shapeInfo.shape other.shapeInfo.shape →
    ∃ ret, this.broadcast other = .ok ret ∧
      ret.shapeInfo.shape = maxShape this.shapeInfo.shape other.shapeInfo.shape ∧
      ret.shapeInfo.order = this.shapeInfo.order ∧ Consecutive ret.shapeInfo.isFOrder ret.shapeInfo

/-! ## The shape -/

section Shapes

variable {a b : List Nat}

theorem compatible_comm : Compatible a b ↔ Compatible b a := by
  have hswap : alignedExtents b a = (alignedExtents a b).map Prod.swap :=
    (List.zip_swap _ _).symm
  rw [Compatible, Compatible, hswap, List.forall_mem_map]
  refine forall₂_congr fun p _ => ?_
  simp only [Prod.fst_swap, Prod.snd_swap]
  omega

theorem maxShape_comm (a b : List Nat) : maxShape a b = maxShape b a := by
  simp only [maxShape, Nat.max_comm]

/-- The entry of a new shape. -/
def broadcastExtent (big small : Nat) : Nat :=
  if big = 1 ∨ small = 1 then big * small else big

theorem broadcastStep_eq (diff : Nat) (small shape : List Nat) (j : Nat) :
    broadcastStep diff small shape j =
      shape.set (diff + j) (broadcastExtent (shape.getD (diff + j) 0) (small.getD j 0)) := by
  rw [broadcastStep, broadcastExtent]
  split
  · rfl
  · by_cases hj : diff + j < shape.length
    · rw [List.getD_eq_getElem _ _ hj, List.set_getElem_self]
    · rw [List.set_eq_of_length_le (not_lt.mp hj)]

/-- The loop replaces the extents that lie above one of the smaller shape. -/
theorem getD_broadcastLoop (diff : Nat) (small : List Nat) {n : Nat} {shape : List Nat}
    (hn : diff + n ≤ shape.length) (i : Nat) :
    ((List.range n).reverse.foldl (broadcastStep diff small) shape).getD i 0 =
      if diff ≤ i ∧ i < diff + n then broadcastExtent (shape.getD i 0) (small.getD (i - diff) 0)
      else shape.getD i 0 := by
  induction n generalizing shape with
  | zero =>
      rw [if_neg (by omega)]
      rfl
  | succ n ih =>
      rw [List.range_succ, List.reverse_append, List.reverse_singleton, List.singleton_append,
        List.foldl_cons, broadcastStep_eq, ih (by rw [List.length_set]; omega)]
      have hget : ∀ v, (shape.set (diff + n) v).getD i 0 =
          if i = diff + n then v else shape.getD i 0 := by
        intro v
        rw [List.getD_eq_getElem?_getD, List.getD_eq_getElem?_getD, List.getElem?_set]
        by_cases hi : diff + n = i
        · rw [if_pos hi, if_pos (by omega), if_pos hi.symm]
          rfl
        · rw [if_neg hi, if_neg (Ne.symm hi)]
      rw [hget]
      by_cases hlast : i = diff + n
      · rw [if_neg (by omega), if_pos hlast, if_pos (by omega), hlast, Nat.add_sub_cancel_left]
      · rw [if_neg hlast]
        by_cases hbefore : diff ≤ i ∧ i < diff + n
        · rw [if_pos hbefore, if_pos (by omega)]
        · rw [if_neg hbefore, if_neg (by omega)]

theorem length_broadcastShape (a b : List Nat) : (broadcastShape a b).length = a.length := by
  have hloop : ∀ (schedule shape : List Nat),
      (schedule.foldl (broadcastStep (a.length - b.length) b) shape).length = shape.length := by
    intro schedule
    induction schedule with
    | nil => exact fun _ => rfl
    | cons j schedule ih =>
        intro shape
        rw [List.foldl_cons, ih, broadcastStep_eq, List.length_set]
  exact hloop _ _

/-- The extents of a broadcast, counted from the last one. -/
theorem broadcastExtent_eq_max {big small : Nat} (hbig : 0 < big) (hsmall : 0 < small)
    (h : big = small ∨ big = 1 ∨ small = 1) : broadcastExtent big small = max big small := by
  rw [broadcastExtent]
  split
  · rename_i hone
    rcases hone with rfl | rfl
    · rw [one_mul]
      omega
    · rw [mul_one]
      omega
  · omega

/-- Shapes that fit lead to the shape of the maxima. -/
theorem broadcastShape_eq (ha : ∀ d ∈ a, 0 < d) (hb : ∀ d ∈ b, 0 < d)
    (hlength : b.length ≤ a.length) (h : Compatible a b) : broadcastShape a b = maxShape a b := by
  apply List.ext_getElem
  · rw [length_broadcastShape, maxShape, List.length_reverse, List.length_map, List.length_range,
      Nat.max_eq_left hlength]
  · intro i hi hi'
    rw [length_broadcastShape] at hi
    rw [← List.getD_eq_getElem _ 0, broadcastShape, getD_broadcastLoop _ _ (by omega),
      List.getD_eq_getElem _ _ hi]
    simp only [maxShape, List.getElem_reverse, List.getElem_map, List.getElem_range,
      List.length_map, List.length_range, Nat.max_eq_left hlength]
    have hmirror : a.length - 1 - (a.length - 1 - i) = i := by omega
    have hbig : a.reverse.getD (a.length - 1 - i) 1 = a[i] := by
      rw [List.getD_eq_getElem _ _ (by rw [List.length_reverse]; omega), List.getElem_reverse]
      simp only [hmirror]
    rw [hbig]
    have hbigPos := ha _ (List.getElem_mem hi)
    by_cases hover : a.length - b.length ≤ i ∧ i < a.length - b.length + b.length
    · have hj : i - (a.length - b.length) < b.length := by omega
      have hindex : b.length - 1 - (a.length - 1 - i) = i - (a.length - b.length) := by omega
      have hsmall : b.reverse.getD (a.length - 1 - i) 1 = b[i - (a.length - b.length)] := by
        rw [List.getD_eq_getElem _ _ (by rw [List.length_reverse]; omega), List.getElem_reverse]
        simp only [hindex]
      rw [if_pos hover, hsmall, List.getD_eq_getElem _ _ hj]
      refine broadcastExtent_eq_max hbigPos (hb _ (List.getElem_mem hj)) ?_
      have hmem : (a[i], b[i - (a.length - b.length)]) ∈ alignedExtents a b := by
        rw [alignedExtents, List.mem_iff_getElem]
        refine ⟨a.length - 1 - i, by simp; omega, ?_⟩
        simp only [List.getElem_zip, List.getElem_reverse, hmirror, hindex]
      exact h _ hmem
    · rw [if_neg hover, List.getD_eq_default _ _ (by rw [List.length_reverse]; omega)]
      omega

end Shapes

/-! ## The check -/

section Check

variable {bigger smaller : ShapeInfo}

theorem checkShapes_of_two_le (h : 2 ≤ smaller.rank) : checkShapes bigger smaller = .ok () :=
  if_neg (by omega)

/-- With one axis the loop throws at once or runs on into the slots in front. -/
theorem checkShapes_of_one (h : smaller.rank = 1) :
    checkShapes bigger smaller = if refuses bigger smaller 1 then
      .error (.thrown "Broadcast method: arrays have incompatible shapes !") else
      .error .undefined := by
  have hslot : refuses bigger smaller 0 = false := by
    simp [refuses, slot, h]
  have hzero : checkFrom bigger smaller 0 = .error .undefined := by
    rw [checkFrom, if_neg (by rw [hslot]; decide)]
  rw [checkShapes, if_pos h.le, h, checkFrom, hzero]

theorem checkShapes_of_le_one (h : smaller.rank ≤ 1) :
    ∃ failure, checkShapes bigger smaller = .error failure := by
  rcases Nat.le_one_iff_eq_zero_or_eq_one.mp h with hzero | hone
  · rw [checkShapes, if_pos h, hzero, checkFrom]
    split
    · exact ⟨_, rfl⟩
    · exact ⟨_, rfl⟩
  · rw [checkShapes_of_one hone]
    split
    · exact ⟨_, rfl⟩
    · exact ⟨_, rfl⟩

/-- The one comparison of the loop looks at the first extent where it should look at the last. -/
theorem refuses_one_iff (hsmaller : smaller.rank = 1) (hrank : 1 ≤ bigger.rank)
    (h : ¬ Compatible bigger.shape smaller.shape) :
    refuses bigger smaller 1 = true ↔ bigger.shape.getD 0 0 ≠ 1 := by
  obtain ⟨s, hs⟩ : ∃ s, smaller.shape = [s] := List.length_eq_one_iff.mp hsmaller
  obtain ⟨front, last, hfront⟩ : ∃ front last, bigger.shape = front ++ [last] :=
    ⟨_, _, (List.dropLast_append_getLast (List.ne_nil_of_length_pos hrank)).symm⟩
  have hlast : bigger.shape.getD (bigger.rank - smaller.rank) 0 = last := by
    rw [hsmaller, ShapeInfo.rank, hfront]
    simp
  have hdiffer : last ≠ s ∧ last ≠ 1 ∧ s ≠ 1 := by
    rw [Compatible, alignedExtents, hs, hfront, List.reverse_append] at h
    simpa using h
  simp only [refuses, slot, hlast, hs, List.getD_cons_succ, List.getD_cons_zero, decide_eq_true_eq]
  tauto

end Check

/-! ## When the call is right -/

section Right

variable {T : Type} [Zero T] {this other : NDArray T}

theorem compatible_biggerOf (this other : ShapeInfo) :
    Compatible (biggerOf this other).shape (smallerOf this other).shape ↔
      Compatible this.shape other.shape := by
  rw [biggerOf, smallerOf]
  split
  · rfl
  · exact compatible_comm

theorem maxShape_biggerOf (this other : ShapeInfo) :
    maxShape (biggerOf this other).shape (smallerOf this other).shape =
      maxShape this.shape other.shape := by
  rw [biggerOf, smallerOf]
  split
  · rfl
  · exact maxShape_comm _ _

theorem rank_smallerOf_le (this other : ShapeInfo) :
    (smallerOf this other).rank ≤ (biggerOf this other).rank := by
  rw [biggerOf, smallerOf]
  split
  · rename_i hgt
    exact hgt.le
  · rename_i hle
    exact not_lt.mp hle

theorem biggerOf_positive {this other : ShapeInfo} (h : this.Positive) (h' : other.Positive) :
    (biggerOf this other).Positive ∧ (smallerOf this other).Positive := by
  rw [biggerOf, smallerOf]
  split
  · exact ⟨h, h'⟩
  · exact ⟨h', h⟩

theorem broadcast_eq (horder : this.shapeInfo.order = other.shapeInfo.order) :
    this.broadcast other =
      checkShapes (biggerOf this.shapeInfo other.shapeInfo) (smallerOf this.shapeInfo
        other.shapeInfo) >>= fun _ => .ok ⟨updateStrides (broadcastShape
          (biggerOf this.shapeInfo other.shapeInfo).shape (smallerOf this.shapeInfo
            other.shapeInfo).shape) this.shapeInfo.order, fun _ => 0⟩ := by
  rw [NDArray.broadcast, if_neg (not_not.mpr horder)]

/-- With shapes that fit the call is right exactly from ranks of two on; others are refused exactly
if the smaller rank is one and the first extent of the bigger array is not. -/
theorem broadcastsRight_iff (horder : this.shapeInfo.order = other.shapeInfo.order)
    (hflag : this.shapeInfo.order = 'c' ∨ this.shapeInfo.order = 'f')
    (hpos : this.shapeInfo.Positive) (hpos' : other.shapeInfo.Positive) :
    BroadcastsRight this other ↔
      if Compatible this.shapeInfo.shape other.shapeInfo.shape then
        2 ≤ (smallerOf this.shapeInfo other.shapeInfo).rank
      else
        (smallerOf this.shapeInfo other.shapeInfo).rank = 1 ∧
          (biggerOf this.shapeInfo other.shapeInfo).shape.getD 0 0 ≠ 1 := by
  have hcompatible := compatible_biggerOf this.shapeInfo other.shapeInfo
  have hmax := maxShape_biggerOf this.shapeInfo other.shapeInfo
  have hrank := rank_smallerOf_le this.shapeInfo other.shapeInfo
  obtain ⟨hbigger, hsmaller⟩ := biggerOf_positive hpos hpos'
  have hrun := broadcast_eq horder
  generalize biggerOf this.shapeInfo other.shapeInfo = bigger at *
  generalize smallerOf this.shapeInfo other.shapeInfo = smaller at *
  by_cases hfits : Compatible this.shapeInfo.shape other.shapeInfo.shape
  · rw [if_pos hfits]
    constructor
    · intro h
      by_contra hfew
      obtain ⟨failure, hfailure⟩ := @checkShapes_of_le_one bigger smaller (by omega)
      obtain ⟨ret, hret, -⟩ := h.returned hfits
      rw [hrun, hfailure] at hret
      cases hret
    · intro htwo
      rw [checkShapes_of_two_le htwo] at hrun
      refine ⟨fun h => absurd hfits h, fun _ => ⟨_, hrun, ?_, rfl, ?_⟩⟩
      · rw [← hmax]
        exact broadcastShape_eq hbigger hsmaller hrank (hcompatible.mpr hfits)
      · exact consecutive_updateStrides (broadcastShape bigger.shape smaller.shape) hflag
  · rw [if_neg hfits]
    constructor
    · intro h
      have hthrown := h.refused hfits
      rw [hrun] at hthrown
      have hpositive : 1 ≤ smaller.rank := by
        -- without axes of its own an array fits to every other one
        rw [Nat.one_le_iff_ne_zero]
        intro hzero
        refine hfits (hcompatible.mp fun p hp => ?_)
        have hnil : smaller.shape = [] := List.eq_nil_of_length_eq_zero hzero
        rw [alignedExtents, hnil] at hp
        simp at hp
      have hone : smaller.rank = 1 := by
        by_contra hne
        rw [checkShapes_of_two_le (by omega)] at hthrown
        cases hthrown
      refine ⟨hone, ?_⟩
      rw [← refuses_one_iff hone (hone ▸ hrank) (mt hcompatible.mp hfits)]
      by_contra hnot
      rw [checkShapes_of_one hone, if_neg hnot] at hthrown
      cases hthrown
    · rintro ⟨hone, hfirst⟩
      refine ⟨fun _ => ?_, fun h => absurd h hfits⟩
      rw [hrun, checkShapes_of_one hone,
        if_pos ((refuses_one_iff hone (hone ▸ hrank) (mt hcompatible.mp hfits)).mpr hfirst)]
      rfl

theorem broadcastsRight_iff_column :
    BroadcastsRight (NDArray.ofShape 'c' [3, 1] : NDArray Int) (NDArray.ofShape 'c' [3, 4]) ↔
      if Compatible [3, 1] [3, 4] then
        2 ≤ (smallerOf (shapeBuffer [3, 1]) (shapeBuffer [3, 4])).rank
      else
        (smallerOf (shapeBuffer [3, 1]) (shapeBuffer [3, 4])).rank = 1 ∧
          (biggerOf (shapeBuffer [3, 1]) (shapeBuffer [3, 4])).shape.getD 0 0 ≠ 1 :=
  @broadcastsRight_iff _ _ (NDArray.ofShape 'c' [3, 1]) (NDArray.ofShape 'c' [3, 4]) rfl
    (Or.inl rfl) (by decide) (by decide)

/-- Matrices of two and of four rows are not refused. -/
theorem not_broadcastsRight_always :
    ¬ ∀ this other : NDArray Int, this.shapeInfo.order = other.shapeInfo.order →
      (this.shapeInfo.order = 'c' ∨ this.shapeInfo.order = 'f') → this.shapeInfo.Positive →
      other.shapeInfo.Positive → BroadcastsRight this other := by
  intro h
  have hthrown := (h (NDArray.ofShape 'c' [2, 3]) (NDArray.ofShape 'c' [4, 3]) rfl (Or.inl rfl)
    (by decide) (by decide)).refused (by decide)
  rw [@broadcast_eq _ _ (NDArray.ofShape 'c' [2, 3]) (NDArray.ofShape 'c' [4, 3]) rfl,
    checkShapes_of_two_le (by decide)] at hthrown
  cases hthrown

end Right

end Arrays
end LibND4J
