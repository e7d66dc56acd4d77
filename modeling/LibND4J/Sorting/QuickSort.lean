import LibND4J.Library.HoareSort
import LibND4J.Library.Swaps
import LibND4J.Loops.BlockInformation
import LibND4J.Shape.Slices

/-!
# Sorting an array in place

`quickSort_parallel_internal` partitions a range of positions around the value in its middle
and sorts the two parts, itself or as tasks.  A position is turned into an address by
`getPosition`, so an array with strides is sorted in place; `sortTadGeneric` sorts all
tensors of an array.

Main results:

- Theorem `rule`: the scans stay inside their range, because each of them has an element that
  stops it.
- Theorem `sorts`: on any schedule the sort ends with the values in order.
- Theorem `sort_endAlike`: neither the schedule nor the cutoff changes the result.
- Theorem `not_terminates_always`: with a negative cutoff an empty range calls itself forever.
-/

namespace LibND4J
namespace Sorting

open HoareSort Shape Loops Swaps

def getPosition (xShapeInfo : ShapeInfo) (index : Int) : Int :=
  let xEWS := xShapeInfo.elementWiseStride
  if xEWS = 1 then
    index
  else if xEWS > 1 then
    toInt32 (index * xEWS)
  else
    let xCoord := ind2subC xShapeInfo.shape index.toNat
    toInt32 (getOffset 0 xShapeInfo.shape xShapeInfo.stride xCoord)

section Definitions

variable {T : Type} [LinearOrder T]

/-- The comparison that moves a scan on: `>` when sorting in descending order. -/
def comesFirst (descending : Bool) (a b : T) : Bool :=
  if descending then decide (a > b) else decide (a < b)

/-- `quickSort_parallel_internal`, on the arrays that start at `base`. -/
def quickSort_parallel_internal {τ : Type} (base : τ → Int) (xShapeInfo : ShapeInfo)
    (cutoff : Int) (descending : Bool) : Machine (Int → T) τ T where
  mid left right := (toInt32 (left + right)).tdiv 2
  pivotAt t array k := array (base t + getPosition xShapeInfo k)
  below t array i pivot := comesFirst descending (array (base t + getPosition xShapeInfo i)) pivot
  above t array j pivot := comesFirst descending pivot (array (base t + getPosition xShapeInfo j))
  swap t array i j :=
    exchange array (base t + getPosition xShapeInfo i) (base t + getPosition xShapeInfo j)
  cutoff := cutoff
  fetchReads k := [k]
  pivotReads _ := []

/-- The task that `quickSort_parallel` starts on a whole array. -/
def quickSort_parallel {τ : Type} (t : τ) (lenArray : Nat) : List (Frame τ T) :=
  [.call t 0 (toInt32 (lenArray - 1))]

/-- The cutoff of `quickSort_parallel`. -/
def defaultCutoff : Int :=
  1000

/-- The start of `sortGeneric`. -/
def sortGeneric (x : Int → T) (xShapeInfo : ShapeInfo) : Config (Int → T) Unit T :=
  ⟨x, [quickSort_parallel () xShapeInfo.length]⟩

/-- The number of tensors that `sortTadGeneric` counts. -/
def numTads (xShapeInfo : ShapeInfo) (dimension : List Nat) : Nat :=
  (toInt32 (xShapeInfo.length / tadLength xShapeInfo.shape dimension : Nat)).toNat

/-- The start of `sortTadGeneric`: the calls of the parallel loop over the tensors. -/
def sortTadGeneric (x : Int → T) (xShapeInfo : ShapeInfo) (dimension : List Nat) :
    Config (Int → T) (Fin (numTads xShapeInfo dimension)) T :=
  ⟨x, (List.finRange (numTads xShapeInfo dimension)).map fun r =>
    quickSort_parallel r (tadLength xShapeInfo.shape dimension)⟩

end Definitions

/-! ## The scans -/

section Scans

variable {T : Type} [LinearOrder T] {descending : Bool} {a b : T}

theorem comesFirst_iff :
    comesFirst descending a b = true ↔ if descending then b < a else a < b := by
  cases descending <;> simp [comesFirst]

theorem comesFirst_asymm (h : comesFirst descending a b = true) :
    comesFirst descending b a = false := by
  cases descending
  · simpa [comesFirst] using (by simpa [comesFirst] using h : a < b).le
  · simpa [comesFirst] using (by simpa [comesFirst] using h : b < a).le

theorem comesFirst_self (a : T) : comesFirst descending a a = false := by
  cases descending <;> simp [comesFirst]

/-- Not coming after is transitive. -/
theorem comesFirst_trans {c : T} (hab : comesFirst descending b a = false)
    (hbc : comesFirst descending c b = false) : comesFirst descending c a = false := by
  cases descending
  · simp only [comesFirst, Bool.false_eq_true, if_false, decide_eq_false_iff_not, not_lt] at *
    exact hab.trans hbc
  · simp only [comesFirst, if_true, decide_eq_false_iff_not, not_lt] at *
    exact hbc.trans hab

/-- The scans have passed only elements that belong on their side. -/
structure Scanned (descending : Bool) (e : Int → T) (l r i j : Int) (p : T) : Prop where
  left_le : l ≤ i
  le_right : i ≤ r + 1
  left_le' : l - 1 ≤ j
  le_right' : j ≤ r
  passed : ∀ k, l ≤ k → k < i → comesFirst descending p (e k) = false
  passed' : ∀ k, j < k → k ≤ r → comesFirst descending (e k) p = false

/-- An element stops both scans: it is still between them, or they have exchanged two. -/
def Stopper (descending : Bool) (e : Int → T) (l r i j : Int) (p : T) : Prop :=
  (∃ k, i ≤ k ∧ k ≤ j ∧ comesFirst descending (e k) p = false ∧
    comesFirst descending p (e k) = false) ∨ (l < i ∧ j < r)

/-- What holds of the scans in each phase. -/
def ScanPhase (descending : Bool) (e : Int → T) (l r i j : Int) (p : T) : Phase → Prop
  | .outer => i ≤ j + 2 ∧ (l ≤ r → Stopper descending e l r i j p)
  | .up => i ≤ j + 1 ∧ Stopper descending e l r i j p
  | .down => i ≤ j + 1 ∧ Stopper descending e l r i j p ∧ comesFirst descending (e i) p = false
  | .exchange => i ≤ j + 1 ∧ Stopper descending e l r i j p ∧
      comesFirst descending (e i) p = false ∧ comesFirst descending p (e j) = false

/-- The invariant of a partition. -/
def Partitioning (descending : Bool) (e : Int → T) (l r i j : Int) (p : T) (phase : Phase) : Prop :=
  Scanned descending e l r i j p ∧ ScanPhase descending e l r i j p phase

variable {e : Int → T} {l r i j : Int} {p : T}

theorem partitioning_start {mid : Int} (hlr : l ≤ r + 1) (hmid : l ≤ r → l ≤ mid ∧ mid ≤ r) :
    Partitioning descending e l r l r (e mid) .outer := by
  refine ⟨⟨le_rfl, hlr, by omega, le_rfl, fun k hk hk' => by omega, fun k hk hk' => by omega⟩,
    by omega, fun h => Or.inl ⟨mid, (hmid h).1, (hmid h).2, ?_, ?_⟩⟩
  · exact comesFirst_self _
  · exact comesFirst_self _

theorem Stopper.up_le (h : Stopper descending e l r i j p) (hij : i ≤ j + 1) (hj : j ≤ r) :
    i ≤ r := by
  rcases h with ⟨k, hik, hkj, -, -⟩ | ⟨-, hjr⟩ <;> omega

theorem Stopper.down_le (h : Stopper descending e l r i j p) (hij : i ≤ j + 1) (hi : l ≤ i) :
    l ≤ j := by
  rcases h with ⟨k, hik, hkj, -, -⟩ | ⟨hli, -⟩ <;> omega

theorem partitioning_up (h : Partitioning descending e l r i j p .up)
    (hfirst : comesFirst descending (e i) p = true) :
    Partitioning descending e l r (i + 1) j p .up := by
  obtain ⟨hscan, hij, hstop⟩ := h
  have hir := hstop.up_le hij hscan.le_right'
  have hle := hscan.left_le
  refine ⟨⟨by omega, by omega, hscan.left_le', hscan.le_right', fun k hk hk' => ?_,
    hscan.passed'⟩, ?_⟩
  · rcases lt_or_eq_of_le (show k ≤ i by omega) with hki | rfl
    · exact hscan.passed k hk hki
    · exact comesFirst_asymm hfirst
  · rcases hstop with ⟨k, hik, hkj, hbefore, hafter⟩ | ⟨hli, hjr⟩
    · have hne : i ≠ k := by
        rintro rfl
        rw [hfirst] at hbefore
        cases hbefore
      exact ⟨by omega, Or.inl ⟨k, by omega, hkj, hbefore, hafter⟩⟩
    · -- an element that the other scan has passed stops this one
      have hij' : i ≤ j := by
        by_contra hlt
        have := hscan.passed' i (by omega) hir
        rw [hfirst] at this
        cases this
      exact ⟨by omega, Or.inr ⟨by omega, hjr⟩⟩

theorem partitioning_down (h : Partitioning descending e l r i j p .down)
    (hfirst : comesFirst descending p (e j) = true) :
    Partitioning descending e l r i (j - 1) p .down := by
  obtain ⟨hscan, hij, hstop, hi⟩ := h
  have hlj := hstop.down_le hij hscan.left_le
  have hle := hscan.le_right'
  refine ⟨⟨hscan.left_le, hscan.le_right, by omega, by omega, hscan.passed, fun k hk hk' => ?_⟩, ?_⟩
  · rcases lt_or_eq_of_le (show j ≤ k by omega) with hjk | rfl
    · exact hscan.passed' k hjk hk'
    · exact comesFirst_asymm hfirst
  · rcases hstop with ⟨k, hik, hkj, hbefore, hafter⟩ | ⟨hli, hjr⟩
    · have hne : j ≠ k := by
        rintro rfl
        rw [hfirst] at hafter
        cases hafter
      exact ⟨by omega, Or.inl ⟨k, hik, by omega, hbefore, hafter⟩, hi⟩
    · have hij' : i ≤ j := by
        by_contra hlt
        have := hscan.passed j hlj (by omega)
        rw [hfirst] at this
        cases this
      exact ⟨by omega, Or.inr ⟨hli, by omega⟩, hi⟩

/-- After an exchange both scans have passed what they stopped at. -/
theorem partitioning_swap {e' : Int → T} (h : Partitioning descending e l r i j p .exchange)
    (hij : i ≤ j) (he : ∀ k, l ≤ k → k ≤ r → e' k = e (Equiv.swap i j k)) :
    Partitioning descending e' l r (i + 1) (j - 1) p .outer := by
  obtain ⟨hscan, -, -, hi, hj⟩ := h
  have hli := hscan.left_le
  have hjr := hscan.le_right'
  refine ⟨⟨by omega, by omega, by omega, by omega, fun k hk hk' => ?_, fun k hk hk' => ?_⟩,
    by omega, fun _ => Or.inr ⟨by omega, by omega⟩⟩
  · rw [he k hk (by omega)]
    rcases lt_or_eq_of_le (show k ≤ i by omega) with hki | rfl
    · rw [Equiv.swap_apply_of_ne_of_ne (by omega) (by omega)]
      exact hscan.passed k hk hki
    · rwa [Equiv.swap_apply_left]
  · rw [he k (by omega) hk']
    rcases lt_or_eq_of_le (show j ≤ k by omega) with hjk | rfl
    · rw [Equiv.swap_apply_of_ne_of_ne (by omega) (by omega)]
      exact hscan.passed' k hjk hk'
    · rwa [Equiv.swap_apply_right]

theorem partitioning_skip (h : Partitioning descending e l r i j p .exchange) (hji : j < i) :
    Partitioning descending e l r i j p .outer := by
  obtain ⟨hscan, hij, hstop, -⟩ := h
  exact ⟨hscan, by omega, fun _ => hstop⟩

/-- An ended partition has passed an element with each scan. -/
theorem partitioning_smaller (h : Partitioning descending e l r i j p .outer) (hji : j < i)
    (hlr : l ≤ r) : l < i ∧ j < r := by
  rcases h.2.2 hlr with ⟨k, hik, hkj, -⟩ | hboth
  · omega
  · exact hboth

/-- The invariant is about the elements of the range. -/
theorem Partitioning.congr {e' : Int → T} {phase : Phase}
    (h : Partitioning descending e l r i j p phase) (he : ∀ k, l ≤ k → k ≤ r → e' k = e k) :
    Partitioning descending e' l r i j p phase := by
  obtain ⟨hscan, hphase⟩ := h
  have hli := hscan.left_le
  have hjr := hscan.le_right'
  have hstop : Stopper descending e l r i j p → Stopper descending e' l r i j p := by
    rintro (⟨k, hik, hkj, hk⟩ | hboth)
    · exact Or.inl ⟨k, hik, hkj, by rwa [he k (by omega) (by omega)]⟩
    · exact Or.inr hboth
  refine ⟨⟨hli, hscan.le_right, hscan.left_le', hjr, fun k hk hk' => ?_, fun k hk hk' => ?_⟩, ?_⟩
  · rw [he k hk (by have := hscan.le_right; omega)]
    exact hscan.passed k hk hk'
  · rw [he k (by have := hscan.left_le'; omega) hk']
    exact hscan.passed' k hk hk'
  · cases phase with
    | outer => exact ⟨hphase.1, fun h => hstop (hphase.2 h)⟩
    | up => exact ⟨hphase.1, hstop hphase.2⟩
    | down =>
        obtain ⟨hij, hs, hi⟩ := hphase
        exact ⟨hij, hstop hs, by rwa [he i hli (hs.up_le hij hjr)]⟩
    | exchange =>
        obtain ⟨hij, hs, hi, hj⟩ := hphase
        exact ⟨hij, hstop hs, by rwa [he i hli (hs.up_le hij hjr)],
          by rwa [he j (hs.down_le hij hli) hjr]⟩

end Scans

/-! ## The sort -/

section Runs

variable {T τ : Type} [LinearOrder T] {base : τ → Int} {xShapeInfo : ShapeInfo} {n : Nat}
variable {cutoff : Int} {descending : Bool}

/-- The element at a position of an array. -/
def element (base : τ → Int) (xShapeInfo : ShapeInfo) (t : τ) (array : Int → T) (k : Int) : T :=
  array (base t + getPosition xShapeInfo k)

/-- Different positions of the arrays have different addresses. -/
def PositionsApart (base : τ → Int) (xShapeInfo : ShapeInfo) (n : Nat) : Prop :=
  ∀ t t' (k k' : Int), 0 ≤ k → k < n → 0 ≤ k' → k' < n →
    base t + getPosition xShapeInfo k = base t' + getPosition xShapeInfo k' → t = t' ∧ k = k'

/-- A run of the sort, on some schedule. -/
abbrev Reaches (base : τ → Int) (xShapeInfo : ShapeInfo) (cutoff : Int) (descending : Bool)
    (k : Nat) (c d : Config (Int → T) τ T) : Prop :=
  Steps (quickSort_parallel_internal base xShapeInfo cutoff descending) anyExchange k c d

/-- What the sort guarantees on any schedule. -/
structure Sorts (base : τ → Int) (xShapeInfo : ShapeInfo) (n : Nat) (cutoff : Int)
    (descending : Bool) (start : Config (Int → T) τ T) : Prop where
  terminates : ∃ bound : Nat, ∀ k d, Reaches base xShapeInfo cutoff descending k start d → k ≤ bound
  goes_on : ∀ k d, Reaches base xShapeInfo cutoff descending k start d → d.frames ≠ [] →
    ∃ e, Reaches base xShapeInfo cutoff descending (k + 1) start e
  inside : ∀ k d, Reaches base xShapeInfo cutoff descending k start d → ∀ f ∈ d.frames,
    ∀ place ∈
      (quickSort_parallel_internal (T := T) base xShapeInfo cutoff descending).accesses f,
      0 ≤ place ∧ place < n
  ordered : ∀ k d, Reaches base xShapeInfo cutoff descending k start d → d.frames = [] →
    ∀ t (a b : Int), 0 ≤ a → a < b → b < n →
      if descending then element base xShapeInfo t d.state b ≤ element base xShapeInfo t d.state a
      else element base xShapeInfo t d.state a ≤ element base xShapeInfo t d.state b
  permuted : ∀ k d, Reaches base xShapeInfo cutoff descending k start d → ∀ t,
    Permuted n (element base xShapeInfo t start.state) (element base xShapeInfo t d.state)
  untouched : ∀ k d, Reaches base xShapeInfo cutoff descending k start d → ∀ cell,
    (∀ t (place : Int), 0 ≤ place → place < n → base t + getPosition xShapeInfo place ≠ cell) →
      d.state cell = start.state cell

variable (descending cutoff) in
/-- The elements of the arrays are permuted by exchanges. -/
theorem observes (hapart : PositionsApart base xShapeInfo n) :
    Observes (quickSort_parallel_internal (T := T) base xShapeInfo cutoff descending) n
      (element base xShapeInfo) where
  exchanged := by
    intro t array u v k hu hu' hv hv' hk hk'
    have hcell : ∀ w : Int, 0 ≤ w → w < n →
        (base t + getPosition xShapeInfo k = base t + getPosition xShapeInfo w ↔ k = w) :=
      fun w hw hw' => ⟨fun h => (hapart t t k w hk hk' hw hw' h).2, fun h => by rw [h]⟩
    simp only [element, quickSort_parallel_internal, exchange_apply, Equiv.swap_apply_def,
      hcell u hu hu', hcell v hv hv']
    split
    · rfl
    · split <;> rfl
  others := by
    intro t t' array u v k ht hu hu' hv hv' hk hk'
    have hcell : ∀ w : Int, 0 ≤ w → w < n →
        base t + getPosition xShapeInfo k ≠ base t' + getPosition xShapeInfo w :=
      fun w hw hw' h => ht (hapart t t' k w hk hk' hw hw' h).1
    exact exchange_of_ne array (hcell u hu hu') (hcell v hv hv')

/-- The middle of a range of the array; an empty range has a place next to it. -/
theorem middle {left right : Int} (hrange : InRange n left right) (hn : 1 ≤ n)
    (hn' : n ≤ 2 ^ 30) : 0 ≤ (toInt32 (left + right)).tdiv 2 ∧
      (toInt32 (left + right)).tdiv 2 < n ∧
      (left ≤ right → left ≤ (toInt32 (left + right)).tdiv 2 ∧
        (toInt32 (left + right)).tdiv 2 ≤ right) := by
  obtain ⟨h0, hright, hle⟩ := hrange
  have hsum : toInt32 (left + right) = left + right := by
    simp only [toInt32, Int.bmod]
    omega
  rw [hsum]
  rcases lt_or_ge right left with hempty | hsome
  · rcases lt_or_ge (left + right) 0 with hneg | hnonneg
    · have hzero : left + right = -1 := by omega
      rw [hzero]
      exact ⟨by decide, by simp only [Int.reduceNeg, Int.reduceTDiv]; omega, fun h => by omega⟩
    · rw [Int.tdiv_eq_ediv_of_nonneg hnonneg]
      omega
  · rw [Int.tdiv_eq_ediv_of_nonneg (by omega)]
    omega

variable (descending cutoff) in
theorem rule (hapart : PositionsApart base xShapeInfo n) (hn : 1 ≤ n) (hn' : n ≤ 2 ^ 30) :
    Rule (quickSort_parallel_internal (T := T) base xShapeInfo cutoff descending) anyExchange n
      (fun t array l r i j p phase =>
        Partitioning descending (element base xShapeInfo t array) l r i j p phase) where
  start hrange := partitioning_start hrange.2.2 (middle hrange hn hn').2.2
  bounds h := ⟨h.1.left_le, h.1.le_right, h.1.left_le', h.1.le_right'⟩
  again h hij := ⟨h.1, by omega, h.2.2 (h.1.left_le.trans (hij.trans h.1.le_right'))⟩
  up_le h := h.2.2.up_le h.2.1 h.1.le_right'
  up_step h hb := partitioning_up h hb
  up_stop h hb := ⟨h.1, h.2.1, h.2.2, hb⟩
  down_le h := h.2.2.1.down_le h.2.1 h.1.left_le
  down_step h ha := partitioning_down h ha
  down_stop h ha := ⟨h.1, h.2.1, h.2.2.1, h.2.2.2, ha⟩
  swap hrange h hij _ := by
    obtain ⟨h0, hright, -⟩ := hrange
    have hli := h.1.left_le
    have hjr := h.1.le_right'
    refine partitioning_swap h hij fun k hk hk' => ?_
    exact (observes cutoff descending hapart).exchanged (by omega) (by omega) (by omega) (by omega)
      (by omega) (by omega)
  skip h hji := partitioning_skip h hji
  smaller h hji hlr := partitioning_smaller h hji hlr
  fetch_inside hrange k hk := by
    have hmid := middle hrange hn hn'
    simp only [quickSort_parallel_internal, List.mem_singleton] at hk
    rw [hk]
    exact ⟨hmid.1, hmid.2.1⟩
  pivot_inside := by
    intro t array l r i j p phase _ _ k hk
    simp [quickSort_parallel_internal] at hk
  elsewhere := by
    rintro t array l r i j p phase t' u v ⟨h0, hright, -⟩ h hu hv houtside
    refine h.congr fun k hk hk' => ?_
    by_cases htag : t = t'
    · subst htag
      obtain ⟨hu', hv'⟩ := houtside rfl
      rw [(observes cutoff descending hapart).exchanged hu.1 hu.2 hv.1 hv.2 (by omega) (by omega),
        Equiv.swap_apply_of_ne_of_ne (by omega) (by omega)]
    · exact (observes cutoff descending hapart).others htag hu.1 hu.2 hv.1 hv.2 (by omega)
        (by omega)

/-- When a partition ends, its parts are in order. -/
theorem parts : Parts n (fun a b : T => comesFirst descending b a = false)
    (element base xShapeInfo) (fun t array l r i j p phase =>
      Partitioning descending (element base xShapeInfo t array) l r i j p phase) := by
  intro t array l r i j p _ h hji a b hla hai hjb hbr _
  exact comesFirst_trans (h.1.passed a hla hai) (h.1.passed' b hjb hbr)

/-- Calls on whole arrays. -/
def wholeArrays (x : Int → T) (tags : List τ) (n : Nat) : Config (Int → T) τ T :=
  ⟨x, tags.map fun t => quickSort_parallel t n⟩

omit [LinearOrder T] in
theorem frames_wholeArrays (x : Int → T) (tags : List τ) (hn : 1 ≤ n) (hn' : n ≤ 2 ^ 30) :
    (wholeArrays x tags n).frames = tags.map fun t => .call t 0 (n - 1) := by
  have hright : toInt32 ((n : Int) - 1) = n - 1 := toInt32_of_lt (by omega) (by omega)
  simp only [Config.frames, wholeArrays, quickSort_parallel, hright]
  rw [← List.flatMap_def]
  exact List.map_eq_flatMap.symm

variable {tags : List τ}

omit [LinearOrder T] in
theorem valid_wholeArrays (inv : τ → (Int → T) → Int → Int → Int → Int → T → Phase → Prop)
    (x : Int → T) (htags : tags.Nodup) (hn : 1 ≤ n) (hn' : n ≤ 2 ^ 30) :
    Valid n inv (wholeArrays x tags n) := by
  refine ⟨?_, ?_⟩
  · rw [frames_wholeArrays x tags hn hn']
    intro f hf
    obtain ⟨t, -, rfl⟩ := List.mem_map.mp hf
    exact ⟨le_rfl, by omega, by omega⟩
  · rw [frames_wholeArrays x tags hn hn', List.pairwise_map]
    exact htags.imp fun hne t k hk hk' => hne (hk.1.trans hk'.1.symm)

omit [LinearOrder T] in
theorem sorting_wholeArrays {le : T → T → Prop} {elem : τ → (Int → T) → Int → T} (x : Int → T)
    (hall : ∀ t, t ∈ tags) (hn : 1 ≤ n) (hn' : n ≤ 2 ^ 30) :
    HoareSort.Sorting n le elem (wholeArrays x tags n) := by
  intro t a b ha hab hb
  refine Or.inl ⟨.call t 0 (n - 1), ?_, ⟨rfl, ha, ?_⟩, ⟨rfl, ha.trans hab.le, ?_⟩⟩
  · rw [frames_wholeArrays x tags hn hn']
    exact List.mem_map_of_mem (hall t)
  · simp only [Frame.right]
    omega
  · simp only [Frame.right]
    omega

theorem sorts (hapart : PositionsApart base xShapeInfo n) (hn : 1 ≤ n) (hn' : n ≤ 2 ^ 30)
    (hcut : 0 ≤ cutoff) (descending : Bool) (htags : tags.Nodup) (hall : ∀ t, t ∈ tags)
    (x : Int → T) : Sorts base xShapeInfo n cutoff descending (wholeArrays x tags n) := by
  have R := rule (T := T) cutoff descending hapart hn hn'
  have O := observes (T := T) cutoff descending hapart
  have hvalid := valid_wholeArrays (fun t array l r i j p phase =>
    Partitioning descending (element base xShapeInfo t array) l r i j p phase) x htags hn hn'
  refine ⟨⟨(wholeArrays x tags n).weight.toNat, fun k d h => ?_⟩, fun k d h hne => ?_,
    fun k d h => R.accesses_inside hvalid h, fun k d h hend t a b ha hab hb => ?_,
    fun k d h t => R.perm_of_steps O hvalid h t, fun k d h cell hcell => ?_⟩
  · have hle := R.steps_le hcut hvalid h
    omega
  · obtain ⟨e, he⟩ := exists_step hne
    exact ⟨e, h.tail he⟩
  · have hle := R.ordered_of_steps O parts hvalid (sorting_wholeArrays x hall hn hn') h hend t
      ha hab hb
    rw [← Bool.not_eq_true, comesFirst_iff] at hle
    cases descending
    · simpa using hle
    · simpa using hle
  · refine R.stable_of_steps (fun array => array cell = x cell) ?_ hvalid h rfl
    intro t array u v hu hu' hv hv' hsame
    exact (exchange_of_ne array (hcell t u hu hu').symm (hcell t v hv hv').symm).trans hsame

/-- On any schedule `sortGeneric` and `sortTadGeneric` end with the values in order,
permuted, and with the other cells unchanged. -/
theorem sort_ends_ordered (x : Int → T) (xShapeInfo tadShapeInfo : ShapeInfo)
    (dimension : List Nat) (tadOffsets : List Int) (descending : Bool) (hcut : 0 ≤ cutoff) :
    (1 ≤ xShapeInfo.length → xShapeInfo.length ≤ 2 ^ 30 →
      Set.InjOn (getPosition xShapeInfo) {k | 0 ≤ k ∧ k < xShapeInfo.length} →
      Sorts (fun _ => 0) xShapeInfo xShapeInfo.length cutoff descending
        (sortGeneric x xShapeInfo)) ∧
    (1 ≤ tadLength xShapeInfo.shape dimension → tadLength xShapeInfo.shape dimension ≤ 2 ^ 30 →
      xShapeInfo.length / tadLength xShapeInfo.shape dimension < 2 ^ 31 →
      PositionsApart (fun r : Fin (numTads xShapeInfo dimension) => tadOffsets.getD r 0)
        tadShapeInfo (tadLength xShapeInfo.shape dimension) →
      numTads xShapeInfo dimension = xShapeInfo.length / tadLength xShapeInfo.shape dimension ∧
        Sorts (fun r : Fin _ => tadOffsets.getD r 0) tadShapeInfo
          (tadLength xShapeInfo.shape dimension) cutoff descending
          (sortTadGeneric x xShapeInfo dimension)) := by
  refine ⟨fun hn hn' hinj => ?_, fun hn hn' hcount hapart => ⟨?_, ?_⟩⟩
  · have hapart : PositionsApart (fun _ : Unit => 0) xShapeInfo xShapeInfo.length := by
      intro t t' k k' hk hkn hk' hkn' heq
      exact ⟨rfl, hinj ⟨hk, hkn⟩ ⟨hk', hkn'⟩ (add_left_cancel heq)⟩
    exact sorts hapart hn hn' hcut descending (List.nodup_singleton ()) (by simp) x
  · rw [numTads, toInt32_of_lt (Int.natCast_nonneg _) (by exact_mod_cast hcount), Int.toNat_natCast]
  · exact sorts hapart hn hn' hcut descending (List.nodup_finRange _) List.mem_finRange x

/-- Two rows of two elements, with a cell between them. -/
def twoRows : ShapeInfo :=
  ShapeInfo.ofAxes [(2, 3), (2, 1)] 0 (-1) 'c'

def oneRow : ShapeInfo :=
  ShapeInfo.ofAxes [(2, 1)] 0 1 'c'

theorem numTads_twoRows : numTads twoRows [1] = 2 := by
  decide +kernel

theorem sort_ends_ordered_twoRows :
    Sorts (fun _ => 0) twoRows 4 0 true (sortGeneric id twoRows) ∧
      numTads twoRows [1] = 2 ∧
      Sorts (fun r : Fin (numTads twoRows [1]) => [0, 3].getD r 0) oneRow 2 0 true
        (sortTadGeneric id twoRows [1]) := by
  obtain ⟨hgeneric, htads⟩ :=
    sort_ends_ordered id twoRows oneRow [1] [0, 3] true (le_refl (0 : Int))
  have hinj : Set.InjOn (getPosition twoRows) {k | 0 ≤ k ∧ k < (4 : Nat)} := by
    rintro k ⟨hk, hk4⟩ k' ⟨hk', hk4'⟩ heq
    interval_cases k <;> interval_cases k' <;> first | rfl | exact absurd heq (by decide)
  have hapart : PositionsApart (fun r : Fin (numTads twoRows [1]) => [0, 3].getD r 0) oneRow 2 := by
    rintro ⟨t, ht⟩ ⟨t', ht'⟩ k k' hk hk2 hk' hk2' heq
    rw [numTads_twoRows] at ht ht'
    have hplace : [0, 3].getD t 0 + k = [0, 3].getD t' 0 + k' := heq
    interval_cases t <;> interval_cases t' <;>
      simp only [List.getD_cons_zero, List.getD_cons_succ] at hplace ⊢ <;> grind
  have hfour : (4 : Nat) ≤ 2 ^ 30 := by norm_num
  have htwo : (2 : Nat) ≤ 2 ^ 30 := by norm_num
  have hcount : (2 : Nat) < 2 ^ 31 := by norm_num
  exact ⟨hgeneric (by decide) hfour hinj, htads (by decide) htwo hcount hapart⟩

/-- Runs on any schedules and with any cutoffs end with the same memory. -/
def EndAlike (base : τ → Int) (xShapeInfo : ShapeInfo) (descending : Bool)
    (start : Config (Int → T) τ T) : Prop :=
  ∀ cutoff cutoff' k k' d d', 0 ≤ cutoff → 0 ≤ cutoff' →
    Reaches base xShapeInfo cutoff descending k start d → d.frames = [] →
    Reaches base xShapeInfo cutoff' descending k' start d' → d'.frames = [] → d.state = d'.state

theorem endAlike {start : Config (Int → T) τ T}
    (hsorts : ∀ cutoff, 0 ≤ cutoff → Sorts base xShapeInfo n cutoff descending start) :
    EndAlike base xShapeInfo descending start := by
  intro cutoff cutoff' k k' d d' hcut hcut' h hend h' hend'
  have S := hsorts cutoff hcut
  have S' := hsorts cutoff' hcut'
  funext cell
  by_cases hcell : ∀ t (place : Int), 0 ≤ place → place < n →
      base t + getPosition xShapeInfo place ≠ cell
  · rw [S.untouched k d h cell hcell, S'.untouched k' d' h' cell hcell]
  · push Not at hcell
    obtain ⟨t, place, hplace, hplace', rfl⟩ := hcell
    refine Permuted.unique (fun a b => if descending then b ≤ a else a ≤ b) ?_
      (S.permuted k d h t) (S'.permuted k' d' h' t) (S.ordered k d h hend t)
      (S'.ordered k' d' h' hend' t) hplace hplace'
    intro a b hab hba
    cases descending
    · exact le_antisymm hab hba
    · exact le_antisymm hba hab

/-- What `sortGeneric` and `sortTadGeneric` leave depends neither on the schedule of the tasks
nor on the cutoff. -/
theorem sort_endAlike (x : Int → T) (xShapeInfo tadShapeInfo : ShapeInfo) (dimension : List Nat)
    (tadOffsets : List Int) (descending : Bool) :
    (1 ≤ xShapeInfo.length → xShapeInfo.length ≤ 2 ^ 30 →
      PositionsApart (fun _ : Unit => 0) xShapeInfo xShapeInfo.length →
      EndAlike (fun _ => 0) xShapeInfo descending (sortGeneric x xShapeInfo)) ∧
    (1 ≤ tadLength xShapeInfo.shape dimension → tadLength xShapeInfo.shape dimension ≤ 2 ^ 30 →
      PositionsApart (fun r : Fin (numTads xShapeInfo dimension) => tadOffsets.getD r 0)
        tadShapeInfo (tadLength xShapeInfo.shape dimension) →
      EndAlike (fun r : Fin _ => tadOffsets.getD r 0) tadShapeInfo descending
        (sortTadGeneric x xShapeInfo dimension)) := by
  refine ⟨fun hn hn' hapart => ?_, fun hn hn' hapart => ?_⟩
  · exact endAlike fun cutoff hcut =>
      sorts hapart hn hn' hcut descending (List.nodup_singleton ()) (by simp) x
  · exact endAlike fun cutoff hcut =>
      sorts hapart hn hn' hcut descending (List.nodup_finRange _) List.mem_finRange x

theorem sort_endAlike_oneRow :
    EndAlike (fun _ => 0) oneRow true (sortGeneric id oneRow) ∧
      EndAlike (fun r : Fin (numTads oneRow [0]) => [0].getD r 0) oneRow true
        (sortTadGeneric id oneRow [0]) := by
  obtain ⟨hgeneric, htads⟩ := sort_endAlike id oneRow oneRow [0] [0] true
  have hbound : (2 : Nat) ≤ 2 ^ 30 := by norm_num
  refine ⟨hgeneric (by decide) hbound fun _ _ k k' _ _ _ _ h => ⟨rfl, add_left_cancel h⟩,
    htads (by decide) hbound ?_⟩
  rintro ⟨t, ht⟩ ⟨t', ht'⟩ k k' - - - - heq
  have hplace : [0].getD t 0 + k = [0].getD t' 0 + k' := heq
  have hone : numTads oneRow [0] = 1 := by decide
  obtain rfl : t = 0 := by omega
  obtain rfl : t' = 0 := by omega
  exact ⟨rfl, by simpa using hplace⟩

end Runs

/-! ## Negative cutoffs -/

section Cutoffs

variable {T τ : Type} [LinearOrder T] {base : τ → Int} {xShapeInfo : ShapeInfo} {cutoff : Int}
variable {descending : Bool}

/-- Some task is about to call an empty range at the start of an array. -/
def CallsEmpty (c : Config (Int → T) τ T) : Prop :=
  ∃ t before after stack, c.tasks = before ++ (.call t 0 (-1) :: stack) :: after

/-- With a negative cutoff such a call makes two of its kind. -/
theorem exists_steps_of_callsEmpty (hcut : cutoff < 0) {c : Config (Int → T) τ T}
    (hc : CallsEmpty c) :
    ∃ d, CallsEmpty d ∧
      ∀ k s, Reaches base xShapeInfo cutoff descending k s c →
        Reaches base xShapeInfo cutoff descending (k + 2) s d := by
  obtain ⟨state, tasks⟩ := c
  obtain ⟨t, before, after, stack, rfl⟩ := hc
  have hspawn : ∀ pivot : T,
      (quickSort_parallel_internal base xShapeInfo cutoff descending).stepFrame state
        (.loop t 0 (-1) 0 (-1) pivot .outer) =
      (state, [], [.call t 0 (-1), .call t 0 (-1)]) := by
    intro pivot
    have hcutoff : ¬ ((-1 : Int) - 0 <
        (quickSort_parallel_internal (T := T) base xShapeInfo cutoff descending).cutoff) := by
      simp only [quickSort_parallel_internal]
      omega
    simp only [Machine.stepFrame]
    rw [if_neg (by decide), if_neg hcutoff]
  refine ⟨_, ?_, fun k s h => ((h.tail (Step.of_stepFrame rfl before after stack)).tail
    (Step.of_stepFrame (hspawn _) before (after ++ []) stack))⟩
  exact ⟨t, before ++ stack :: (after ++ []), [[.call t 0 (-1)]], [], by simp⟩

/-- With a negative cutoff, from such a call there are runs of any length. -/
theorem exists_steps_ge (hcut : cutoff < 0) {k : Nat} {s c : Config (Int → T) τ T}
    (hrun : Reaches base xShapeInfo cutoff descending k s c)
    (hc : CallsEmpty c) (bound : Nat) :
    ∃ j d, bound < j ∧ CallsEmpty d ∧ Reaches base xShapeInfo cutoff descending j s d := by
  induction bound with
  | zero =>
      obtain ⟨d, hd, hsteps⟩ := exists_steps_of_callsEmpty hcut hc
      exact ⟨k + 2, d, by omega, hd, hsteps k s hrun⟩
  | succ bound ih =>
      obtain ⟨j, d, hj, hd, hsteps⟩ := ih
      obtain ⟨e, he, hsteps'⟩ := exists_steps_of_callsEmpty hcut hd
      exact ⟨j + 2, e, by omega, he, hsteps' j s hsteps⟩

def singleElement : ShapeInfo :=
  ShapeInfo.ofAxes [(1, 1)] 0 1 'c'

/-- One element is sorted by six steps, and then the left part is empty. -/
theorem callsEmpty_singleElement :
    ∃ d, CallsEmpty d ∧ Reaches (fun _ => 0) singleElement (-1) false 6
      (sortGeneric (fun _ => (0 : Int)) singleElement) d := by
  refine ⟨_, ?_, ((((((Steps.refl _).tail (Step.of_stepFrame rfl [] [] [])).tail
    (Step.of_stepFrame rfl [] [] [])).tail (Step.of_stepFrame rfl [] [] [])).tail
    (Step.of_stepFrame rfl [] [] [])).tail (Step.of_stepFrame rfl [] [] [])).tail
    (Step.of_stepFrame rfl [] [] [])⟩
  exact ⟨(), [[]], [[.call () 1 0]], [], rfl⟩

/-- With a cutoff below zero the sort of one element does not end. -/
theorem not_terminates_always :
    ¬ ∀ (x : Int → Int) (xShapeInfo : ShapeInfo) (cutoff : Int) (descending : Bool),
      1 ≤ xShapeInfo.length →
      Set.InjOn (getPosition xShapeInfo) {k | 0 ≤ k ∧ k < xShapeInfo.length} →
      Sorts (fun _ => 0) xShapeInfo xShapeInfo.length cutoff descending
        (sortGeneric x xShapeInfo) := by
  intro hall
  have hinj : Set.InjOn (getPosition singleElement) {k | 0 ≤ k ∧ k < singleElement.length} := by
    rintro k ⟨hk, hk1⟩ k' ⟨hk', hk1'⟩ -
    simp [singleElement, ShapeInfo.length, ShapeInfo.ofAxes] at hk1 hk1'
    omega
  obtain ⟨bound, hbound⟩ := (hall (fun _ => 0) singleElement (-1) false (by decide) hinj).terminates
  obtain ⟨c, hc, hrun⟩ := callsEmpty_singleElement
  obtain ⟨j, d, hj, -, hsteps⟩ := exists_steps_ge (by decide) hrun hc bound
  exact absurd (hbound j d hsteps) (not_le.mpr hj)

end Cutoffs

end Sorting
end LibND4J
