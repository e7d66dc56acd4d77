import LibND4J.Library.HoareSort
import LibND4J.Library.Strided
import LibND4J.Library.Swaps

/-!
# Sorting coordinates

`coo_quickSort_parallel_internal` sorts the index tuples of a sparse array, and its values
with them.  The pivot of a partition is a place, so an exchange at that place changes what the
scans compare with.

Main results:

- Theorem `rule`: the scans stay inside their range all the same, since an exchange at the
  pivot leaves the other scan behind it.
- Theorem `orderedRule`: as long as the exchanges at the pivot keep the tuples that the scans
  have passed on their sides, and in ranges of three, the parts are in order.
- Theorem `sorts_iff`: the lists that are sorted whatever their keys are those of up to three
  tuples, and those of tuples without coordinates.
- Theorem `not_sorted_always`: the keys 2, 3, 1, 0.
-/

namespace LibND4J
namespace CooSort

open HoareSort Swaps

/-- Index tuples, one after the other, and a value for each. -/
structure SparseArray (T : Type) where
  indices : Int → Int
  array : Int → T

/-- Loop of `ltIndices` over the coordinates. -/
def ltLoop (indices : Int → Int) (rank x y : Int) : List Nat → Bool
  | [] => false
  | e :: es =>
      let idxX := indices (x * rank + e)
      let idxY := indices (y * rank + e)
      if idxX < idxY then true
      else if idxX = idxY then ltLoop indices rank x y es
      else false

def ltIndices (indices : Int → Int) (rank : Nat) (x y : Int) : Bool :=
  ltLoop indices rank x y (List.range rank)

/-- Loop of `gtIndices` over the coordinates. -/
def gtLoop (indices : Int → Int) (rank x y : Int) : List Nat → Bool
  | [] => false
  | e :: es =>
      let idxX := indices (x * rank + e)
      let idxY := indices (y * rank + e)
      if idxX > idxY then true
      else if idxX = idxY then gtLoop indices rank x y es
      else false

def gtIndices (indices : Int → Int) (rank : Nat) (x y : Int) : Bool :=
  gtLoop indices rank x y (List.range rank)

section Definitions

variable {T : Type}

/-- The cell of a coordinate. -/
def cell (rank : Nat) (k : Int) (e : Nat) : Int :=
  k * rank + e

def swapEverything (s : SparseArray T) (rank : Nat) (x y : Int) : SparseArray T where
  indices := exchangeRows (cell rank) x y (List.range rank) s.indices
  array := exchange s.array x y

def coo_quickSort_parallel_internal (cutoff : Int) (rank : Nat) :
    Machine (SparseArray T) Unit Int where
  mid left right := (left + right).tdiv 2
  pivotAt _ _ pvt := pvt
  below _ s i pvt := ltIndices s.indices rank i pvt
  above _ s j pvt := gtIndices s.indices rank j pvt
  swap _ s i j := swapEverything s rank i j
  cutoff := cutoff
  fetchReads _ := []
  pivotReads pvt := [pvt]

/-- The start of `sortCooIndicesGeneric`. -/
def sortCooIndicesGeneric (s : SparseArray T) (length : Nat) :
    Config (SparseArray T) Unit Int :=
  ⟨s, [[.call () 0 (length - 1)]]⟩

/-- The cutoff of `coo_quickSort_parallel`. -/
def cutoff : Int :=
  1000

/-- The index tuple at a place. -/
def SparseArray.tuple (s : SparseArray T) (rank : Nat) (k : Int) : List Int :=
  (List.range rank).map fun e : Nat => s.indices (k * rank + e)

/-- The index tuple at a place, with its value. -/
def SparseArray.entry (s : SparseArray T) (rank : Nat) (k : Int) : List Int × T :=
  (s.tuple rank k, s.array k)

end Definitions

/-! ## Tuples -/

section Tuples

variable {T : Type} {rank : Nat}

theorem ltLoop_iff (indices : Int → Int) (rank x y : Int) (es : List Nat) :
    ltLoop indices rank x y es = true ↔
      (es.map fun e : Nat => indices (x * rank + e)) < es.map fun e : Nat =>
        indices (y * rank + e) := by
  induction es with
  | nil => simp [ltLoop]
  | cons e es ih =>
      rw [ltLoop, List.map_cons, List.map_cons, List.cons_lt_cons_iff]
      split
      · next hlt => exact iff_of_true rfl (Or.inl hlt)
      · next hge =>
          split
          · next heq => rw [ih]; exact ⟨fun h => Or.inr ⟨heq, h⟩, fun h => (h.resolve_left hge).2⟩
          · next hne => simp [hge, hne]

theorem gtLoop_eq_ltLoop (indices : Int → Int) (rank x y : Int) (es : List Nat) :
    gtLoop indices rank x y es = ltLoop indices rank y x es := by
  induction es with
  | nil => rfl
  | cons e es ih => simp only [gtLoop, ltLoop, ih, gt_iff_lt, eq_comm]

/-- `ltIndices` compares the tuples in lexicographic order. -/
theorem ltIndices_iff (s : SparseArray T) (x y : Int) :
    ltIndices s.indices rank x y = true ↔ s.tuple rank x < s.tuple rank y :=
  ltLoop_iff s.indices rank x y _

theorem gtIndices_iff (s : SparseArray T) (x y : Int) :
    gtIndices s.indices rank x y = true ↔ s.tuple rank y < s.tuple rank x := by
  rw [gtIndices, gtLoop_eq_ltLoop]
  exact ltIndices_iff s y x

/-- Different coordinates have different cells. -/
theorem rowsApart_cell (rank : Nat) : RowsApart (cell rank) (fun _ => True) (· < rank) := by
  intro k k' e e' _ _ he he' h
  obtain ⟨hk, heq⟩ := Strided.mul_add_inj_int (Int.natCast_nonneg e) (Int.ofNat_lt.mpr he)
    (Int.natCast_nonneg e') (Int.ofNat_lt.mpr he') h
  exact ⟨hk, Int.ofNat.inj heq⟩

theorem tuple_swapEverything (s : SparseArray T) (u v k : Int) :
    (swapEverything s rank u v).tuple rank k = s.tuple rank (Equiv.swap u v k) := by
  refine List.map_congr_left fun e he => ?_
  have hcell := exchangeRows_cell (rowsApart_cell rank) (u := u) (v := v) (r := k) trivial trivial
    trivial (List.mem_range.mp he) List.nodup_range (fun e he => List.mem_range.mp he) s.indices
  rwa [if_pos he] at hcell

/-- The entries are permuted by exchanges. -/
theorem observes_entry (rank n : Nat) (cutoff : Int) :
    Observes (coo_quickSort_parallel_internal (T := T) cutoff rank) n
      (fun _ s k => s.entry rank k) where
  exchanged := by
    intro t s u v k _ _ _ _ _ _
    simp only [coo_quickSort_parallel_internal, SparseArray.entry, tuple_swapEverything]
    exact congrArg _ (exchange_apply s.array u v k)
  others h := absurd rfl h

theorem observes_tuple (rank n : Nat) (cutoff : Int) :
    Observes (coo_quickSort_parallel_internal (T := T) cutoff rank) n
      (fun _ s k => s.tuple rank k) where
  exchanged := by
    intro t s u v k _ _ _ _ _ _
    simp only [coo_quickSort_parallel_internal, tuple_swapEverything]
  others h := absurd rfl h

end Tuples

/-! ## The scans -/

section Scans

variable {K : Type} [LinearOrder K]

/-- The scans around a pivot at the place `m`: both in front of it, one of them past it after an
exchange there, with the elements that the other one has passed behind it, or both past it. -/
inductive Around (e : Int → K) (l r i j m : Int) : Prop
  | between (hli : l ≤ i) (him : i ≤ m) (hmj : m ≤ j) (hjr : j ≤ r)
      (passed : ∀ k, l ≤ k → k < i → e k ≤ e m) (passed' : ∀ k, j < k → k ≤ r → e m ≤ e k)
  | low (hli : l < i) (him : i ≤ m) (hlj : l ≤ j) (hjm : j < m) (hmr : m ≤ r)
      (passed : ∀ k, l ≤ k → k < i → e k ≤ e m)
  | high (hlm : l ≤ m) (hmi : m < i) (hir : i ≤ r) (hmj : m ≤ j) (hjr : j < r)
      (passed' : ∀ k, j < k → k ≤ r → e m ≤ e k)

/-- The invariant of a partition. -/
def Partitioning (e : Int → K) (l r i j m : Int) : Phase → Prop
  | .outer => Around e l r i j m ∨ (l ≤ m ∧ m ≤ r ∧ i = m + 1 ∧ j = m - 1) ∨
      (i = l ∧ j = r ∧ l = r + 1)
  | .up => Around e l r i j m
  | .down => Around e l r i j m ∧ e m ≤ e i
  | .exchange => Around e l r i j m ∧ e m ≤ e i ∧ e j ≤ e m

variable {e : Int → K} {l r i j m : Int}

theorem Around.inside (h : Around e l r i j m) :
    l ≤ i ∧ i ≤ r ∧ l ≤ j ∧ j ≤ r ∧ l ≤ m ∧ m ≤ r := by
  cases h <;> omega

theorem Around.up (h : Around e l r i j m) (hlt : e i < e m) : Around e l r (i + 1) j m := by
  cases h with
  | between hli him hmj hjr passed passed' =>
      have hne : i ≠ m := fun heq => absurd hlt (heq ▸ lt_irrefl _)
      refine .between (by omega) (by omega) hmj hjr (fun k hk hk' => ?_) passed'
      rcases lt_or_eq_of_le (show k ≤ i by omega) with hki | rfl
      · exact passed k hk hki
      · exact hlt.le
  | low hli him hlj hjm hmr passed =>
      have hne : i ≠ m := fun heq => absurd hlt (heq ▸ lt_irrefl _)
      refine .low (by omega) (by omega) hlj hjm hmr fun k hk hk' => ?_
      rcases lt_or_eq_of_le (show k ≤ i by omega) with hki | rfl
      · exact passed k hk hki
      · exact hlt.le
  | high hlm hmi hir hmj hjr passed' =>
      -- an element that the other scan has passed stops this one
      have hij : i ≤ j := by
        by_contra hji
        exact absurd hlt (not_lt.mpr (passed' i (by omega) hir))
      exact .high hlm (by omega) (by omega) hmj hjr passed'

theorem Around.down (h : Around e l r i j m) (hlt : e m < e j) : Around e l r i (j - 1) m := by
  cases h with
  | between hli him hmj hjr passed passed' =>
      have hne : j ≠ m := fun heq => absurd hlt (heq ▸ lt_irrefl _)
      refine .between hli him (by omega) (by omega) passed fun k hk hk' => ?_
      rcases lt_or_eq_of_le (show j ≤ k by omega) with hjk | rfl
      · exact passed' k hjk hk'
      · exact hlt.le
  | low hli him hlj hjm hmr passed =>
      have hij : i ≤ j := by
        by_contra hji
        exact absurd hlt (not_lt.mpr (passed j hlj (by omega)))
      exact .low hli him (by omega) (by omega) hmr passed
  | high hlm hmi hir hmj hjr passed' =>
      have hne : j ≠ m := fun heq => absurd hlt (heq ▸ lt_irrefl _)
      refine .high hlm hmi hir (by omega) (by omega) fun k hk hk' => ?_
      rcases lt_or_eq_of_le (show j ≤ k by omega) with hjk | rfl
      · exact passed' k hjk hk'
      · exact hlt.le

variable {e' : Int → K} {phase : Phase}

omit [LinearOrder K] in
/-- The elements after an exchange of two others. -/
theorem exchanged_of_ne (he : ∀ k, l ≤ k → k ≤ r → e' k = e (Equiv.swap i j k)) {k : Int}
    (hk : l ≤ k) (hk' : k ≤ r) (hki : k ≠ i) (hkj : k ≠ j) : e' k = e k := by
  rw [he k hk hk', Equiv.swap_apply_of_ne_of_ne hki hkj]

/-- What the first scan has passed after an exchange. -/
theorem passed_swap {p : K} (hli : l ≤ i) (hij : i ≤ j) (hjr : j ≤ r)
    (he : ∀ k, l ≤ k → k ≤ r → e' k = e (Equiv.swap i j k)) (hpassed : ∀ k, l ≤ k → k < i → e k ≤ p)
    (hj : e j ≤ p) : ∀ k, l ≤ k → k < i + 1 → e' k ≤ p := by
  intro k hk hk'
  rcases lt_or_eq_of_le (show k ≤ i by omega) with hki | rfl
  · rw [exchanged_of_ne he hk (by omega) (by omega) (by omega)]
    exact hpassed k hk hki
  · rwa [he k hk (by omega), Equiv.swap_apply_left]

/-- What the second scan has passed after an exchange. -/
theorem passed_swap' {p : K} (hli : l ≤ i) (hij : i ≤ j)
    (he : ∀ k, l ≤ k → k ≤ r → e' k = e (Equiv.swap i j k))
    (hpassed' : ∀ k, j < k → k ≤ r → p ≤ e k) (hi : p ≤ e i) :
    ∀ k, j - 1 < k → k ≤ r → p ≤ e' k := by
  intro k hk hk'
  rcases lt_or_eq_of_le (show j ≤ k by omega) with hjk | rfl
  · rw [exchanged_of_ne he (by omega) hk' (by omega) (by omega)]
    exact hpassed' k hjk hk'
  · rwa [he j (by omega) hk', Equiv.swap_apply_right]

/-- An exchange at the pivot leaves it behind one scan. -/
theorem Around.swap (h : Around e l r i j m) (hi : e m ≤ e i) (hj : e j ≤ e m) (hij : i ≤ j)
    (he : ∀ k, l ≤ k → k ≤ r → e' k = e (Equiv.swap i j k)) :
    Partitioning e' l r (i + 1) (j - 1) m .outer := by
  obtain ⟨hli, hir, hlj, hjr, hlm, hmr⟩ := h.inside
  have hm : m ≠ i → m ≠ j → e' m = e m := exchanged_of_ne he hlm hmr
  cases h with
  | between hli him hmj hjr passed passed' =>
      rcases lt_or_eq_of_le him with him' | rfl
      · rcases lt_or_eq_of_le hmj with hmj' | rfl
        · have hm := hm (by omega) (by omega)
          refine Or.inl (.between (by omega) (by omega) (by omega) (by omega) ?_ ?_)
          · rw [hm]
            exact passed_swap hli hij hjr he passed hj
          · rw [hm]
            exact passed_swap' hli hij he passed' hi
        · -- the pivot grows, and the second scan is past it
          refine Or.inl (.low (by omega) (by omega) (by omega) (by omega) hmr ?_)
          rw [he m hlm hmr, Equiv.swap_apply_right]
          exact passed_swap hli hij hjr he (fun k hk hk' => (passed k hk hk').trans hi) hi
      · rcases lt_or_eq_of_le hmj with hmj' | rfl
        · -- the pivot shrinks, and the first scan is past it
          refine Or.inl (.high hlm (by omega) (by omega) (by omega) (by omega) ?_)
          rw [he i hlm hmr, Equiv.swap_apply_left]
          exact passed_swap' hli hij he (fun k hk hk' => hj.trans (passed' k hk hk')) hj
        · exact Or.inr (Or.inl ⟨hlm, hmr, rfl, rfl⟩)
  | low hli' him hlj hjm hmr passed =>
      refine Or.inl (.low (by omega) (by omega) (by omega) (by omega) hmr ?_)
      rw [hm (by omega) (by omega)]
      exact passed_swap hli hij hjr he passed hj
  | high hlm hmi hir hmj hjr' passed' =>
      refine Or.inl (.high hlm (by omega) (by omega) (by omega) (by omega) ?_)
      rw [hm (by omega) (by omega)]
      exact passed_swap' hli hij he passed' hi

theorem partitioning_start {mid : Int} (hlr : l ≤ r + 1) (hmid : l ≤ r → l ≤ mid ∧ mid ≤ r) :
    Partitioning e l r l r mid .outer := by
  rcases lt_or_ge r l with hempty | hsome
  · exact Or.inr (Or.inr ⟨rfl, rfl, by omega⟩)
  · obtain ⟨hl, hr⟩ := hmid hsome
    exact Or.inl (.between le_rfl hl hr le_rfl (fun k hk hk' => by omega) fun k hk hk' => by omega)

theorem Partitioning.bounds (h : Partitioning e l r i j m phase) :
    l ≤ i ∧ i ≤ r + 1 ∧ l - 1 ≤ j ∧ j ≤ r := by
  have haround : Around e l r i j m → l ≤ i ∧ i ≤ r + 1 ∧ l - 1 ≤ j ∧ j ≤ r := fun h => by
    have := h.inside
    omega
  cases phase with
  | outer =>
      rcases h with h | h | h
      · exact haround h
      · omega
      · omega
  | up => exact haround h
  | down => exact haround h.1
  | exchange => exact haround h.1

theorem Partitioning.around (h : Partitioning e l r i j m .outer) (hij : i ≤ j) :
    Around e l r i j m := by
  rcases h with h | h | h
  · exact h
  · omega
  · omega

theorem Partitioning.smaller (h : Partitioning e l r i j m .outer) (hji : j < i) (hlr : l ≤ r) :
    l < i ∧ j < r := by
  rcases h with h | h | h
  · cases h <;> omega
  · omega
  · omega

theorem Partitioning.pivot_inside (h : Partitioning e l r i j m phase)
    (hphase : phase = .up ∨ phase = .down) : l ≤ m ∧ m ≤ r := by
  rcases hphase with rfl | rfl
  · exact h.inside.2.2.2.2
  · exact h.1.inside.2.2.2.2

theorem Around.congr (h : Around e l r i j m) (he : ∀ k, l ≤ k → k ≤ r → e' k = e k) :
    Around e' l r i j m := by
  have hin := h.inside
  have hm := he m hin.2.2.2.2.1 hin.2.2.2.2.2
  cases h with
  | between hli him hmj hjr passed passed' =>
      refine .between hli him hmj hjr (fun k hk hk' => ?_) fun k hk hk' => ?_
      · rw [hm, he k hk (by omega)]
        exact passed k hk hk'
      · rw [hm, he k (by omega) hk']
        exact passed' k hk hk'
  | low hli him hlj hjm hmr passed =>
      refine .low hli him hlj hjm hmr fun k hk hk' => ?_
      rw [hm, he k hk (by omega)]
      exact passed k hk hk'
  | high hlm hmi hir hmj hjr passed' =>
      refine .high hlm hmi hir hmj hjr fun k hk hk' => ?_
      rw [hm, he k (by omega) hk']
      exact passed' k hk hk'

/-- The invariant is about the elements of the range. -/
theorem Partitioning.congr (h : Partitioning e l r i j m phase)
    (he : ∀ k, l ≤ k → k ≤ r → e' k = e k) : Partitioning e' l r i j m phase := by
  cases phase with
  | outer => exact h.imp (fun h => h.congr he) id
  | up => exact Around.congr h he
  | down =>
      obtain ⟨haround, hi⟩ := h
      have hin := haround.inside
      refine ⟨haround.congr he, ?_⟩
      rwa [he m hin.2.2.2.2.1 hin.2.2.2.2.2, he i hin.1 hin.2.1]
  | exchange =>
      obtain ⟨haround, hi, hj⟩ := h
      have hin := haround.inside
      refine ⟨haround.congr he, ?_, ?_⟩
      · rwa [he m hin.2.2.2.2.1 hin.2.2.2.2.2, he i hin.1 hin.2.1]
      · rwa [he m hin.2.2.2.2.1 hin.2.2.2.2.2, he j hin.2.2.1 hin.2.2.2.1]

end Scans

/-! ## Parts in order -/

section Parts

variable {K : Type} [LinearOrder K] {e : Int → K} {l r i j m : Int}

/-- Both scans have passed only elements on their side of the pivot. -/
structure Sided (e : Int → K) (l r i j m : Int) : Prop where
  passed : ∀ k, l ≤ k → k < i → e k ≤ e m
  passed' : ∀ k, j < k → k ≤ r → e m ≤ e k

/-- The parts that a partition leaves are in order. -/
def PartsInOrder (e : Int → K) (l r i j : Int) : Prop :=
  ∀ a b, l ≤ a → a < i → j < b → b ≤ r → a < b → e a ≤ e b

/-- If an exchange brings another element to the pivot, the elements that have been passed are on
their sides of it, too. -/
def KeepsSides (e : Int → K) (l r i j m : Int) : Prop :=
  (j = m → ∀ k, j < k → k ≤ r → e i ≤ e k) ∧ (i = m → ∀ k, l ≤ k → k < i → e k ≤ e j)

/-- The invariant of a partition whose parts end in order. -/
structure Ordering (e : Int → K) (l r i j m : Int) (phase : Phase) : Prop where
  partitioning : Partitioning e l r i j m phase
  middle : l ≤ r → m = (l + r).tdiv 2
  order : Sided e l r i j m ∨ phase = .outer ∧ j < i ∧ PartsInOrder e l r i j

theorem Sided.partsInOrder (h : Sided e l r i j m) : PartsInOrder e l r i j :=
  fun a b hla hai hjb hbr _ => (h.passed a hla hai).trans (h.passed' b hjb hbr)

theorem Ordering.sided {phase : Phase} (h : Ordering e l r i j m phase)
    (hphase : phase ≠ .outer ∨ i ≤ j) : Sided e l r i j m := by
  rcases h.order with hsided | ⟨houter, hji, -⟩
  · exact hsided
  · exact absurd hphase (by rintro (hne | hij) <;> [exact hne houter; omega])

theorem Sided.up (h : Sided e l r i j m) (hlt : e i < e m) : Sided e l r (i + 1) j m := by
  refine ⟨fun k hk hk' => ?_, h.passed'⟩
  rcases lt_or_eq_of_le (show k ≤ i by omega) with hki | rfl
  · exact h.passed k hk hki
  · exact hlt.le

theorem Sided.down (h : Sided e l r i j m) (hlt : e m < e j) : Sided e l r i (j - 1) m := by
  refine ⟨h.passed, fun k hk hk' => ?_⟩
  rcases lt_or_eq_of_le (show j ≤ k by omega) with hjk | rfl
  · exact h.passed' k hjk hk'
  · exact hlt.le

variable {e' : Int → K}

/-- An exchange that keeps the sides. -/
theorem Sided.swap (h : Sided e l r i j m) (haround : Around e l r i j m) (hi : e m ≤ e i)
    (hj : e j ≤ e m) (hij : i ≤ j) (he : ∀ k, l ≤ k → k ≤ r → e' k = e (Equiv.swap i j k))
    (hkeeps : KeepsSides e l r i j m) : Sided e' l r (i + 1) (j - 1) m := by
  obtain ⟨hli, hir, hlj, hjr, hlm, hmr⟩ := haround.inside
  have hpivot : (∀ k, l ≤ k → k < i → e k ≤ e' m) ∧ e j ≤ e' m ∧
      (∀ k, j < k → k ≤ r → e' m ≤ e k) ∧ e' m ≤ e i := by
    rw [he m hlm hmr, Equiv.swap_apply_def]
    split
    · next hmi => exact ⟨hkeeps.2 hmi.symm, le_rfl, fun k hk hk' => hj.trans (h.passed' k hk hk'),
        hj.trans hi⟩
    · split
      · next hmj => exact ⟨fun k hk hk' => (h.passed k hk hk').trans hi, hj.trans hi,
          hkeeps.1 hmj.symm, le_rfl⟩
      · exact ⟨h.passed, hj, h.passed', hi⟩
  exact ⟨passed_swap hli hij hjr he hpivot.1 hpivot.2.1,
    passed_swap' hli hij he hpivot.2.2.1 hpivot.2.2.2⟩

/-- In a range of three an exchange that does not keep the sides ends the partition, with its
parts in order. -/
theorem Sided.swap_short (h : Sided e l r i j m) (haround : Around e l r i j m) (hi : e m ≤ e i)
    (hj : e j ≤ e m) (hij : i ≤ j) (he : ∀ k, l ≤ k → k ≤ r → e' k = e (Equiv.swap i j k))
    (hl : 0 ≤ l) (hmid : m = (l + r).tdiv 2) (hshort : r ≤ l + 2)
    (hkeeps : ¬ KeepsSides e l r i j m) : j - 1 < i + 1 ∧ PartsInOrder e' l r (i + 1) (j - 1) := by
  obtain ⟨hli, hir, hlj, hjr, hlm, hmr⟩ := haround.inside
  rw [Int.tdiv_eq_ediv_of_nonneg (by omega)] at hmid
  have hleft : e' i = e j := by rw [he i hli hir, Equiv.swap_apply_left]
  have hright : e' j = e i := by rw [he j hlj hjr, Equiv.swap_apply_right]
  by_cases hgrows : j = m → ∀ k, j < k → k ≤ r → e i ≤ e k
  · -- the pivot was at the first scan and met the last element
    obtain ⟨him, k, hk, hki, hlt⟩ : i = m ∧ ∃ k, l ≤ k ∧ k < i ∧ e j < e k := by
      by_contra hnone
      exact hkeeps ⟨hgrows, fun him k hk hki => not_lt.mp fun hlt =>
        hnone ⟨him, k, hk, hki, hlt⟩⟩
    have hjne : j ≠ m := by
      rintro rfl
      exact absurd hlt (not_lt.mpr (h.passed k hk hki))
    refine ⟨by omega, fun a b hla hai hjb hbr hab => ?_⟩
    have hb : b = j := by omega
    rw [hb, hright]
    rcases lt_or_eq_of_le (show a ≤ i by omega) with hai' | rfl
    · rw [exchanged_of_ne he hla (by omega) (by omega) (by omega)]
      exact (h.passed a hla hai').trans hi
    · rw [hleft]
      exact hj.trans hi
  · -- the pivot was at the second scan and met the first element
    obtain ⟨hjm, k, hk, hkr, hlt⟩ : j = m ∧ ∃ k, j < k ∧ k ≤ r ∧ e k < e i := by
      by_contra hnone
      exact hgrows fun hjm k hk hkr => not_lt.mp fun hlt => hnone ⟨hjm, k, hk, hkr, hlt⟩
    have hine : i ≠ m := by
      rintro rfl
      exact absurd hlt (not_lt.mpr (h.passed' k hk hkr))
    refine ⟨by omega, fun a b hla hai hjb hbr hab => ?_⟩
    have ha : a = i := by omega
    rw [ha, hleft]
    rcases lt_or_eq_of_le (show j ≤ b by omega) with hjb' | rfl
    · rw [exchanged_of_ne he (by omega) hbr (by omega) (by omega)]
      exact hj.trans (h.passed' b hjb' hbr)
    · rw [hright]
      exact hj.trans hi

/-- The invariant is about the elements of the range. -/
theorem Ordering.congr {phase : Phase} (h : Ordering e l r i j m phase) (hl : 0 ≤ l)
    (he : ∀ k, l ≤ k → k ≤ r → e' k = e k) : Ordering e' l r i j m phase := by
  have hbounds := h.partitioning.bounds
  have hm : l ≤ r → e' m = e m := by
    intro hlr
    have hmid := h.middle hlr
    rw [Int.tdiv_eq_ediv_of_nonneg (by omega)] at hmid
    exact he m (by omega) (by omega)
  refine ⟨h.partitioning.congr he, h.middle, h.order.imp (fun hsided => ?_) fun hparts => ?_⟩
  · refine ⟨fun k hk hk' => ?_, fun k hk hk' => ?_⟩
    · rw [hm (by omega), he k hk (by omega)]
      exact hsided.passed k hk hk'
    · rw [hm (by omega), he k (by omega) hk']
      exact hsided.passed' k hk hk'
  · refine ⟨hparts.1, hparts.2.1, fun a b hla hai hjb hbr hab => ?_⟩
    rw [he a hla (by omega), he b (by omega) hbr]
    exact hparts.2.2 a b hla hai hjb hbr hab

end Parts

/-! ## The sort -/

section Runs

variable {T : Type} {rank n : Nat} {cut : Int}

/-- The middle of a range. -/
theorem middle {left right : Int} (hrange : InRange n left right) (hlr : left ≤ right) :
    left ≤ (left + right).tdiv 2 ∧ (left + right).tdiv 2 ≤ right := by
  obtain ⟨h0, -, -⟩ := hrange
  rw [Int.tdiv_eq_ediv_of_nonneg (by omega)]
  omega

variable (s : SparseArray T)

/-- Elements of the range do not change with exchanges outside it. -/
theorem tuple_elsewhere {t t' : Unit} {l r u v : Int}
    (houtside : t' = t → ¬ (l ≤ u ∧ u ≤ r) ∧ ¬ (l ≤ v ∧ v ≤ r)) {k : Int} (hk : l ≤ k)
    (hk' : k ≤ r) : (swapEverything s rank u v).tuple rank k = s.tuple rank k := by
  obtain ⟨hu, hv⟩ := houtside rfl
  rw [tuple_swapEverything, Equiv.swap_apply_of_ne_of_ne (by omega) (by omega)]

variable (T cut rank n) in
theorem rule : Rule (coo_quickSort_parallel_internal (T := T) cut rank) anyExchange n
    (fun _ s l r i j m phase => Partitioning (s.tuple rank) l r i j m phase) where
  start hrange := partitioning_start hrange.2.2 (middle hrange)
  bounds h := h.bounds
  again h hij := h.around hij
  up_le h := h.inside.2.1
  up_step h hb := h.up ((ltIndices_iff _ _ _).mp hb)
  up_stop h hb := ⟨h, not_lt.mp fun hlt => Bool.eq_false_iff.mp hb ((ltIndices_iff _ _ _).mpr hlt)⟩
  down_le h := h.1.inside.2.2.1
  down_step h ha := ⟨h.1.down ((gtIndices_iff _ _ _).mp ha), h.2⟩
  down_stop h ha :=
    ⟨h.1, h.2, not_lt.mp fun hlt => Bool.eq_false_iff.mp ha ((gtIndices_iff _ _ _).mpr hlt)⟩
  swap _ h hij _ := h.1.swap h.2.1 h.2.2 hij fun k _ _ => tuple_swapEverything _ _ _ k
  skip h _ := Or.inl h.1
  smaller h hji hlr := h.smaller hji hlr
  fetch_inside := by
    intro l r _ k hk
    simp [coo_quickSort_parallel_internal] at hk
  pivot_inside := by
    intro t s l r i j m phase h hphase k hk
    simp only [coo_quickSort_parallel_internal, List.mem_singleton] at hk
    rw [hk]
    exact h.pivot_inside hphase
  elsewhere := by
    intro t s l r i j m phase t' u v _ h _ _ houtside
    exact h.congr fun k hk hk' => tuple_elsewhere s houtside hk hk'

/-- The condition on an exchange under which a partition goes on to order its parts. -/
def keepsSides (rank : Nat) : Condition (SparseArray T) Unit Int :=
  fun _ s l r i j m => KeepsSides (s.tuple rank) l r i j m ∨ r ≤ l + 2

variable (T cut rank n) in
theorem orderedRule : Rule (coo_quickSort_parallel_internal (T := T) cut rank) (keepsSides rank) n
    (fun _ s l r i j m phase => Ordering (s.tuple rank) l r i j m phase) where
  start hrange := ⟨partitioning_start hrange.2.2 (middle hrange), fun _ => rfl,
    Or.inl ⟨fun k hk hk' => by omega, fun k hk hk' => by omega⟩⟩
  bounds h := h.partitioning.bounds
  again h hij := ⟨h.partitioning.around hij, h.middle, Or.inl (h.sided (Or.inr hij))⟩
  up_le h := (rule T rank n cut).up_le (t := ()) h.partitioning
  up_step h hb := ⟨(rule T rank n cut).up_step h.partitioning hb, h.middle,
    Or.inl ((h.sided (Or.inl nofun)).up ((ltIndices_iff _ _ _).mp hb))⟩
  up_stop h hb := ⟨(rule T rank n cut).up_stop h.partitioning hb, h.middle,
    Or.inl (h.sided (Or.inl nofun))⟩
  down_le h := (rule T rank n cut).down_le (t := ()) h.partitioning
  down_step h ha := ⟨(rule T rank n cut).down_step h.partitioning ha, h.middle,
    Or.inl ((h.sided (Or.inl nofun)).down ((gtIndices_iff _ _ _).mp ha))⟩
  down_stop h ha := ⟨(rule T rank n cut).down_stop h.partitioning ha, h.middle,
    Or.inl (h.sided (Or.inl nofun))⟩
  swap := by
    intro t s l r i j m hrange h hij hmay
    have hsided := h.sided (Or.inl nofun)
    obtain ⟨haround, hi, hj⟩ := h.partitioning
    have he : ∀ k, l ≤ k → k ≤ r →
        (swapEverything s rank i j).tuple rank k = s.tuple rank (Equiv.swap i j k) :=
      fun k _ _ => tuple_swapEverything _ _ _ k
    refine ⟨haround.swap hi hj hij he, h.middle, ?_⟩
    by_cases hkeeps : KeepsSides (s.tuple rank) l r i j m
    · exact Or.inl (hsided.swap haround hi hj hij he hkeeps)
    · have hin := haround.inside
      exact Or.inr ⟨rfl, hsided.swap_short haround hi hj hij he hrange.1
        (h.middle (hin.1.trans hin.2.1)) (hmay.resolve_left hkeeps) hkeeps⟩
  skip h hji := ⟨(rule T rank n cut).skip (t := ()) h.partitioning hji, h.middle,
    Or.inl (h.sided (Or.inl nofun))⟩
  smaller h hji hlr := h.partitioning.smaller hji hlr
  fetch_inside := (rule T rank n cut).fetch_inside
  pivot_inside h hphase := (rule T rank n cut).pivot_inside (t := ()) h.partitioning hphase
  elsewhere := by
    intro t s l r i j m phase t' u v hrange h _ _ houtside
    exact h.congr hrange.1 fun k hk hk' => tuple_elsewhere s houtside hk hk'

theorem parts : Parts n (· ≤ ·) (fun (_ : Unit) (s : SparseArray T) k => s.tuple rank k)
    (fun _ s l r i j m phase => Ordering (s.tuple rank) l r i j m phase) := by
  intro t s l r i j m _ h hji a b hla hai hjb hbr hab
  rcases h.order with hsided | ⟨-, -, hparts⟩
  · exact hsided.partsInOrder a b hla hai hjb hbr hab
  · exact hparts a b hla hai hjb hbr hab

/-- A run of the sort, on some schedule, whose exchanges meet a condition. -/
abbrev Reaches (may : Condition (SparseArray T) Unit Int) (rank k : Nat)
    (c d : Config (SparseArray T) Unit Int) : Prop :=
  Steps (coo_quickSort_parallel_internal cutoff rank) may k c d

/-- What the sort guarantees for all lists. -/
structure Permutes (s : SparseArray T) (n rank : Nat) : Prop where
  terminates : ∃ bound : Nat, ∀ k d,
    Reaches anyExchange rank k (sortCooIndicesGeneric s n) d → k ≤ bound
  goes_on : ∀ k d, Reaches anyExchange rank k (sortCooIndicesGeneric s n) d → d.frames ≠ [] →
    ∃ e, Reaches anyExchange rank (k + 1) (sortCooIndicesGeneric s n) e
  inside : ∀ k d, Reaches anyExchange rank k (sortCooIndicesGeneric s n) d → ∀ f ∈ d.frames,
    ∀ place ∈ (coo_quickSort_parallel_internal (T := T) cutoff rank).accesses f,
      0 ≤ place ∧ place < n
  permuted : ∀ k d, Reaches anyExchange rank k (sortCooIndicesGeneric s n) d →
    Permuted n (s.entry rank) (d.state.entry rank)

/-- A run that has ended leaves the tuples in order. -/
def EndsOrdered (may : Condition (SparseArray T) Unit Int) (s : SparseArray T) (n rank : Nat) :
    Prop :=
  ∀ k d, Reaches may rank k (sortCooIndicesGeneric s n) d → d.frames = [] →
    ∀ a b : Int, 0 ≤ a → a < b → b < n → d.state.tuple rank a ≤ d.state.tuple rank b

theorem valid_start (inv : Unit → SparseArray T → Int → Int → Int → Int → Int → Phase → Prop)
    (s : SparseArray T) (n : Nat) : Valid n inv (sortCooIndicesGeneric s n) := by
  refine ⟨fun f hf => ?_, List.pairwise_singleton _ _⟩
  rw [List.mem_singleton.mp hf]
  exact ⟨le_rfl, by omega, by omega⟩

theorem permutes (n rank : Nat) : Permutes s n rank := by
  have R := rule T rank n cutoff
  have hvalid := valid_start (fun _ s l r i j m phase =>
    Partitioning (s.tuple rank) l r i j m phase) s n
  refine ⟨⟨(sortCooIndicesGeneric s n).weight.toNat, fun k d h => ?_⟩, fun k d h hne => ?_,
    fun k d h => R.accesses_inside hvalid h,
    fun k d h => R.perm_of_steps (observes_entry rank n cutoff) hvalid h ()⟩
  · have hle := R.steps_le (show (0 : Int) ≤ 1000 by decide) hvalid h
    omega
  · obtain ⟨e, he⟩ := exists_step hne
    exact ⟨e, h.tail he⟩

theorem endsOrdered_of_keepsSides (n rank : Nat) : EndsOrdered (keepsSides rank) s n rank := by
  intro k d h hend a b ha hab hb
  refine (orderedRule T rank n cutoff).ordered_of_steps (observes_tuple rank n cutoff) parts
    (valid_start _ s n) ?_ h hend () ha hab hb
  intro t a b ha hab hb
  refine Or.inl ⟨.call () 0 (n - 1), List.mem_singleton.mpr rfl, ⟨rfl, ha, ?_⟩,
    ⟨rfl, ha.trans hab.le, ?_⟩⟩
  · simp only [Frame.right]
    omega
  · simp only [Frame.right]
    omega

/-- Up to three tuples are sorted. -/
theorem endsOrdered_of_le (hn : n ≤ 3) (rank : Nat) : EndsOrdered anyExchange s n rank := by
  intro k d h
  refine endsOrdered_of_keepsSides s n rank k d ?_
  refine (rule T rank n cutoff).steps_of_meets (fun s f hf => ?_) (valid_start _ s n) h
  have hrange := hf.inRange
  cases f with
  | call => trivial
  | loop t l r i j m phase =>
      cases phase with
      | exchange =>
          obtain ⟨h0, hr, -⟩ := hrange
          simp only [Frame.left, Frame.right] at h0 hr
          exact fun _ => Or.inr (by omega)
      | outer => trivial
      | up => trivial
      | down => trivial

/-- Tuples without coordinates are equal. -/
theorem endsOrdered_zero (n : Nat) : EndsOrdered anyExchange s n 0 :=
  fun _ _ _ _ _ _ _ _ _ => le_rfl

end Runs

/-! ## Lists that are not sorted -/

section Unsorted

variable {T : Type} [Inhabited T] {rank n : Nat}

/-- Keys with the largest one in the middle, larger ones before it than behind it, and the smallest
one at the end. -/
def middleKey (n : Nat) (k : Int) : Int :=
  if k < (n - 1 : Int) / 2 then 2
  else if k = (n - 1 : Int) / 2 then 3
  else if k < n - 1 then 1
  else 0

/-- These keys in the first coordinate. -/
def unsorted (n rank : Nat) : SparseArray T where
  indices c := if c % rank = 0 then middleKey n (c / rank) else 0
  array _ := default

theorem tuple_unsorted (hrank : 0 < rank) (n : Nat) (k : Int) :
    (unsorted n rank : SparseArray T).tuple rank k =
      middleKey n k :: List.replicate (rank - 1) 0 := by
  obtain ⟨r, rfl⟩ : ∃ r, rank = r + 1 := ⟨rank - 1, by omega⟩
  have hpos : ((r + 1 : Nat) : Int) ≠ 0 := by omega
  rw [SparseArray.tuple, List.range_succ_eq_map, List.map_cons, List.map_map]
  refine List.cons_eq_cons.mpr ⟨?_, ?_⟩
  · simp only [unsorted, Nat.cast_zero, add_zero, Int.mul_emod_left, if_true,
      Int.mul_ediv_cancel _ hpos]
  · rw [Nat.add_sub_cancel, List.eq_replicate_iff]
    refine ⟨by simp, fun x hx => ?_⟩
    obtain ⟨e, he, rfl⟩ := List.mem_map.mp hx
    have hlt := List.mem_range.mp he
    have hmod : (k * ((r + 1 : Nat) : Int) + ((e + 1 : Nat) : Int)) % ((r + 1 : Nat) : Int) =
        ((e + 1 : Nat) : Int) := by
      rw [Int.mul_add_emod_self_right, Int.emod_eq_of_lt (by omega) (by omega)]
    simp only [unsorted, Function.comp_apply, Nat.succ_eq_add_one, hmod]
    rw [if_neg (by omega)]

theorem tuple_lt_iff (hrank : 0 < rank) (n : Nat) (k k' : Int) :
    (unsorted n rank : SparseArray T).tuple rank k <
        (unsorted n rank : SparseArray T).tuple rank k' ↔
      middleKey n k < middleKey n k' := by
  rw [tuple_unsorted hrank, tuple_unsorted hrank, List.cons_lt_cons_iff]
  simp

variable (rank n) in
/-- The comparisons of the scans, before the exchange and after it. -/
theorem unsorted_compare (hrank : 0 < rank) {s : SparseArray T} {i j : Int}
    (hs : ∀ k, s.tuple rank k = (unsorted n rank : SparseArray T).tuple rank (Equiv.swap i j k))
    (a b : Int) :
    (ltIndices s.indices rank a b = true ↔
      middleKey n (Equiv.swap i j a) < middleKey n (Equiv.swap i j b)) ∧
    (gtIndices s.indices rank a b = true ↔
      middleKey n (Equiv.swap i j b) < middleKey n (Equiv.swap i j a)) := by
  rw [ltIndices_iff, gtIndices_iff, hs, hs, tuple_lt_iff hrank, tuple_lt_iff hrank]
  exact ⟨Iff.rfl, Iff.rfl⟩

/-- The first partition moves the middle to the end, compares with the smallest key from then on,
and leaves a larger key before a smaller one. -/
theorem first_partition (hrank : 0 < rank) (hn : 4 ≤ n) :
    ∃ k d,
      Reaches anyExchange rank k (sortCooIndicesGeneric (unsorted n rank : SparseArray T) n) d ∧
      d.state = swapEverything (unsorted n rank) rank ((n - 1) / 2) (n - 1) ∧
      d.frames = [.call () 0 ((n - 1) / 2), .call () ((n - 1) / 2 + 1) (n - 1)] := by
  obtain ⟨M, hM⟩ : ∃ M : Int, M = (n - 1 : Int) / 2 := ⟨_, rfl⟩
  have hkey : ∀ k, middleKey n k = if k < M then 2 else if k = M then 3 else
      if k < n - 1 then 1 else 0 := fun k => by rw [middleKey, hM]
  rw [← hM]
  have hM1 : 1 ≤ M := by omega
  have hMn : M + 1 < n - 1 := by omega
  obtain ⟨count, hcount⟩ : ∃ count : Nat, (count : Int) = M := ⟨M.toNat, by omega⟩
  obtain ⟨count', hcount'⟩ : ∃ count' : Nat, (count' : Int) = n - 2 - M :=
    ⟨(n - 2 - M).toNat, by omega⟩
  have hbefore := fun a b => unsorted_compare (T := T) rank n hrank (i := 0) (j := 0)
    (fun k => by rw [Equiv.swap_self, Equiv.refl_apply]) a b
  have hafter := fun a b => unsorted_compare (T := T) rank n hrank (i := M) (j := n - 1)
    (tuple_swapEverything _ _ _) a b
  generalize hs0 : (unsorted n rank : SparseArray T) = s0 at hbefore hafter
  generalize hs1 : swapEverything s0 rank M (n - 1) = s1 at hafter
  simp only [Equiv.swap_self, Equiv.refl_apply] at hbefore
  have hmid : ((0 : Int) + (n - 1)).tdiv 2 = M := by
    rw [zero_add, Int.tdiv_eq_ediv_of_nonneg (by omega), hM]
  have hlast : middleKey n (n - 1) = 0 := by
    rw [hkey, if_neg (by omega), if_neg (by omega), if_neg (by omega)]
  have hmiddle : middleKey n M = 3 := by rw [hkey, if_neg (by omega), if_pos rfl]
  have hbehind : ∀ k, M < k → k < n - 1 → middleKey n k = 1 := fun k hk hk' => by
    rw [hkey, if_neg (by omega), if_neg (by omega), if_pos hk']
  have hfixed : ∀ k, M < k → k < n - 1 → Equiv.swap M (n - 1) k = k := fun k hk hk' =>
    Equiv.swap_apply_of_ne_of_ne (by omega) (by omega)
  -- the first scan runs up to the middle, the second one stays at the end
  have hup : ∀ k, 0 ≤ k → k < 0 + (count : Int) → ltIndices s0.indices rank k M = true := by
    intro k hk hk'
    rw [(hbefore k M).1, hmiddle, hkey, if_pos (by omega)]
    decide
  have hup' : ltIndices s0.indices rank M M = false :=
    Bool.eq_false_iff.mpr fun h => lt_irrefl _ ((hbefore M M).1.mp h)
  have hdown : gtIndices s0.indices rank (n - 1) M = false := by
    rw [← Bool.not_eq_true, (hbefore (n - 1) M).2, hmiddle, hlast]
    decide
  -- with the smallest key in the middle, the second scan runs down to it
  have hstay : ltIndices s1.indices rank (M + 1) M = false := by
    rw [← Bool.not_eq_true, (hafter (M + 1) M).1, Equiv.swap_apply_left, hlast,
      hfixed _ (by omega) hMn, hbehind _ (by omega) hMn]
    decide
  have hfall : ∀ k, n - 2 - (count' : Int) < k → k ≤ n - 2 →
      gtIndices s1.indices rank k M = true := by
    intro k hk hk'
    rw [(hafter k M).2, Equiv.swap_apply_left, hlast, hfixed _ (by omega) (by omega),
      hbehind _ (by omega) (by omega)]
    decide
  have hfall' : gtIndices s1.indices rank M M = false :=
    Bool.eq_false_iff.mpr fun h => lt_irrefl _ ((hafter M M).2.mp h)
  have hplace : (0 : Int) + count = M := by omega
  have hplace' : (n : Int) - 2 - count' = M := by omega
  have hback : (n : Int) - 1 - 1 = n - 2 := by omega
  have hcall : Steps (coo_quickSort_parallel_internal cutoff rank) anyExchange 2
      (alone s0 (.call () 0 (n - 1))) (alone s0 (.loop () 0 (n - 1) 0 (n - 1) M .up)) := by
    have hstep := step_call (m := coo_quickSort_parallel_internal cutoff rank) (t := ()) (l := 0)
      (r := n - 1) (s := s0)
    simp only [coo_quickSort_parallel_internal, hmid] at hstep
    exact ((Steps.refl _).tail hstep).tail (step_outer (by omega))
  have hscans : Steps (coo_quickSort_parallel_internal cutoff rank) anyExchange (count + 2)
      (alone s0 (.loop () 0 (n - 1) 0 (n - 1) M .up))
      (alone s0 (.loop () 0 (n - 1) M (n - 1) M .exchange)) := by
    have hscan := steps_up (m := coo_quickSort_parallel_internal cutoff rank) (t := ()) (l := 0)
      (r := n - 1) (i := 0) (j := n - 1) (p := M) (s := s0) count hup
    rw [hplace] at hscan
    exact (hscan.tail (step_up_stop hup')).tail (step_down_stop hdown)
  have hexchange : Steps (coo_quickSort_parallel_internal cutoff rank) anyExchange 3
      (alone s0 (.loop () 0 (n - 1) M (n - 1) M .exchange))
      (alone s1 (.loop () 0 (n - 1) (M + 1) (n - 2) M .down)) := by
    have hstep := step_exchange (m := coo_quickSort_parallel_internal cutoff rank) (t := ())
      (l := 0) (r := n - 1) (i := M) (j := n - 1) (p := M) (s := s0) (by omega)
    rw [hback] at hstep
    subst hs1
    exact (((Steps.refl _).tail hstep).tail (step_outer (by omega))).tail (step_up_stop hstay)
  have hends : Steps (coo_quickSort_parallel_internal cutoff rank) anyExchange (count' + 2)
      (alone s1 (.loop () 0 (n - 1) (M + 1) (n - 2) M .down))
      (alone s1 (.loop () 0 (n - 1) (M + 1) M M .outer)) := by
    have hscan := steps_down (m := coo_quickSort_parallel_internal cutoff rank) (t := ()) (l := 0)
      (r := n - 1) (i := M + 1) (j := n - 2) (p := M) (s := s1) count' hfall
    rw [hplace'] at hscan
    exact (hscan.tail (step_down_stop hfall')).tail (step_skip (by omega))
  obtain ⟨d, hparts, hstate, hframes⟩ :=
    step_parts (m := coo_quickSort_parallel_internal cutoff rank) (t := ()) (l := 0) (r := n - 1)
      (i := M + 1) (j := M) (p := M) (s := s1) (by omega) (by omega) (by omega)
  exact ⟨_, d, (((hcall.trans hscans).trans hexchange).trans hends).tail hparts, hstate, hframes⟩

/-- Longer lists with these keys end up out of order. -/
theorem not_endsOrdered_unsorted (hrank : 0 < rank) (hn : 4 ≤ n) :
    ¬ EndsOrdered anyExchange (unsorted n rank : SparseArray T) n rank := by
  intro hordered
  obtain ⟨k, d, hfirst, hstate, hframes⟩ := first_partition (T := T) hrank hn
  have R := rule T rank n cutoff
  have hvalid := R.valid_of_steps (valid_start _ _ n) hfirst
  obtain ⟨k', e, hrest, hend⟩ := R.exists_end (show (0 : Int) ≤ 1000 by decide) hvalid
  have hcut : Uncrossed () ((n - 1 : Int) / 2) d := by
    intro f hf
    rw [hframes] at hf
    simp only [List.mem_cons, List.not_mem_nil, or_false] at hf
    rcases hf with rfl | rfl
    · exact Or.inl fun k hk => hk.2.2
    · exact Or.inr fun k hk => Int.lt_of_add_one_le hk.2.1
  obtain ⟨-, hsides⟩ := R.sides_of_steps (observes_tuple rank n cutoff) hvalid hrest hcut
  obtain ⟨a, ha, han, hleft, hla⟩ := hsides 0 le_rfl (by omega)
  obtain ⟨b, hb, hbn, hright, hlb⟩ := hsides ((n - 1) / 2 + 1) (by omega) (by omega)
  have hle := hordered (k + k') e (hfirst.trans hrest) hend a b ha (by omega) hbn
  rw [hla, hlb, hstate, tuple_swapEverything, tuple_swapEverything,
    Equiv.swap_apply_of_ne_of_ne (by omega) (by omega),
    Equiv.swap_apply_of_ne_of_ne (by omega) (by omega)] at hle
  refine absurd hle (not_le.mpr ((tuple_lt_iff hrank n _ _).mpr ?_))
  rw [middleKey, middleKey, if_neg (by omega), if_neg (by omega), if_pos (by omega),
    if_pos (by omega)]
  decide

/-- The sort permutes the entries on any schedule; exactly the lists of up to three tuples, or of
tuples without coordinates, are always in order, and longer ones in the runs whose exchanges keep
the passed tuples on their sides. -/
theorem sorts_iff (T : Type) [Inhabited T] (n rank : Nat) :
    (∀ s : SparseArray T, Permutes s n rank) ∧
      ((∀ s : SparseArray T, EndsOrdered anyExchange s n rank) ↔ rank = 0 ∨ n ≤ 3) ∧
      ∀ s : SparseArray T, EndsOrdered (keepsSides rank) s n rank := by
  refine ⟨fun s => permutes s n rank, ⟨fun h => ?_, ?_⟩,
    fun s => endsOrdered_of_keepsSides s n rank⟩
  · by_contra hnot
    obtain ⟨hrank, hn⟩ := not_or.mp hnot
    exact not_endsOrdered_unsorted (Nat.pos_of_ne_zero hrank) (by omega) (h _)
  · rintro (rfl | hn) s
    · exact endsOrdered_zero s n
    · exact endsOrdered_of_le s hn rank

/-- The keys 2, 3, 1, 0 are not sorted. -/
theorem not_sorted_always :
    (List.range 4).map (fun k : Nat => (unsorted 4 1 : SparseArray Int).tuple 1 k) =
        [[2], [3], [1], [0]] ∧
      ¬ EndsOrdered anyExchange (unsorted 4 1 : SparseArray Int) 4 1 :=
  ⟨by decide, not_endsOrdered_unsorted (by decide) (by decide)⟩

end Unsorted

end CooSort
end LibND4J
