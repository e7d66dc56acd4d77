import Mathlib.Algebra.BigOperators.Group.List.Basic
import Mathlib.Algebra.Group.End
import Mathlib.Data.List.Nodup

/-!
# Exchanges in a memory

Two cells are exchanged through a temporary, two rows place by place, and the rows of a table are
shuffled by exchanges one after the other.  The rows may lie anywhere in the memory as long as
their cells are different.

Main results:

- Theorem `exchangeRows_cell`: exchanging two rows renames the rows.
- Theorem `shuffle_cell`: a shuffle permutes the rows, and the permutation depends on the
  exchanged rows alone.
- Theorem `shuffle_of_outside`: the other cells are unchanged.
-/

namespace Swaps

section Cells

variable {A E : Type*} [DecidableEq A]

/-- Exchange two cells through a temporary. -/
def exchange (m : A → E) (a b : A) : A → E :=
  let tmp := m a
  let m := Function.update m a (m b)
  Function.update m b tmp

theorem exchange_apply (m : A → E) (a b c : A) : exchange m a b c = m (Equiv.swap a b c) := by
  simp only [exchange, Function.update_apply, Equiv.swap_apply_def]
  by_cases hb : c = b
  · by_cases ha : c = a
    · rw [if_pos hb, if_pos ha, ← ha, ← hb]
    · rw [if_pos hb, if_neg ha, if_pos hb]
  · rw [if_neg hb, if_neg hb]
    split <;> rfl

theorem exchange_of_ne (m : A → E) {a b c : A} (ha : c ≠ a) (hb : c ≠ b) :
    exchange m a b c = m c := by
  rw [exchange_apply, Equiv.swap_apply_of_ne_of_ne ha hb]

end Cells

section Rows

variable {A E R K : Type*} [DecidableEq A] {cell : R → K → A} {rows : R → Prop} {places : K → Prop}

/-- Exchange two rows, place by place. -/
def exchangeRows (cell : R → K → A) (r r' : R) (order : List K) (m : A → E) : A → E :=
  order.foldl (fun m k => exchange m (cell r k) (cell r' k)) m

/-- Different places of the rows are different cells. -/
def RowsApart (cell : R → K → A) (rows : R → Prop) (places : K → Prop) : Prop :=
  ∀ r r' k k', rows r → rows r' → places k → places k' → cell r k = cell r' k' → r = r' ∧ k = k'

theorem exchangeRows_of_outside {r r' : R} {c : A} (order : List K)
    (hc : ∀ k ∈ order, c ≠ cell r k ∧ c ≠ cell r' k) (m : A → E) :
    exchangeRows cell r r' order m c = m c := by
  induction order generalizing m with
  | nil => rfl
  | cons k order ih =>
      obtain ⟨hr, hr'⟩ := hc k List.mem_cons_self
      have hrest := ih (fun k hk => hc k (List.mem_cons_of_mem _ hk))
        (exchange m (cell r k) (cell r' k))
      exact hrest.trans (exchange_of_ne m hr hr')

variable [DecidableEq R] [DecidableEq K]

/-- An exchange at one place of two rows renames the rows there. -/
theorem RowsApart.swap_cell (h : RowsApart cell rows places) {u v r : R} {k k' : K} (hu : rows u)
    (hv : rows v) (hr : rows r) (hk : places k) (hk' : places k') :
    Equiv.swap (cell u k') (cell v k') (cell r k) =
      if k = k' then cell (Equiv.swap u v r) k else cell r k := by
  have hcell : ∀ w, rows w → (cell r k = cell w k' ↔ r = w ∧ k = k') := fun w hw =>
    ⟨h r w k k' hr hw hk hk', fun heq => by rw [heq.1, heq.2]⟩
  simp only [Equiv.swap_apply_def, hcell u hu, hcell v hv]
  by_cases heq : k = k'
  · subst heq
    simp only [and_true, if_true]
    split
    · rfl
    · split <;> rfl
  · simp only [heq, and_false, if_false]

/-- The places that have been exchanged show the other row. -/
theorem exchangeRows_cell (h : RowsApart cell rows places) {u v r : R} (hu : rows u) (hv : rows v)
    (hr : rows r) {k : K} (hk : places k) {order : List K} (hnodup : order.Nodup)
    (hplaces : ∀ k ∈ order, places k) (m : A → E) :
    exchangeRows cell u v order m (cell r k) =
      if k ∈ order then m (cell (Equiv.swap u v r) k) else m (cell r k) := by
  have hrow : rows (Equiv.swap u v r) := by
    rw [Equiv.swap_apply_def]
    split
    · exact hv
    · split
      · exact hu
      · exact hr
  induction order generalizing m with
  | nil => simp [exchangeRows]
  | cons x order ih =>
      obtain ⟨hx, hrest⟩ := List.nodup_cons.mp hnodup
      have hplace := hplaces x List.mem_cons_self
      have hstep := ih hrest (fun k hk => hplaces k (List.mem_cons_of_mem _ hk))
        (exchange m (cell u x) (cell v x))
      refine hstep.trans ?_
      rw [exchange_apply, exchange_apply, h.swap_cell hu hv hrow hk hplace,
        h.swap_cell hu hv hr hk hplace]
      by_cases hmem : k ∈ order
      · have hne : k ≠ x := fun heq => hx (heq ▸ hmem)
        simp [hmem, hne]
      · simp only [hmem, if_false, List.mem_cons, or_false]
        exact apply_ite m _ _ _

end Rows

/-! ## Shuffles -/

section Shuffles

variable {A E R K : Type*} [DecidableEq A] {cell : R → K → A} {rows : R → Prop} {places : K → Prop}
variable {target : R → Option R}

/-- One row after the other is exchanged with its target, if it has one. -/
def shuffle (cell : R → K → A) (target : R → Option R) (order : R → List K) (rowOrder : List R)
    (m : A → E) : A → E :=
  rowOrder.foldl (fun m r =>
    match target r with
    | none => m
    | some r' => exchangeRows cell r r' (order r) m) m

theorem shuffle_of_outside {order : R → List K} {c : A} (rowOrder : List R)
    (hrows : ∀ r ∈ rowOrder, rows r) (htarget : ∀ r r', rows r → target r = some r' → rows r')
    (hplaces : ∀ r, ∀ k ∈ order r, places k) (hc : ∀ r k, rows r → places k → c ≠ cell r k)
    (m : A → E) : shuffle cell target order rowOrder m c = m c := by
  induction rowOrder generalizing m with
  | nil => rfl
  | cons r rowOrder ih =>
      have hr := hrows r List.mem_cons_self
      rw [shuffle, List.foldl_cons]
      refine (ih (fun r hr => hrows r (List.mem_cons_of_mem _ hr)) _).trans ?_
      cases hrow : target r with
      | none => rfl
      | some r' =>
          refine exchangeRows_of_outside _ (fun k hk => ⟨?_, ?_⟩) m
          · exact hc r k hr (hplaces r k hk)
          · exact hc r' k (htarget r r' hr hrow) (hplaces r k hk)

variable [DecidableEq R]

/-- The permutation of the rows. -/
def shufflePermutation (target : R → Option R) (rowOrder : List R) : Equiv.Perm R :=
  (rowOrder.map fun r => (target r).elim 1 (Equiv.swap r)).prod

theorem rows_shufflePermutation (rowOrder : List R) (hrows : ∀ r ∈ rowOrder, rows r)
    (htarget : ∀ r r', rows r → target r = some r' → rows r') (r : R) :
    rows (shufflePermutation target rowOrder r) ↔ rows r := by
  induction rowOrder with
  | nil => rfl
  | cons x rowOrder ih =>
      have hrest := ih fun r hr => hrows r (List.mem_cons_of_mem _ hr)
      have hx := hrows x List.mem_cons_self
      rw [← hrest, shufflePermutation, List.map_cons, List.prod_cons, Equiv.Perm.mul_apply]
      rw [← shufflePermutation]
      generalize shufflePermutation target rowOrder r = r'
      cases hrow : target x with
      | none => rfl
      | some y =>
          have hy := htarget x y hx hrow
          rw [Option.elim, Equiv.swap_apply_def]
          split
          · next heq => rw [heq]; exact iff_of_true hy hx
          · split
            · next heq => rw [heq]; exact iff_of_true hx hy
            · rfl

variable [DecidableEq K]

/-- A shuffle whose rows are exchanged as a whole permutes the rows. -/
theorem shuffle_cell (h : RowsApart cell rows places) {order : R → List K}
    (hnodup : ∀ r, (order r).Nodup) (horder : ∀ r k, k ∈ order r ↔ places k) (rowOrder : List R)
    (hrows : ∀ r ∈ rowOrder, rows r) (htarget : ∀ r r', rows r → target r = some r' → rows r')
    {r : R} (hr : rows r) {k : K} (hk : places k) (m : A → E) :
    shuffle cell target order rowOrder m (cell r k) =
      m (cell (shufflePermutation target rowOrder r) k) := by
  induction rowOrder generalizing m with
  | nil => rfl
  | cons x rowOrder ih =>
      have hx := hrows x List.mem_cons_self
      have hrest : ∀ r ∈ rowOrder, rows r := fun r hr => hrows r (List.mem_cons_of_mem _ hr)
      have hrow := (rows_shufflePermutation rowOrder hrest htarget r).mpr hr
      rw [shuffle, List.foldl_cons]
      refine (ih hrest _).trans ?_
      rw [shufflePermutation, shufflePermutation, List.map_cons, List.prod_cons,
        Equiv.Perm.mul_apply, ← shufflePermutation]
      cases heq : target x with
      | none => rfl
      | some y =>
          have hy := htarget x y hx heq
          have hexchange := exchangeRows_cell h hx hy hrow hk (hnodup x)
            (fun k hk => (horder x k).mp hk) m
          rwa [if_pos ((horder x k).mpr hk)] at hexchange

end Shuffles
end Swaps
