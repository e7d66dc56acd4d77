import Mathlib.Data.List.Induction
import Mathlib.Data.List.Nodup

/-!
# Loops that write one cell per step

A step of such a loop computes a value from the memory and stores it in one cell.
When no step writes a cell that another step writes or reads, the steps commute in
effect: every cell holds the value its own step computes from the initial memory.

Main results:

- Theorem `storeAll_of_not_written`: a cell that no step writes keeps its value.
- Theorem `storeAll_of_independent`: a written cell holds what its step computes
  from the initial memory.
- Theorem `storeAll_perm`: such steps leave the same memory in any order.
- Theorem `storeAll_of_agree`: a cell whose writers all store one value holds it.
- Theorem `exists_of_copies`: what a copying loop always brings somewhere, one step brings.
- Theorem `exists_foldlM_update_iff`: steps that can fail and read only the cell they
  write.
- Theorem `foldl_set_range`: writing every position of a list, one after the other.
-/

namespace Stores

variable {ι κ β : Type*} [DecidableEq κ]

/-- Run the steps in order: step `v` stores `value v memory` in the cell `cell v`. -/
def storeAll (cell : ι → κ) (value : ι → (κ → β) → β) (steps : List ι) (memory : κ → β) : κ → β :=
  steps.foldl (fun m v => Function.update m (cell v) (value v m)) memory

@[simp]
theorem storeAll_nil (cell : ι → κ) (value : ι → (κ → β) → β) (memory : κ → β) :
    storeAll cell value [] memory = memory :=
  rfl

theorem storeAll_cons (cell : ι → κ) (value : ι → (κ → β) → β) (v : ι) (steps : List ι)
    (memory : κ → β) :
    storeAll cell value (v :: steps) memory =
      storeAll cell value steps (Function.update memory (cell v) (value v memory)) :=
  rfl

variable {cell : ι → κ} {value : ι → (κ → β) → β} {steps : List ι} {k : κ} {memory : κ → β}
    {α : Type*}

/-- Steps that store the same values in the same cells. -/
theorem storeAll_congr {cell' : ι → κ} {value' : ι → (κ → β) → β}
    (hcell : ∀ v ∈ steps, cell v = cell' v)
    (hvalue : ∀ v ∈ steps, ∀ memory, value v memory = value' v memory) (memory : κ → β) :
    storeAll cell value steps memory = storeAll cell' value' steps memory := by
  refine List.foldl_ext _ _ _ fun m v hv => ?_
  show Function.update m (cell v) (value v m) = Function.update m (cell' v) (value' v m)
  rw [hcell v hv, hvalue v hv]

/-- A cell that no step writes keeps its value. -/
theorem storeAll_of_not_written (hk : ∀ v ∈ steps, cell v ≠ k) (memory : κ → β) :
    storeAll cell value steps memory k = memory k := by
  induction steps generalizing memory with
  | nil => rfl
  | cons v steps ih =>
      have hv : k ≠ cell v := (hk v List.mem_cons_self).symm
      rw [storeAll_cons, ih (fun w hw => hk w (List.mem_cons_of_mem _ hw)),
        Function.update_of_ne hv]

/-- What every step keeps holds after all of them. -/
theorem storeAll_keeps {P : (κ → β) → Prop} (hstep : ∀ v ∈ steps, ∀ memory, P memory →
      P (Function.update memory (cell v) (value v memory))) (h : P memory) :
    P (storeAll cell value steps memory) := by
  induction steps generalizing memory with
  | nil => exact h
  | cons v steps ih =>
      rw [storeAll_cons]
      exact ih (fun w hw => hstep w (List.mem_cons_of_mem _ hw))
        (hstep v List.mem_cons_self memory h)

/-- A value is unaffected by a store into a cell. -/
def Ignores (value : (κ → β) → β) (k : κ) : Prop :=
  ∀ (memory : κ → β) (b : β), value (Function.update memory k b) = value memory

/-- When the written cells are distinct and no step reads a cell that another step
writes, every written cell holds the value computed from the initial memory. -/
theorem storeAll_of_independent (hcells : (steps.map cell).Nodup)
    (hreads : ∀ v ∈ steps, ∀ w ∈ steps, cell v ≠ cell w → Ignores (value v) (cell w))
    (memory : κ → β) {v : ι} (hv : v ∈ steps) :
    storeAll cell value steps memory (cell v) = value v memory := by
  induction steps generalizing memory with
  | nil => simp at hv
  | cons w steps ih =>
      rw [List.map_cons, List.nodup_cons] at hcells
      obtain ⟨hw, htail⟩ := hcells
      rw [storeAll_cons]
      rcases List.mem_cons.mp hv with rfl | hv
      · have hlater : ∀ u ∈ steps, cell u ≠ cell v := by
          intro u hu heq
          exact hw (heq ▸ List.mem_map_of_mem hu)
        rw [storeAll_of_not_written hlater, Function.update_self]
      · have hne : cell v ≠ cell w := by
          intro heq
          exact hw (heq ▸ List.mem_map_of_mem hv)
        have hrest : ∀ v ∈ steps, ∀ w ∈ steps, cell v ≠ cell w → Ignores (value v) (cell w) :=
          fun a ha b hb => hreads a (List.mem_cons_of_mem _ ha) b (List.mem_cons_of_mem _ hb)
        rw [ih htail hrest _ hv]
        exact hreads v (List.mem_cons_of_mem _ hv) w List.mem_cons_self hne memory _

/-- Independent steps leave the same memory in any order. -/
theorem storeAll_perm {schedule : List ι} (hperm : schedule.Perm steps)
    (hcells : (steps.map cell).Nodup)
    (hreads : ∀ v ∈ steps, ∀ w ∈ steps, cell v ≠ cell w → Ignores (value v) (cell w))
    (memory : κ → β) : storeAll cell value schedule memory = storeAll cell value steps memory := by
  have hcells' : (schedule.map cell).Nodup := (hperm.map cell).nodup_iff.mpr hcells
  funext k
  by_cases hwritten : ∃ v ∈ steps, cell v = k
  · obtain ⟨v, hv, rfl⟩ := hwritten
    rw [storeAll_of_independent hcells hreads memory hv]
    exact storeAll_of_independent hcells'
      (fun a ha b hb => hreads a (hperm.mem_iff.mp ha) b (hperm.mem_iff.mp hb)) memory
      (hperm.mem_iff.mpr hv)
  · have hnot : ∀ v ∈ steps, cell v ≠ k := fun v hv hcell => hwritten ⟨v, hv, hcell⟩
    rw [storeAll_of_not_written hnot,
      storeAll_of_not_written fun v hv => hnot v (hperm.mem_iff.mp hv)]

theorem storeAll_append (cell : ι → κ) (value : ι → (κ → β) → β) (steps later : List ι)
    (memory : κ → β) :
    storeAll cell value (steps ++ later) memory =
      storeAll cell value later (storeAll cell value steps memory) :=
  List.foldl_append

/-- Numbered steps with cells of their own, in any order: every one of them stores the value that
it computes from the initial memory, and nothing else changes. -/
theorem storeAll_of_numbered {schedule : List ι} {visit : Nat → ι} {n : Nat}
    (hperm : schedule.Perm ((List.range n).map visit))
    (hcells : ∀ k < n, ∀ k' < n, cell (visit k) = cell (visit k') → k = k')
    (hreads : ∀ k < n, ∀ k' < n, k ≠ k' → Ignores (value (visit k)) (cell (visit k')))
    (memory : κ → β) :
    (∀ k < n, storeAll cell value schedule memory (cell (visit k)) = value (visit k) memory) ∧
      ∀ i, (∀ k < n, i ≠ cell (visit k)) → storeAll cell value schedule memory i = memory i := by
  have hmem : ∀ v ∈ schedule, ∃ k < n, visit k = v := by
    intro v hv
    obtain ⟨k, hk, heq⟩ := List.mem_map.mp (hperm.mem_iff.mp hv)
    exact ⟨k, List.mem_range.mp hk, heq⟩
  have hnodup : (schedule.map cell).Nodup := by
    refine (hperm.map cell).nodup_iff.mpr ?_
    rw [List.map_map]
    exact List.Nodup.map_on (fun k hk k' hk' heq =>
      hcells k (List.mem_range.mp hk) k' (List.mem_range.mp hk') heq) List.nodup_range
  constructor
  · intro k hk
    refine storeAll_of_independent hnodup (fun v hv w hw hne => ?_) memory
      (hperm.mem_iff.mpr (List.mem_map_of_mem (List.mem_range.mpr hk)))
    obtain ⟨j, hj, rfl⟩ := hmem v hv
    obtain ⟨j', hj', rfl⟩ := hmem w hw
    exact hreads j hj j' hj' fun heq => hne (by rw [heq])
  · intro i hi
    refine storeAll_of_not_written (fun v hv heq => ?_) memory
    obtain ⟨k, hk, rfl⟩ := hmem v hv
    exact hi k hk heq.symm

/-- The last step that writes a cell decides what it holds. -/
theorem storeAll_snoc (cell : ι → κ) (value : ι → (κ → β) → β) (steps : List ι) (v : ι)
    (memory : κ → β) :
    storeAll cell value (steps ++ [v]) memory (cell v) =
      value v (storeAll cell value steps memory) := by
  rw [storeAll_append, storeAll_cons, storeAll_nil, Function.update_self]

/-- A cell that some step writes holds the value of one of its writers. -/
theorem storeAll_of_written (hwritten : ∃ v ∈ steps, cell v = k) (memory : κ → β) :
    ∃ v ∈ steps, cell v = k ∧ ∃ m, storeAll cell value steps memory k = value v m := by
  induction steps generalizing memory with
  | nil =>
      obtain ⟨v, hv, -⟩ := hwritten
      cases hv
  | cons w steps ih =>
      rw [storeAll_cons]
      by_cases hlater : ∃ v ∈ steps, cell v = k
      · obtain ⟨v, hv, hcell, m, hm⟩ := ih hlater (Function.update memory (cell w) (value w memory))
        exact ⟨v, List.mem_cons_of_mem w hv, hcell, m, hm⟩
      · have hw : cell w = k := by
          obtain ⟨v, hv, hcell⟩ := hwritten
          rcases List.mem_cons.mp hv with rfl | hv
          · exact hcell
          · exact absurd ⟨v, hv, hcell⟩ hlater
        refine ⟨w, List.mem_cons_self, hw, memory, ?_⟩
        rw [storeAll_of_not_written fun v hv hcell => hlater ⟨v, hv, hcell⟩, ← hw,
          Function.update_self]

/-- A cell whose writers all store one value holds that value. -/
theorem storeAll_of_agree {b : β} (hwritten : ∃ v ∈ steps, cell v = k)
    (hvalue : ∀ v ∈ steps, cell v = k → ∀ memory, value v memory = b) (memory : κ → β) :
    storeAll cell value steps memory k = b := by
  obtain ⟨v, hv, hcell, m, hm⟩ := @storeAll_of_written _ _ _ _ cell value steps k hwritten memory
  rw [hm, hvalue v hv hcell m]

/-- If a loop that copies between two memories always brings a cell of one to a cell of the other,
one of its steps does. -/
theorem exists_of_copies {κ' : Type*} [DecidableEq κ'] {source : ι → κ'} {k' : κ'}
    (h : ∀ (x : κ' → Bool) (z : κ → Bool), storeAll cell (fun v _ => x (source v)) steps z k = x k')
    :
    ∃ v ∈ steps, cell v = k ∧ source v = k' := by
  have hone := h (fun s => decide (s = k')) (fun _ => false)
  rw [decide_eq_true rfl] at hone
  by_cases hwritten : ∃ v ∈ steps, cell v = k
  · obtain ⟨v, hv, hcell, m, hm⟩ := @storeAll_of_written _ _ _ _ cell
      (fun v _ => decide (source v = k')) steps k hwritten (fun _ => false)
    rw [hm] at hone
    exact ⟨v, hv, hcell, of_decide_eq_true hone⟩
  · rw [storeAll_of_not_written fun v hv hcell => hwritten ⟨v, hv, hcell⟩] at hone
    cases hone

/-! ## Lists -/

/-- A loop in a loop runs the inner steps one after the other. -/
theorem foldlM_flatMap {σ : Type*} (step : σ → ι → Option σ) (inner : α → List ι) (outer : List α)
    (s : σ) :
    (outer.flatMap inner).foldlM step s = outer.foldlM (fun s a => (inner a).foldlM step s) s := by
  induction outer generalizing s with
  | nil => rfl
  | cons a outer ih => simp [List.foldlM_append, ih]

/-- Steps that can fail, each on a cell of its own, succeed exactly if every step does on the
initial memory. -/
theorem foldlM_update_iff {value : ι → β → Option β} (hcells : (steps.map cell).Nodup)
    {final : κ → β} :
    steps.foldlM (fun m v => (value v (m (cell v))).map (Function.update m (cell v))) memory =
        some final ↔
      (∀ v ∈ steps, value v (memory (cell v)) = some (final (cell v))) ∧
        ∀ k, (∀ v ∈ steps, cell v ≠ k) → final k = memory k := by
  induction steps generalizing memory with
  | nil =>
      simp only [List.foldlM_nil, List.not_mem_nil, false_implies, implies_true, true_and,
        forall_const]
      constructor
      · intro h k
        cases h
        rfl
      · intro h
        exact congrArg some (funext h).symm
  | cons v steps ih =>
      rw [List.map_cons, List.nodup_cons] at hcells
      obtain ⟨hfresh, hcells⟩ := hcells
      have hother : ∀ w ∈ steps, cell w ≠ cell v := by
        intro w hw heq
        exact hfresh (heq ▸ List.mem_map_of_mem hw)
      rw [List.foldlM_cons, List.forall_mem_cons]
      cases hvalue : value v (memory (cell v)) with
      | none => simp
      | some b =>
          rw [Option.map_some]
          change steps.foldlM _ (Function.update memory (cell v) b) = some final ↔ _
          rw [ih hcells]
          constructor
          · rintro ⟨hsteps, hframe⟩
            have hv := hframe (cell v) hother
            rw [Function.update_self] at hv
            refine ⟨⟨congrArg some hv.symm, fun w hw => ?_⟩, fun k hk => ?_⟩
            · have hw' := hsteps w hw
              rwa [Function.update_of_ne (hother w hw)] at hw'
            · rw [List.forall_mem_cons] at hk
              rw [hframe k hk.2, Function.update_of_ne hk.1.symm]
          · rintro ⟨⟨hv, hsteps⟩, hframe⟩
            refine ⟨fun w hw => ?_, fun k hk => ?_⟩
            · rw [Function.update_of_ne (hother w hw)]
              exact hsteps w hw
            · by_cases hkv : k = cell v
              · rw [hkv, Function.update_self]
                exact (Option.some.inj hv).symm
              · rw [Function.update_of_ne hkv]
                exact hframe k (List.forall_mem_cons.mpr ⟨Ne.symm hkv, hk⟩)

/-- If every step succeeds on the initial memory, the run does. -/
theorem exists_foldlM_update {value : ι → β → Option β} (hcells : (steps.map cell).Nodup)
    (h : ∀ v ∈ steps, ∃ b, value v (memory (cell v)) = some b) :
    ∃ final, steps.foldlM (fun m v => (value v (m (cell v))).map (Function.update m (cell v)))
      memory = some final := by
  induction steps generalizing memory with
  | nil => exact ⟨memory, rfl⟩
  | cons v steps ih =>
      rw [List.map_cons, List.nodup_cons] at hcells
      obtain ⟨b, hb⟩ := h v List.mem_cons_self
      rw [List.foldlM_cons, hb, Option.map_some]
      refine ih hcells.2 fun w hw => ?_
      have hother : cell w ≠ cell v := fun heq => hcells.1 (heq ▸ List.mem_map_of_mem hw)
      rw [Function.update_of_ne hother]
      exact h w (List.mem_cons_of_mem v hw)

/-- The run leaves good values exactly if every step computes one from the initial memory. -/
theorem exists_foldlM_update_iff {cell : ι → κ} {value : ι → β → Option β} {steps : List ι}
    (hcells : (steps.map cell).Nodup) {memory : κ → β} {good : ι → β → Prop} :
    (∃ final, steps.foldlM (fun m v => (value v (m (cell v))).map (Function.update m (cell v)))
        memory = some final ∧ ∀ v ∈ steps, good v (final (cell v))) ↔
      ∀ v ∈ steps, ∃ b, value v (memory (cell v)) = some b ∧ good v b := by
  constructor
  · rintro ⟨final, hrun, hgood⟩ v hv
    exact ⟨final (cell v), ((foldlM_update_iff hcells).mp hrun).1 v hv, hgood v hv⟩
  · intro h
    obtain ⟨final, hrun⟩ := exists_foldlM_update hcells fun v hv => (h v hv).imp fun b hb => hb.1
    refine ⟨final, hrun, fun v hv => ?_⟩
    obtain ⟨b, hb, hgood⟩ := h v hv
    have hfinal := ((foldlM_update_iff hcells).mp hrun).1 v hv
    rw [hb, Option.some.injEq] at hfinal
    exact hfinal ▸ hgood

/-- Every cell is written once, with a value made of what it held. -/
theorem foldl_update_of_nodup (value : κ → β → β) {schedule : List κ} (hnodup : schedule.Nodup)
    (memory : κ → β) (hk : k ∈ schedule) :
    schedule.foldl (fun m k => Function.update m k (value k (m k))) memory k =
      value k (memory k) := by
  refine @storeAll_of_independent κ κ β _ id (fun k m => value k (m k)) schedule
    (by rwa [List.map_id]) (fun v _ w _ hne m b => ?_) memory k hk
  show value v (Function.update m w b v) = value v (m v)
  rw [Function.update_of_ne (show v ≠ w from hne)]

/-- Writing the positions of a list in order replaces its entries. -/
theorem foldl_set_range (f : Nat → α) {n : Nat} {values : List α} (hlength : values.length = n) :
    (List.range n).foldl (fun vs i => vs.set i (f i)) values = (List.range n).map f := by
  have hfront : ∀ m ≤ n, (List.range m).foldl (fun vs i => vs.set i (f i)) values =
      (List.range m).map f ++ values.drop m := by
    intro m hm
    induction m with
    | zero => rfl
    | succ m ih =>
        have hlt : m < values.length := by omega
        rw [List.range_succ, List.foldl_append, ih (by omega), List.foldl_cons, List.foldl_nil,
          List.map_append, List.set_append_right _ _ (by simp), List.length_map, List.length_range,
          Nat.sub_self, List.drop_eq_getElem_cons hlt, List.set_cons_zero, List.append_assoc]
        rfl
  rw [hfront n (Nat.le_refl n), ← hlength, List.drop_length, List.append_nil]

/-- Writing the first position of a list of equal entries. -/
theorem set_zero_replicate (n : Nat) (a b : α) :
    (List.replicate n a).set 0 b = (List.range n).map fun i => if i = 0 then b else a := by
  apply List.ext_getElem
  · simp
  · intro i hi hi'
    rw [List.getElem_set, List.getElem_map, List.getElem_range, List.getElem_replicate]
    by_cases hzero : i = 0
    · simp [hzero]
    · rw [if_neg (Ne.symm hzero), if_neg hzero]

/-! ## Pointers -/

section Pointers

variable {β : Type*}

/-- A routine that is given a pointer into a buffer. -/
def atPointer (pointer : Int) (routine : (Int → β) → Int → β) (memory : Int → β) : Int → β :=
  fun i => routine (fun j => memory (pointer + j)) (i - pointer)

theorem atPointer_apply (pointer : Int) (routine : (Int → β) → Int → β) (memory : Int → β)
    (i : Int) :
    atPointer pointer routine memory (pointer + i) =
      routine (fun j => memory (pointer + j)) i := by
  rw [atPointer]
  congr 1
  omega

end Pointers
end Stores
