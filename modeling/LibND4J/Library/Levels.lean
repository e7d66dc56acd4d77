import Mathlib.Order.Bounds.Basic
import Mathlib.Data.Set.Finite.Basic
import Mathlib.Order.WellFounded

/-!
# Levels

A level sits directly above a set when it is one more than the greatest level of its
members, and 1 when there is none.  Lists that are cut into levels are run level by
level, and a finite relation without a cycle has a minimal member in every set.

Main results:

- Theorem `isGreatest_foldl_max`: the running maximum of a loop.
- Theorem `Above.restrict`: the members that matter for a level.
- Theorem `idxOf_flatMap_range_lt`: earlier levels are run first.
- Theorem `exists_minimal_of_transGen_irrefl`: where to start in a finite relation.
-/

namespace Levels

/-! ## The level above a set -/

section Above

variable {α : Type*}

/-- The running maximum of a loop is the greatest of the start and the values met. -/
theorem isGreatest_foldl_max {β : Type*} [LinearOrder β] (f : α → β) (xs : List α) (a : β) :
    IsGreatest (insert a (f '' {x | x ∈ xs})) (xs.foldl (fun m x => max m (f x)) a) := by
  induction xs generalizing a with
  | nil =>
      simp
  | cons x xs ih =>
      obtain ⟨hmem, hub⟩ := ih (max a (f x))
      have hmax : max a (f x) ≤ xs.foldl (fun m x => max m (f x)) (max a (f x)) :=
        hub (Set.mem_insert _ _)
      rw [List.foldl_cons]
      constructor
      · rcases hmem with hstart | ⟨y, hy, hvalue⟩
        · rw [hstart]
          rcases max_choice a (f x) with h | h
          · rw [h]
            exact Set.mem_insert _ _
          · rw [h]
            exact Set.mem_insert_of_mem _ ⟨x, List.mem_cons_self, rfl⟩
        · exact Set.mem_insert_of_mem _ ⟨y, List.mem_cons_of_mem _ hy, hvalue⟩
      · rintro b (rfl | ⟨y, hy, rfl⟩)
        · exact (le_max_left _ _).trans hmax
        · rcases List.mem_cons.mp hy with rfl | hy
          · exact (le_max_right _ _).trans hmax
          · exact hub (Set.mem_insert_of_mem _ ⟨y, hy, rfl⟩)

/-- A level is one more than the greatest level of a set, and 1 above the empty set. -/
def Above (level : α → Int) (members : Set α) (l : Int) : Prop :=
  IsGreatest (insert 0 (level '' members)) (l - 1)

variable {level level' : α → Int} {members others : Set α} {l l' : Int}

variable (h : Above level members l)

include h

theorem Above.pos : 0 < l := by
  have := h.2 (Set.mem_insert _ _)
  omega

theorem Above.lt {x : α} (hx : x ∈ members) : level x < l := by
  have := h.2 (Set.mem_insert_of_mem _ ⟨x, hx, rfl⟩)
  omega

theorem Above.attained : l = 1 ∨ ∃ x ∈ members, l = level x + 1 := by
  rcases h.1 with hzero | ⟨x, hx, hlevel⟩
  · left
    omega
  · right
    exact ⟨x, hx, by omega⟩

omit h

theorem Above.intro (hpos : 0 < l) (hlt : ∀ x ∈ members, level x < l)
    (hattained : l = 1 ∨ ∃ x ∈ members, l = level x + 1) : Above level members l := by
  constructor
  · rcases hattained with rfl | ⟨x, hx, rfl⟩
    · exact Set.mem_insert _ _
    · exact Set.mem_insert_of_mem _ ⟨x, hx, by omega⟩
  · rintro b (rfl | ⟨x, hx, rfl⟩)
    · omega
    · have := hlt x hx
      omega

variable (h : Above level members l)

include h

theorem Above.unique (h' : Above level members l') : l = l' := by
  have := IsGreatest.unique h h'
  omega

/-- Only the levels of the members count. -/
theorem Above.congr (hsame : ∀ x ∈ members, level' x = level x) : Above level' members l := by
  unfold Above
  rw [Set.image_congr hsame]
  exact h

/-- A level above some members is above any others it exceeds. -/
theorem Above.extend (hsub : members ⊆ others) (hlt : ∀ x ∈ others, level x < l) :
    Above level others l :=
  .intro h.pos hlt (h.attained.imp_right fun ⟨x, hx, hlevel⟩ => ⟨x, hsub hx, hlevel⟩)

omit h

/-- Members that are topped by the ones kept do not matter. -/
theorem Above.restrict (h : Above level others l) (hsub : members ⊆ others)
    (htop : ∀ x ∈ others, x ∉ members → ∃ y ∈ members, level x ≤ level y) :
    Above level members l := by
  apply Above.intro h.pos (fun x hx => h.lt (hsub hx))
  rcases h.attained with hone | ⟨x, hx, hlevel⟩
  · exact Or.inl hone
  · right
    by_cases hmem : x ∈ members
    · exact ⟨x, hmem, hlevel⟩
    · obtain ⟨y, hy, hle⟩ := htop x hx hmem
      have := h.lt (hsub hy)
      exact ⟨y, hy, by omega⟩

end Above

/-! ## Running level by level -/

/-- What only a later level holds is run after what an earlier one holds. -/
theorem idxOf_flatMap_range_lt {α : Type*} [BEq α] [LawfulBEq α] {f : Nat → List α}
    {k i j : Nat} {x y : α} (hx : x ∈ f i) (hi : i < j) (hj : j < k)
    (hy : ∀ m, m < j → y ∉ f m) :
    ((List.range k).flatMap f).idxOf x < ((List.range k).flatMap f).idxOf y := by
  have hsplit : List.range k = List.range j ++ (List.range (k - j)).map (j + ·) := by
    rw [← List.range_add, Nat.add_sub_cancel' hj.le]
  have hxmem : x ∈ (List.range j).flatMap f :=
    List.mem_flatMap.mpr ⟨i, List.mem_range.mpr hi, hx⟩
  have hymem : y ∉ (List.range j).flatMap f := by
    intro h
    obtain ⟨m, hm, hmem⟩ := List.mem_flatMap.mp h
    exact hy m (List.mem_range.mp hm) hmem
  rw [hsplit, List.flatMap_append, List.idxOf_append_of_mem hxmem,
    List.idxOf_append_of_notMem hymem]
  exact (List.idxOf_lt_length_of_mem hxmem).trans_le (Nat.le_add_right _ _)

/-! ## Finite relations without cycles -/

/-- A nonempty finite set has a member that reaches no other one, when no member reaches
itself. -/
theorem exists_minimal_of_transGen_irrefl {α : Type*} {r : α → α → Prop} {s : Set α}
    (hfin : s.Finite) (hne : s.Nonempty) (hirrefl : ∀ a ∈ s, ¬ Relation.TransGen r a a) :
    ∃ a ∈ s, ∀ b ∈ s, ¬ r a b := by
  have : Finite s := hfin
  let reach : s → s → Prop := fun b a => Relation.TransGen r a b
  have htrans : IsTrans s reach := ⟨fun _ _ _ hab hbc => hbc.trans hab⟩
  have hirr : Std.Irrefl reach := ⟨fun a => hirrefl a a.2⟩
  have hwf : WellFounded reach := Finite.wellFounded_of_trans_of_irrefl reach
  obtain ⟨a, -, hmin⟩ := hwf.has_min Set.univ ⟨⟨hne.some, hne.some_mem⟩, trivial⟩
  refine ⟨a, a.2, ?_⟩
  intro b hb hab
  exact hmin ⟨b, hb⟩ trivial (.single hab)

end Levels
