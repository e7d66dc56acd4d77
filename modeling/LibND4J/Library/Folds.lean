import Mathlib.Data.List.Perm.Basic
import Mathlib.Data.Set.Basic

/-!
# Folding in blocks

A reduction that is split over workers folds every worker's share from the same
starting value and then folds the partial results from that value once more.  The
file gives the laws under which the split is harmless.  The laws are asked only on
a set of values closed under the update, so that they can hold for the values a
computation meets without holding for the whole type.

Main results:

- Theorem `Regular.foldl_perm`: the order of the folded values is irrelevant.
- Theorem `Regular.foldl_blocks`: folding partial folds is folding the
  concatenation of the blocks.
- Theorem `flatMap_classes_perm`: the classes of a list make up the list.
-/

namespace Folds

variable {T : Type*}

/-- An update that is associative and commutative on a closed set of values, with a
starting value whose repetition does not show. -/
structure Regular (update : T → T → T) (start : T) (S : Set T) : Prop where
  start_mem : start ∈ S
  closed : ∀ a ∈ S, ∀ b ∈ S, update a b ∈ S
  comm : ∀ a ∈ S, ∀ b ∈ S, update a b = update b a
  assoc : ∀ a ∈ S, ∀ b ∈ S, ∀ c ∈ S, update (update a b) c = update a (update b c)
  absorb : ∀ a ∈ S, update start (update start a) = update start a

/-- A two-sided identity is in particular absorbed. -/
theorem Regular.of_identity {update : T → T → T} {start : T} {S : Set T}
    (hstart : start ∈ S) (hclosed : ∀ a ∈ S, ∀ b ∈ S, update a b ∈ S)
    (hcomm : ∀ a ∈ S, ∀ b ∈ S, update a b = update b a)
    (hassoc : ∀ a ∈ S, ∀ b ∈ S, ∀ c ∈ S, update (update a b) c = update a (update b c))
    (hid : ∀ a ∈ S, update start a = a) : Regular update start S where
  start_mem := hstart
  closed := hclosed
  comm := hcomm
  assoc := hassoc
  absorb := by
    intro a ha
    rw [hid a ha]
    exact hid a ha

section Laws

variable {update : T → T → T} {start : T} {S : Set T} {xs : List T} {a : T} {blocks : List (List T)}

variable (h : Regular update start S)

include h

/-- A fold over values of the set stays in the set. -/
theorem Regular.foldl_mem (ha : a ∈ S) (hxs : ∀ x ∈ xs, x ∈ S) : xs.foldl update a ∈ S := by
  induction xs generalizing a with
  | nil => exact ha
  | cons x xs ih =>
      have hx : x ∈ S := hxs x List.mem_cons_self
      exact ih (h.closed a ha x hx) fun y hy => hxs y (List.mem_cons_of_mem _ hy)

/-- The accumulator factors out of a fold. -/
theorem Regular.foldl_update {b : T} (ha : a ∈ S) (hb : b ∈ S) (hxs : ∀ x ∈ xs, x ∈ S) :
    xs.foldl update (update a b) = update a (xs.foldl update b) := by
  induction xs generalizing b with
  | nil => rfl
  | cons x xs ih =>
      have hx : x ∈ S := hxs x List.mem_cons_self
      have htail : ∀ y ∈ xs, y ∈ S := fun y hy => hxs y (List.mem_cons_of_mem _ hy)
      rw [List.foldl_cons, List.foldl_cons, h.assoc a ha b hb x hx,
        ih (h.closed b hb x hx) htail]

/-- Reordering the folded values changes nothing. -/
theorem Regular.foldl_perm {ys : List T} (hperm : xs.Perm ys) (ha : a ∈ S) (hxs : ∀ x ∈ xs, x ∈ S) :
    xs.foldl update a = ys.foldl update a := by
  induction hperm generalizing a with
  | nil => rfl
  | @cons x xs ys _ ih =>
      have hx : x ∈ S := hxs x List.mem_cons_self
      exact ih (h.closed a ha x hx) fun y hy => hxs y (List.mem_cons_of_mem _ hy)
  | swap x y xs =>
      have hx : x ∈ S := hxs x (by simp)
      have hy : y ∈ S := hxs y (by simp)
      simp only [List.foldl_cons]
      rw [h.assoc a ha y hy x hx, h.comm y hy x hx, ← h.assoc a ha x hx y hy]
  | trans hperm₁ _ ih₁ ih₂ =>
      rw [ih₁ ha hxs, ih₂ ha fun y hy => hxs y (hperm₁.symm.subset hy)]

/-- Once the starting value has been folded in, starting a block from it again is free. -/
theorem Regular.update_block (ha : a ∈ S) (hxs : ∀ x ∈ xs, x ∈ S) :
    update (update start a) (xs.foldl update start) = xs.foldl update (update start a) := by
  have hsa : update start a ∈ S := h.closed _ h.start_mem a ha
  rw [← h.foldl_update hsa h.start_mem hxs, h.comm _ hsa _ h.start_mem, h.absorb a ha]

/-- Folding partial folds after the starting value has been folded in. -/
theorem Regular.foldl_blocks_update (ha : a ∈ S) (hblocks : ∀ xs ∈ blocks, ∀ x ∈ xs, x ∈ S) :
    (blocks.map fun xs => xs.foldl update start).foldl update (update start a) =
      blocks.flatten.foldl update (update start a) := by
  induction blocks generalizing a with
  | nil => rfl
  | cons xs blocks ih =>
      have hxs : ∀ x ∈ xs, x ∈ S := hblocks xs List.mem_cons_self
      have htail : ∀ ys ∈ blocks, ∀ y ∈ ys, y ∈ S := fun ys hys =>
        hblocks ys (List.mem_cons_of_mem _ hys)
      rw [List.map_cons, List.foldl_cons, h.update_block ha hxs, List.flatten_cons,
        List.foldl_append, h.foldl_update h.start_mem ha hxs, ih (h.foldl_mem ha hxs) htail]

/-- A starting value folded in twice is absorbed by the first folded value. -/
theorem Regular.foldl_start_start (hne : xs ≠ []) (hxs : ∀ x ∈ xs, x ∈ S) :
    xs.foldl update (update start start) = xs.foldl update start := by
  obtain ⟨x, ys, rfl⟩ := List.exists_cons_of_ne_nil hne
  have hx : x ∈ S := hxs x List.mem_cons_self
  rw [List.foldl_cons, List.foldl_cons, h.assoc _ h.start_mem _ h.start_mem x hx, h.absorb x hx]

/-- Folding the partial folds of the blocks is folding all their values in one go. -/
theorem Regular.foldl_blocks (hne : blocks.flatten ≠ [])
    (hblocks : ∀ xs ∈ blocks, ∀ x ∈ xs, x ∈ S) :
    (blocks.map fun xs => xs.foldl update start).foldl update start =
      blocks.flatten.foldl update start := by
  cases blocks with
  | nil => rfl
  | cons xs blocks =>
      have hxs : ∀ x ∈ xs, x ∈ S := hblocks xs List.mem_cons_self
      have htail : ∀ ys ∈ blocks, ∀ y ∈ ys, y ∈ S := fun ys hys =>
        hblocks ys (List.mem_cons_of_mem _ hys)
      have hall : ∀ x ∈ (xs :: blocks).flatten, x ∈ S := by
        intro x hx
        obtain ⟨ys, hys, hmem⟩ := List.mem_flatten.mp hx
        exact hblocks ys hys x hmem
      rw [List.map_cons, List.foldl_cons,
        h.foldl_blocks_update (h.foldl_mem h.start_mem hxs) htail,
        ← h.foldl_update h.start_mem h.start_mem hxs, ← List.foldl_append,
        ← List.flatten_cons]
      exact h.foldl_start_start hne hall

/-- A fold split over workers: any arrangement of the values into blocks gives the
sequential fold. -/
theorem Regular.foldl_blocks_perm (hperm : blocks.flatten.Perm xs) (hne : xs ≠ [])
    (hxs : ∀ x ∈ xs, x ∈ S) :
    (blocks.map fun ys => ys.foldl update start).foldl update start =
      xs.foldl update start := by
  have hall : ∀ x ∈ blocks.flatten, x ∈ S := fun x hx => hxs x (hperm.subset hx)
  rw [h.foldl_blocks (fun hnil => hne (by simpa [hnil] using hperm))
    (fun ys hys x hx => hall x (List.mem_flatten.mpr ⟨ys, hys, hx⟩))]
  exact h.foldl_perm hperm h.start_mem hall

end Laws

/-! ## Splitting a list into classes -/

/-- Sorting the entries of a list by the class they belong to rearranges it. -/
theorem flatMap_filter_perm {α : Type*} (f : α → Nat) (xs : List α) (m : Nat) :
    ((List.range m).flatMap fun t => xs.filter fun a => f a = t).Perm
      (xs.filter fun a => f a < m) := by
  induction m with
  | zero => simp
  | succ m ih =>
      have hlow : xs.filter (fun a => f a < m) =
          (xs.filter fun a => f a < m + 1).filter fun a => f a < m := by
        rw [List.filter_filter]
        refine List.filter_congr fun a _ => ?_
        grind
      have hhigh : xs.filter (fun a => f a = m) =
          (xs.filter fun a => f a < m + 1).filter fun a => !decide (f a < m) := by
        rw [List.filter_filter]
        refine List.filter_congr fun a _ => ?_
        grind
      rw [List.range_succ, List.flatMap_append, List.flatMap_singleton]
      refine (ih.append_right _).trans ?_
      rw [hlow, hhigh]
      exact List.filter_append_perm _ _

/-- When every entry belongs to a class below `m`, the classes make up the list. -/
theorem flatMap_classes_perm {α : Type*} {f : α → Nat} {xs : List α} {m : Nat}
    (hf : ∀ a ∈ xs, f a < m) :
    ((List.range m).flatMap fun t => xs.filter fun a => f a = t).Perm xs := by
  have hall : xs.filter (fun a => f a < m) = xs :=
    List.filter_eq_self.mpr fun a ha => decide_eq_true (hf a ha)
  have hperm := flatMap_filter_perm f xs m
  rwa [hall] at hperm

end Folds
