import Mathlib.Algebra.BigOperators.Group.Finset.Basic

/-!
# Lists and their translates

In a group without torsion a finite list is moved off itself by every translation but the trivial
one.  So a list that is read at a wrong place is not the list that was meant, whatever the order.

Main result:

- Theorem `eq_zero_of_subset_translate`: a list that lies in its own translate is not moved.
-/

namespace Translates

variable {G : Type*} [AddCommGroup G] [IsAddTorsionFree G]

/-- A list that lies in its own translate is not moved. -/
theorem eq_zero_of_subset_translate {xs : List G} (hne : xs ≠ []) {d : G}
    (h : xs ⊆ xs.map (d + ·)) : d = 0 := by
  classical
  have himage : (xs.map (d + ·)).toFinset = xs.toFinset.image (d + ·) := by
    ext v
    simp only [List.mem_toFinset, List.mem_map, Finset.mem_image]
  have hsub : xs.toFinset ⊆ xs.toFinset.image (d + ·) := by
    rw [← himage]
    intro v hv
    exact List.mem_toFinset.mpr (h (List.mem_toFinset.mp hv))
  have hcard : (xs.toFinset.image (d + ·)).card = xs.toFinset.card :=
    Finset.card_image_of_injective _ (add_right_injective d)
  have heq : xs.toFinset = xs.toFinset.image (d + ·) :=
    Finset.eq_of_subset_of_card_le hsub hcard.le
  -- the sum over the list changes by the translation once for each of its elements
  have hsum : ∑ v ∈ xs.toFinset, v = xs.toFinset.card • d + ∑ v ∈ xs.toFinset, v := by
    calc ∑ v ∈ xs.toFinset, v = ∑ v ∈ xs.toFinset.image (d + ·), v := by rw [← heq]
      _ = ∑ v ∈ xs.toFinset, (d + v) :=
          Finset.sum_image fun _ _ _ _ h => add_right_injective d h
      _ = xs.toFinset.card • d + ∑ v ∈ xs.toFinset, v := by
          rw [Finset.sum_add_distrib, Finset.sum_const]
  have hsmul : xs.toFinset.card • d = 0 := by
    rwa [right_eq_add] at hsum
  have hcount : xs.toFinset.card ≠ 0 := by
    rw [Finset.card_ne_zero, List.toFinset_nonempty_iff]
    exact hne
  exact (nsmul_eq_zero_iff_right hcount).mp hsmul

end Translates
