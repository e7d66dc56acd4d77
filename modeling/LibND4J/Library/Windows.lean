import Mathlib.Algebra.BigOperators.Group.Finset.Piecewise

/-!
# Sums over windows

A window around a number holds the numbers of a range that lie at most some distance from it.

Main results:

- Theorem `windowSum_succ`: a window grows by the next number on each side, if the range has
  one there.
-/

namespace LibND4J
namespace Windows

variable {M : Type*} [AddCommMonoid M] (f : Nat → M) {size c : Nat}

/-- The sum over the numbers below `size` that are at most `reach` away from `c`. -/
def windowSum (size reach c : Nat) : M :=
  ∑ k ∈ Finset.range size with k ≤ c + reach ∧ c ≤ k + reach, f k

/-- The narrowest window. -/
theorem windowSum_zero (hc : c < size) : windowSum f size 0 c = f c := by
  have honly : ∀ k, (k ≤ c + 0 ∧ c ≤ k + 0) ↔ k = c := fun k => by omega
  rw [windowSum, Finset.filter_congr fun k _ => honly k, Finset.filter_eq',
    if_pos (Finset.mem_range.mpr hc), Finset.sum_singleton]

/-- A window grows by the next number on each side, if the range has one there. -/
theorem windowSum_succ (hc : c < size) (reach : Nat) :
    windowSum f size (reach + 1) c = windowSum f size reach c +
      (if reach + 1 ≤ c then f (c - (reach + 1)) else 0) +
      (if c + (reach + 1) < size then f (c + (reach + 1)) else 0) := by
  have hlower : (∑ k ∈ Finset.range size, if k + (reach + 1) = c then f k else 0) =
      if reach + 1 ≤ c then f (c - (reach + 1)) else 0 := by
    by_cases hle : reach + 1 ≤ c
    · have hiff : ∀ k, k + (reach + 1) = c ↔ k = c - (reach + 1) := fun k => by omega
      have hmem : c - (reach + 1) ∈ Finset.range size := Finset.mem_range.mpr (by omega)
      simp only [hiff]
      rw [Finset.sum_ite_eq', if_pos hmem, if_pos hle]
    · rw [if_neg hle]
      exact Finset.sum_eq_zero fun k _ => if_neg (by omega)
  have hupper : (∑ k ∈ Finset.range size, if k = c + (reach + 1) then f k else 0) =
      if c + (reach + 1) < size then f (c + (reach + 1)) else 0 := by
    rw [Finset.sum_ite_eq']
    simp only [Finset.mem_range]
  rw [windowSum, windowSum, ← hlower, ← hupper, Finset.sum_filter, Finset.sum_filter,
    ← Finset.sum_add_distrib, ← Finset.sum_add_distrib]
  refine Finset.sum_congr rfl fun k _ => ?_
  -- a number of the wider window is in the narrower one, or next to one of its ends
  by_cases hin : k ≤ c + reach ∧ c ≤ k + reach
  · have hwide : k ≤ c + (reach + 1) ∧ c ≤ k + (reach + 1) := by omega
    have hleft : ¬ k + (reach + 1) = c := by omega
    have hright : ¬ k = c + (reach + 1) := by omega
    rw [if_pos hwide, if_pos hin, if_neg hleft, if_neg hright, add_zero, add_zero]
  · rw [if_neg hin, zero_add]
    by_cases hleft : k + (reach + 1) = c
    · have hwide : k ≤ c + (reach + 1) ∧ c ≤ k + (reach + 1) := by omega
      have hright : ¬ k = c + (reach + 1) := by omega
      rw [if_pos hwide, if_pos hleft, if_neg hright, add_zero]
    · rw [if_neg hleft, zero_add]
      by_cases hright : k = c + (reach + 1)
      · have hwide : k ≤ c + (reach + 1) ∧ c ≤ k + (reach + 1) := by omega
        rw [if_pos hwide, if_pos hright]
      · have hout : ¬ (k ≤ c + (reach + 1) ∧ c ≤ k + (reach + 1)) := by omega
        rw [if_neg hout, if_neg hright]

end Windows
end LibND4J
