import Mathlib.Algebra.BigOperators.Group.List.Basic
import Mathlib.Algebra.GroupWithZero.Nat

/-!
# Consecutive blocks

Blocks of given lengths that follow each other tile a range: every position below the sum of
the lengths lies in exactly one of them.

Main results:

- Theorem `exists_block`: every position lies in a block.
- Theorem `block_unique`: it lies in one only.
-/

namespace Blocks

/-- The position at which the block `i` starts. -/
def blockStart (lengths : List Nat) (i : Nat) : Nat :=
  (lengths.take i).sum

section Start

variable {lengths : List Nat}

@[simp]
theorem blockStart_zero (lengths : List Nat) : blockStart lengths 0 = 0 := by
  rw [blockStart, List.take_zero, List.sum_nil]

@[simp]
theorem blockStart_cons_succ (n : Nat) (lengths : List Nat) (i : Nat) :
    blockStart (n :: lengths) (i + 1) = n + blockStart lengths i := by
  rw [blockStart, List.take_succ_cons, List.sum_cons, blockStart]

variable (lengths)

theorem blockStart_length : blockStart lengths lengths.length = lengths.sum := by
  rw [blockStart, List.take_length]

theorem blockStart_succ (i : Nat) :
    blockStart lengths (i + 1) = blockStart lengths i + lengths.getD i 0 := by
  induction lengths generalizing i with
  | nil => simp [blockStart]
  | cons n lengths ih =>
      cases i with
      | zero => simp
      | succ i => rw [blockStart_cons_succ, blockStart_cons_succ, ih, List.getD_cons_succ, add_assoc]

theorem blockStart_mono {i j : Nat} (hij : i ≤ j) :
    blockStart lengths i ≤ blockStart lengths j := by
  induction hij with
  | refl => exact Nat.le_refl _
  | step _ ih =>
      rw [blockStart_succ]
      omega

theorem blockStart_map_mul (c i : Nat) :
    blockStart (lengths.map (· * c)) i = blockStart lengths i * c := by
  induction lengths generalizing i with
  | nil => simp [blockStart]
  | cons n lengths ih =>
      cases i with
      | zero => simp
      | succ i =>
          rw [List.map_cons, blockStart_cons_succ, blockStart_cons_succ, ih, Nat.add_mul]

variable {lengths}

/-- Blocks of one length start at its multiples. -/
theorem blockStart_of_const {m : Nat} (hconst : ∀ n ∈ lengths, n = m) {i : Nat}
    (hi : i ≤ lengths.length) : blockStart lengths i = i * m := by
  induction lengths generalizing i with
  | nil =>
      have hzero : i = 0 := Nat.le_zero.mp hi
      rw [hzero, blockStart_zero, Nat.zero_mul]
  | cons n lengths ih =>
      cases i with
      | zero => rw [blockStart_zero, Nat.zero_mul]
      | succ i =>
          rw [blockStart_cons_succ, ih (fun n' hn => hconst n' (List.mem_cons_of_mem _ hn))
            (Nat.le_of_succ_le_succ hi), hconst n List.mem_cons_self, Nat.add_mul, Nat.one_mul,
            Nat.add_comm]

/-- Every position below the sum lies in a block. -/
theorem exists_block {t : Nat} (ht : t < lengths.sum) :
    ∃ i < lengths.length, ∃ k < lengths.getD i 0, t = blockStart lengths i + k := by
  induction lengths generalizing t with
  | nil => simp at ht
  | cons n lengths ih =>
      by_cases hfirst : t < n
      · exact ⟨0, by simp, t, by simpa using hfirst, by simp⟩
      · have hrest : t - n < lengths.sum := by
          rw [List.sum_cons] at ht
          omega
        obtain ⟨i, hi, k, hk, heq⟩ := ih hrest
        refine ⟨i + 1, by simpa using hi, k, by simpa using hk, ?_⟩
        rw [blockStart_cons_succ]
        omega

/-- A position lies in one block only. -/
theorem block_unique {i j k l : Nat} (hk : k < lengths.getD i 0) (hl : l < lengths.getD j 0)
    (h : blockStart lengths i + k = blockStart lengths j + l) : i = j ∧ k = l := by
  have hi := blockStart_succ lengths i
  have hj := blockStart_succ lengths j
  have hij : i = j := by
    by_contra hne
    rcases Nat.lt_or_gt_of_ne hne with hlt | hlt
    · have hmono : blockStart lengths (i + 1) ≤ blockStart lengths j := blockStart_mono lengths hlt
      omega
    · have hmono : blockStart lengths (j + 1) ≤ blockStart lengths i := blockStart_mono lengths hlt
      omega
  subst hij
  omega

theorem block_lt_sum {i k : Nat} (hk : k < lengths.getD i 0) :
    blockStart lengths i + k < lengths.sum := by
  have hi : i < lengths.length := by
    by_contra hle
    simp [List.getElem?_eq_none (Nat.le_of_not_lt hle)] at hk
  have hmono : blockStart lengths (i + 1) ≤ blockStart lengths lengths.length :=
    blockStart_mono lengths hi
  rw [blockStart_length, blockStart_succ] at hmono
  omega

end Start
end Blocks
