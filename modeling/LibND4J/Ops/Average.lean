import LibND4J.Library.Accumulation
import Mathlib.Algebra.BigOperators.Field
import Mathlib.Tactic.FieldSimp

/-!
# The average of arrays

`averageGeneric` gathers the average of some arrays in a further one, or in the first of them,
and copies it to the others.  The flag that asks for the copies is not looked at.

The iterations of each parallel loop write buffers or cells of their own and are run in any order.

Main results:

- Theorem `averageGeneric_average` and `averageGeneric_inputs`: what the two paths leave.
- Theorem `averages_iff`: the flag is obeyed exactly if it is set or there is nothing to copy.
- Theorem `not_averages_always`: two different arrays.
-/

namespace LibND4J
namespace Ops

open Stores

variable {K : Type} [Field K]

/-- `memcpy` of some elements. -/
def copyElements (dst src : Nat → K) (length : Nat) : Nat → K :=
  fun i => if i < length then src i else dst i

/-- The inner loop of `averageGeneric`: add the elements of some arrays, each over `n`. -/
def addShares (x : Nat → Nat → K) (n : Nat) (arrays : List Nat) (i : Nat) (z : K) : K :=
  arrays.foldl (fun z ar => z + x ar i / n) z

/-- `averageGeneric`: the inputs and the result afterwards.  An absent result is the first input;
`schedule` and `copies` are the orders of the iterations of the two parallel loops. -/
def averageGeneric (x : Nat → Nat → K) (z : Option (Nat → K)) (n length : Nat) (_propagate : Bool)
    (schedule copies : List Nat) : (Nat → Nat → K) × (Nat → K) :=
  match z with
  | none =>
      let z := storeAll id (fun i (z : Nat → K) => z i / n) (List.range length) (x 0)
      let z := storeAll id (fun i (z : Nat → K) => addShares x n (List.range' 1 (n - 1)) i (z i))
        schedule z
      let x := Function.update x 0 z
      (storeAll id (fun ar x => copyElements (x ar) z length) copies x, z)
  | some z =>
      let z := copyElements z (fun _ => 0) length
      let z := storeAll id (fun i (z : Nat → K) => addShares x n (List.range n) i (z i)) schedule z
      (storeAll id (fun ar x => copyElements (x ar) z length) copies x, z)

/-- The arrays that the average is copied to. -/
def copied (z : Option (Nat → K)) (n : Nat) : List Nat :=
  match z with
  | none => List.range' 1 (n - 1)
  | some _ => List.range n

/-- The average of an element. -/
def average (x : Nat → Nat → K) (n i : Nat) : K :=
  ((List.range n).map fun ar => x ar i).sum / n

/-- In every order of the iterations the average ends in the result, with the flag in all inputs as
well, and without it the other inputs are left alone. -/
def Averages (x : Nat → Nat → K) (z : Option (Nat → K)) (n length : Nat) (propagate : Bool) : Prop :=
  ∀ schedule copies : List Nat, schedule.Perm (List.range length) → copies.Perm (copied z n) →
    let out := averageGeneric x z n length propagate schedule copies
    (∀ i < length, out.2 i = average x n i) ∧
      (propagate = true → ∀ ar < n, ∀ i < length, out.1 ar i = average x n i) ∧
      (propagate = false → ∀ ar < n, (z = none → ar ≠ 0) → ∀ i, out.1 ar i = x ar i)

section Runs

variable {x : Nat → Nat → K} {z : Option (Nat → K)} {n length : Nat} {propagate : Bool}
  {schedule copies : List Nat}

theorem addShares_eq (x : Nat → Nat → K) (n : Nat) (arrays : List Nat) (i : Nat) (z : K) :
    addShares x n arrays i z = z + (arrays.map fun ar => x ar i).sum / n := by
  rw [addShares, Accumulation.foldl_add_eq, div_eq_mul_inv, ← List.sum_map_mul_right]
  simp only [div_eq_mul_inv]

variable {i : Nat}

omit [Field K] in
/-- A loop over elements that computes each from what it held. -/
theorem storeAll_elements (value : Nat → K → K) {schedule : List Nat}
    (hschedule : schedule.Perm (List.range length)) (memory : Nat → K) (hi : i < length) :
    storeAll id (fun i (z : Nat → K) => value i (z i)) schedule memory i = value i (memory i) :=
  foldl_update_of_nodup value (hschedule.nodup_iff.mpr List.nodup_range) memory
    (hschedule.mem_iff.mpr (List.mem_range.mpr hi))

omit [Field K] in
/-- A loop that copies one buffer to some arrays. -/
theorem storeAll_copies (z : Nat → K) {arrays : List Nat} (hcopies : copies.Perm arrays)
    (hnodup : arrays.Nodup) (memory : Nat → Nat → K) (ar i : Nat) :
    storeAll id (fun ar x => copyElements (x ar) z length) copies memory ar i =
      if ar ∈ arrays ∧ i < length then z i else memory ar i := by
  by_cases har : ar ∈ arrays
  · have hcopied : storeAll id (fun ar x => copyElements (x ar) z length) copies memory ar =
        copyElements (memory ar) z length :=
      foldl_update_of_nodup (fun _ dst => copyElements dst z length)
        (hcopies.nodup_iff.mpr hnodup) memory (hcopies.mem_iff.mpr har)
    rw [hcopied, copyElements]
    simp only [har, true_and]
  · rw [storeAll_of_not_written fun v hv => ?_, if_neg fun h => har h.1]
    rintro rfl
    exact har (hcopies.mem_iff.mp hv)

/-- The average is gathered in the result. -/
theorem averageGeneric_average (hn : 0 < n) (hschedule : schedule.Perm (List.range length))
    (hi : i < length) :
    (averageGeneric x z n length propagate schedule copies).2 i = average x n i := by
  cases z with
  | none =>
      obtain ⟨m, rfl⟩ := Nat.exists_eq_succ_of_ne_zero hn.ne'
      have hfirst := storeAll_elements (fun _ c => c / ((m + 1 : Nat) : K))
        (List.Perm.refl (List.range length)) (x 0) hi
      simp only [averageGeneric]
      rw [storeAll_elements (fun i c => addShares x (m + 1) (List.range' 1 (m + 1 - 1)) i c)
        hschedule _ hi, hfirst, addShares_eq, average, ← add_div, List.range_eq_range',
        List.range'_succ, List.map_cons, List.sum_cons]
      rfl
  | some z =>
      have hzero : copyElements z (fun _ => 0) length i = 0 := if_pos hi
      simp only [averageGeneric]
      rw [storeAll_elements (fun i c => addShares x n (List.range n) i c) hschedule _ hi, hzero,
        addShares_eq, zero_add]
      rfl

/-- The inputs that the average is copied to hold it, whatever the flag. -/
theorem averageGeneric_inputs (hn : 0 < n) (hschedule : schedule.Perm (List.range length))
    (hcopies : copies.Perm (copied z n)) {ar : Nat} (har : ar ∈ copied z n) (i : Nat) :
    (averageGeneric x z n length propagate schedule copies).1 ar i =
      if i < length then average x n i else x ar i := by
  by_cases hi : i < length
  · have haverage : (averageGeneric x z n length propagate schedule copies).2 i =
        average x n i := averageGeneric_average hn hschedule hi
    rw [if_pos hi, ← haverage]
    cases z with
    | none =>
        simp only [averageGeneric]
        rw [storeAll_copies _ hcopies (by exact List.nodup_range'), if_pos ⟨har, hi⟩]
    | some z =>
        simp only [averageGeneric]
        rw [storeAll_copies _ hcopies (by exact List.nodup_range), if_pos ⟨har, hi⟩]
  · rw [if_neg hi]
    cases z with
    | none =>
        have hne : ar ≠ 0 := Nat.one_le_iff_ne_zero.mp (List.mem_range'_1.mp har).1
        simp only [averageGeneric]
        rw [storeAll_copies _ hcopies (by exact List.nodup_range'), if_neg fun h => hi h.2,
          Function.update_of_ne hne]
    | some z =>
        simp only [averageGeneric]
        rw [storeAll_copies _ hcopies (by exact List.nodup_range), if_neg fun h => hi h.2]

/-- An absent result is the first input, which nothing is copied to. -/
theorem averageGeneric_first (hcopies : copies.Perm (copied (none : Option (Nat → K)) n)) (i : Nat) :
    (averageGeneric x none n length propagate schedule copies).1 0 i =
      (averageGeneric x none n length propagate schedule copies).2 i := by
  have hnot : ¬ (0 ∈ copied (none : Option (Nat → K)) n ∧ i < length) :=
    fun h => absurd (List.mem_range'_1.mp h.1).1 (Nat.not_succ_le_zero 0)
  simp only [averageGeneric]
  rw [storeAll_copies _ hcopies (by exact List.nodup_range'), if_neg hnot, Function.update_self]

omit [Field K] in
theorem mem_copied {ar : Nat} : ar ∈ copied z n ↔ ar < n ∧ (z = none → ar ≠ 0) := by
  cases z with
  | none =>
      rw [copied, List.mem_range'_1]
      simp
      omega
  | some z =>
      rw [copied, List.mem_range]
      simp

/-- The average of equal elements. -/
theorem average_of_agree (hn : (n : K) ≠ 0) {c : K} (h : ∀ ar < n, x ar i = c) :
    average x n i = c := by
  have hsum : ((List.range n).map fun ar => x ar i).sum = n * c := by
    rw [List.map_congr_left fun ar har => h ar (List.mem_range.mp har), List.map_const',
      List.sum_replicate, List.length_range, nsmul_eq_mul]
  rw [average, hsum, mul_div_cancel_left₀ c hn]

/-- If all elements but the first are the average, so is the first. -/
theorem agree_of_average (hn : (n : K) ≠ 0) (h : ∀ ar < n, ar ≠ 0 → x ar i = average x n i) :
    x 0 i = average x n i := by
  cases n with
  | zero => exact absurd Nat.cast_zero hn
  | succ m =>
      have hrest : ((List.range' 1 m).map fun ar => x ar i) =
          List.replicate m (average x (m + 1) i) := by
        rw [List.map_congr_left fun ar har => ?_, List.map_const', List.length_range']
        have har := List.mem_range'_1.mp har
        exact h ar (by omega) (by omega)
      have hsum : ((List.range (m + 1)).map fun ar => x ar i).sum =
          x 0 i + m * average x (m + 1) i := by
        rw [List.range_eq_range', List.range'_succ, List.map_cons, List.sum_cons, zero_add, hrest,
          List.sum_replicate, nsmul_eq_mul]
      have havg : ((m + 1 : Nat) : K) * average x (m + 1) i = x 0 i + m * average x (m + 1) i := by
        rw [← hsum, average, mul_div_cancel₀ _ hn]
      rw [Nat.cast_succ, add_mul, one_mul, add_comm] at havg
      exact (add_right_cancel havg).symm

/-- The flag is obeyed exactly if it is set, or if all inputs are equal. -/
theorem averages_iff (x : Nat → Nat → K) (z : Option (Nat → K)) {n : Nat} (hn : (n : K) ≠ 0)
    (length : Nat) (propagate : Bool) :
    Averages x z n length propagate ↔
      propagate = true ∨ ∀ ar < n, ∀ i < length, x ar i = x 0 i := by
  have hpos : 0 < n := by
    rcases Nat.eq_zero_or_pos n with rfl | hpos
    · exact absurd Nat.cast_zero hn
    · exact hpos
  constructor
  · intro h
    cases hpropagate : propagate with
    | true => exact Or.inl rfl
    | false =>
        right
        have hschedule := List.Perm.refl (List.range length)
        have hcopies := List.Perm.refl (copied z n)
        obtain ⟨-, -, hkept⟩ := h _ _ hschedule hcopies
        have hothers : ∀ ar ∈ copied z n, ∀ i < length, x ar i = average x n i := by
          intro ar har i hi
          have hmem := mem_copied.mp har
          have hinput := hkept hpropagate ar hmem.1 hmem.2 i
          rw [averageGeneric_inputs hpos hschedule hcopies har, if_pos hi] at hinput
          exact hinput.symm
        have hall : ∀ ar < n, ∀ i < length, x ar i = average x n i := by
          intro ar har i hi
          by_cases hzero : ar = 0
          · rw [hzero]
            exact agree_of_average hn fun ar har hne =>
              hothers ar (mem_copied.mpr ⟨har, fun _ => hne⟩) i hi
          · exact hothers ar (mem_copied.mpr ⟨har, fun _ => hzero⟩) i hi
        intro ar har i hi
        rw [hall ar har i hi, hall 0 hpos i hi]
  · intro h schedule copies hschedule hcopies
    refine ⟨fun i hi => averageGeneric_average hpos hschedule hi, fun _ ar har i hi => ?_,
      fun hfalse ar har hfirst i => ?_⟩
    · by_cases hmem : ar ∈ copied z n
      · rw [averageGeneric_inputs hpos hschedule hcopies hmem, if_pos hi]
      · have hnot := fun hfirst => hmem (mem_copied.mpr ⟨har, hfirst⟩)
        obtain ⟨rfl, hzero⟩ := Classical.not_imp.mp hnot
        obtain rfl : ar = 0 := not_not.mp hzero
        rw [averageGeneric_first hcopies, averageGeneric_average hpos hschedule hi]
    · have hagree := h.resolve_left (by rw [hfalse]; exact Bool.false_ne_true)
      rw [averageGeneric_inputs hpos hschedule hcopies (mem_copied.mpr ⟨har, hfirst⟩)]
      split
      · rename_i hi
        rw [average_of_agree hn fun ar har => hagree ar har i hi, hagree ar har i hi]
      · rfl

end Runs

/-- Two arrays of one number each. -/
def zeroAndTwo (ar _ : Nat) : Rat :=
  2 * ar

theorem averages_iff_zeroAndTwo :
    Averages zeroAndTwo none 2 1 true ∧ Averages zeroAndTwo (some fun _ => 5) 1 1 false :=
  ⟨(averages_iff zeroAndTwo none (by decide) 1 true).mpr (Or.inl rfl),
    (averages_iff zeroAndTwo _ (by decide) 1 false).mpr (Or.inr fun ar har i _ => by
      rw [Nat.lt_one_iff.mp har])⟩

/-- The flag is not always obeyed: inputs are overwritten without it. -/
theorem not_averages_always :
    ¬ ∀ (x : Nat → Nat → Rat) (z : Option (Nat → Rat)) (n length : Nat) (propagate : Bool),
      0 < n → Averages x z n length propagate := by
  intro h
  obtain ⟨-, -, hkept⟩ := h zeroAndTwo none 2 1 false (by decide) [0] [1] (List.Perm.refl _)
    (List.Perm.refl _)
  exact absurd (hkept rfl 1 (by decide) (fun _ => by decide) 0) (by decide +kernel)

end Ops
end LibND4J
