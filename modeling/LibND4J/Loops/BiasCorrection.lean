import LibND4J.Loops.MergedStats
import LibND4J.Loops.Reduce3

/-!
# Bias correction

`varianceBiasCorrected` lowers the second moment by a part of the squared skewness before it
divides by one less than the number of values.  `SummaryStatsVariance` returns the result
unless it is negative; then it returns the variance without correction.

Main results:

- Theorem `describes_of_accumulated`: the accumulated statistics are those of the data set.
- Theorem `varianceBiasCorrected_eq`: how much the second moment is lowered.
- Theorem `biasCorrected_iff`: the corrected variance is that of the data set exactly if its
  third moment vanishes.
-/

namespace LibND4J
namespace Loops

open Moments Values

/-! ## Skewness -/

section Skewness

variable {T : Type} [Field T] [LinearOrder T] [FloorRing T]

/-- `skewness`; the square root of the size is cut to an integer, and the power of one and a half
is a number times its square root. -/
def SummaryStatsData.skewness (root : SquareRoot T) (s : SummaryStatsData T) : T :=
  if 0 < s.M2 then Int.sqrt (toInt s.n) * s.M3 / (s.M2 * root.root s.M2) else 0

/-- The statistics that initializing, starting with a value and merging lead to, and the values
that went into them. -/
inductive Accumulated : SummaryStatsData T → Multiset T → Prop
  | empty (s : SummaryStatsData T) : Accumulated s.initialize 0
  | value (val : T) : Accumulated (.initWithValue val) {val}
  | merge {x y : SummaryStatsData T} {xs ys : Multiset T} :
      Accumulated x xs → Accumulated y ys → xs + ys ≠ 0 → Accumulated (update x y) (xs + ys)

/-- The sum of the powers of the distances from the mean. -/
def centralMoment (p : Nat) (data : Multiset T) : T :=
  (data.map fun v => (v - data.sum / data.card) ^ p).sum

/-- The cubes of the distances from the mean cancel. -/
def Unskewed (data : Multiset T) : Prop :=
  centralMoment 3 data = 0

variable [IsStrictOrderedRing T]

/-- The accumulated statistics are those of the data set. -/
theorem describes_of_accumulated {s : SummaryStatsData T} {data : Multiset T}
    (h : Accumulated s data) : Describes s data := by
  induction h with
  | empty s => exact describes_initialize s
  | value val => exact describes_initWithValue val
  | merge _ _ hne ihx ihy => exact describes_update ihx ihy hne

end Skewness

/-! ## The corrected variance -/

section Corrected

variable {T : Type} [Field T] [LinearOrder T] [FloorRing T] [IsStrictOrderedRing T]

omit [FloorRing T] in
theorem centralMoment_two_nonneg (data : Multiset T) : 0 ≤ centralMoment 2 data := by
  induction data using Quot.inductionOn with
  | h vs => exact momentAbout_two_nonneg _ vs

omit [FloorRing T] in
/-- Values without spread are not skewed. -/
theorem unskewed_of_centralMoment_two {data : Multiset T} (h : centralMoment 2 data = 0) :
    Unskewed data := by
  induction data using Quot.inductionOn with
  | h vs =>
      have hmean := (momentAbout_two_eq_zero_iff _ vs).mp h
      refine List.sum_eq_zero fun m hm => ?_
      obtain ⟨v, hv, rfl⟩ := List.mem_map.mp hm
      rw [hmean v hv, sub_self, zero_pow three_ne_zero]

variable {s : SummaryStatsData T} {data : Multiset T} (root : SquareRoot T)

variable (h : Describes s data)

include h

variable (hcard : 2 ≤ data.card)

include hcard

/-- The second moment is lowered by the squared skewness over the number of values. -/
theorem varianceBiasCorrected_eq :
    s.varianceBiasCorrected (SummaryStatsData.skewness root) =
      centralMoment 2 data / (data.card - 1) -
        s.skewness root ^ 2 / data.card / (data.card - 1) := by
  have hone : ¬ s.n ≤ 1 := by
    rw [h.n_eq, not_le]
    exact_mod_cast hcard
  have hM2 : s.M2 = centralMoment 2 data := h.M2_eq
  rw [SummaryStatsData.varianceBiasCorrected, if_neg hone, sub_div, hM2, h.n_eq]

/-- A data set is without skewness exactly if its third moment vanishes. -/
theorem skewness_eq_zero_iff : s.skewness root = 0 ↔ Unskewed data := by
  have hM2 : s.M2 = centralMoment 2 data := h.M2_eq
  have hM3 : s.M3 = centralMoment 3 data := h.M3_eq
  unfold SummaryStatsData.skewness
  by_cases hpos : 0 < s.M2
  · have hsqrt : ((Int.sqrt (toInt s.n) : Int) : T) ≠ 0 := by
      rw [h.n_eq, toInt_natCast]
      have hnat : Nat.sqrt data.card ≠ 0 := (Nat.sqrt_pos.mpr (by omega)).ne'
      exact_mod_cast hnat
    have hroot : root.root s.M2 ≠ 0 := (root.root_eq_zero_iff hpos.le).not.mpr hpos.ne'
    rw [if_pos hpos, div_eq_zero_iff, or_iff_left (mul_ne_zero hpos.ne' hroot), mul_eq_zero,
      or_iff_right hsqrt, hM3, Unskewed]
  · have hzero : centralMoment 2 data = 0 :=
      le_antisymm (hM2 ▸ not_lt.mp hpos) (centralMoment_two_nonneg data)
    rw [if_neg hpos]
    exact iff_of_true rfl (unskewed_of_centralMoment_two hzero)

theorem varianceBiasCorrected_eq_iff :
    s.varianceBiasCorrected (SummaryStatsData.skewness root) =
      centralMoment 2 data / (data.card - 1) ↔ Unskewed data := by
  have hsize : (data.card : T) ≠ 0 := by
    exact_mod_cast (Nat.lt_of_lt_of_le Nat.zero_lt_two hcard).ne'
  have hless : (data.card : T) - 1 ≠ 0 := by
    refine sub_ne_zero.mpr ?_
    exact_mod_cast (Nat.lt_of_lt_of_le Nat.one_lt_two hcard).ne'
  rw [varianceBiasCorrected_eq root h hcard, sub_eq_self, div_eq_zero_iff, or_iff_left hless,
    div_eq_zero_iff, or_iff_left hsize, sq_eq_zero_iff, skewness_eq_zero_iff root h hcard]

/-- Without correction the variance is too small unless the values are equal. -/
theorem variance_eq_iff :
    s.variance = centralMoment 2 data / (data.card - 1) ↔ centralMoment 2 data = 0 := by
  have hone : (1 : T) < data.card := by
    exact_mod_cast hcard
  have hM2 : s.M2 = centralMoment 2 data := h.M2_eq
  rw [SummaryStatsData.variance, h.n_eq, if_neg (not_le.mpr hone), hM2,
    div_eq_div_iff (zero_lt_one.trans hone).ne' (sub_pos.mpr hone).ne', mul_sub, mul_one,
    sub_eq_self]

/-- Replacing a negative result makes no difference. -/
theorem getValue_eq_iff :
    (summaryStatsVariance (SummaryStatsData.skewness root)).getValue true s =
      centralMoment 2 data / (data.card - 1) ↔ Unskewed data := by
  have hcorrected := varianceBiasCorrected_eq_iff root h hcard
  have hvalue : (summaryStatsVariance (SummaryStatsData.skewness root)).getValue true s =
      if s.varianceBiasCorrected (SummaryStatsData.skewness root) < 0 then s.variance
      else s.varianceBiasCorrected (SummaryStatsData.skewness root) := rfl
  rw [hvalue]
  by_cases hnegative : s.varianceBiasCorrected (SummaryStatsData.skewness root) < 0
  · have hless : (0 : T) ≤ data.card - 1 := by
      refine sub_nonneg.mpr ?_
      exact_mod_cast Nat.one_le_of_lt hcard
    have hskewed : ¬ Unskewed data := by
      intro hunskewed
      rw [hcorrected.mpr hunskewed] at hnegative
      exact absurd hnegative (not_lt.mpr (div_nonneg (centralMoment_two_nonneg data) hless))
    rw [if_pos hnegative, variance_eq_iff h hcard]
    exact iff_of_false (fun hzero => hskewed (unskewed_of_centralMoment_two hzero)) hskewed
  · rw [if_neg hnegative, hcorrected]

omit hcard

omit h

/-- The corrected variance of a data set is that of its values exactly if its third moment
vanishes. -/
theorem biasCorrected_iff (h : Accumulated s data) (hcard : 2 ≤ data.card) :
    (s.varianceBiasCorrected (SummaryStatsData.skewness root) =
      centralMoment 2 data / (data.card - 1) ↔ Unskewed data) ∧
    ((summaryStatsVariance (SummaryStatsData.skewness root)).getValue true s =
      centralMoment 2 data / (data.card - 1) ↔ Unskewed data) := by
  have hdescribes := describes_of_accumulated h
  exact ⟨varianceBiasCorrected_eq_iff root hdescribes hcard,
    getValue_eq_iff root hdescribes hcard⟩

end Corrected

/-! ## Two small data sets -/

theorem biasCorrected_iff_oneAndThree :
    (summaryStatsVariance (SummaryStatsData.skewness realRoot)).getValue true
      (update (.initWithValue 1) (.initWithValue 3)) =
        centralMoment 2 ({1} + {3} : Multiset ℝ) / (2 - 1) := by
  have haccumulated : Accumulated (update (.initWithValue 1) (.initWithValue (3 : ℝ)))
      ({1} + {3}) := .merge (.value 1) (.value 3) (by simp)
  have hunskewed : Unskewed ({1} + {3} : Multiset ℝ) := by
    simp [Unskewed, centralMoment]
    norm_num
  have hvalue := (biasCorrected_iff realRoot haccumulated (by simp)).2.mpr hunskewed
  simpa using hvalue

/-- The corrected variance of zero, zero and three is too small. -/
theorem not_biasCorrected_always :
    ¬ ∀ (s : SummaryStatsData ℝ) (data : Multiset ℝ), Accumulated s data → 2 ≤ data.card →
      (summaryStatsVariance (SummaryStatsData.skewness realRoot)).getValue true s =
        centralMoment 2 data / (data.card - 1) := by
  intro h
  have haccumulated : Accumulated (update (update (.initWithValue 0) (.initWithValue 0))
      (.initWithValue (3 : ℝ))) ({0} + {0} + {3}) :=
    .merge (.merge (.value 0) (.value 0) (by simp)) (.value 3) (by simp)
  have hcard : 2 ≤ ({0} + {0} + {3} : Multiset ℝ).card := by simp
  have hunskewed : Unskewed ({0} + {0} + {3} : Multiset ℝ) :=
    (getValue_eq_iff realRoot (describes_of_accumulated haccumulated) hcard).mp
      (h _ _ haccumulated hcard)
  simp [Unskewed, centralMoment] at hunskewed
  norm_num at hunskewed

end Loops
end LibND4J
