import Mathlib.Algebra.Order.Field.Basic
import Mathlib.Tactic.FieldSimp
import Mathlib.Tactic.Ring

/-!
# Moments of a list of values

The mean of a list of values and the sums of the powers of their distances from a
centre, over a field of characteristic zero.  Statistics of two lists can be merged into
the statistics of their concatenation without looking at the values again.

Main results:

- Theorems `mean_append`, `secondMoment_append`, `thirdMoment_append` and
  `fourthMoment_append`: the mean and the central moments of a concatenation.
- Theorem `secondMoment_eq_zero_iff`: only lists of equal values have a second
  central moment of zero.
-/

namespace Moments

section Field

variable {K : Type*} [Field K]

/-- The mean of a list of values, zero for an empty list. -/
def mean (vs : List K) : K :=
  vs.sum / vs.length

/-- The sum of the `p`-th powers of the distances from a centre. -/
def momentAbout (c : K) (p : Nat) (vs : List K) : K :=
  (vs.map fun v => (v - c) ^ p).sum

/-- The sum of the squared distances from the mean. -/
def secondMoment (vs : List K) : K :=
  momentAbout (mean vs) 2 vs

/-- The sum of the cubes of the distances from the mean. -/
def thirdMoment (vs : List K) : K :=
  momentAbout (mean vs) 3 vs

/-- The sum of the fourth powers of the distances from the mean. -/
def fourthMoment (vs : List K) : K :=
  momentAbout (mean vs) 4 vs

/-- The mean squared distance from the mean. -/
def variance (vs : List K) : K :=
  secondMoment vs / vs.length

@[simp]
theorem momentAbout_nil (c : K) (p : Nat) : momentAbout c p [] = 0 :=
  rfl

@[simp]
theorem momentAbout_cons (c : K) (p : Nat) (v : K) (vs : List K) :
    momentAbout c p (v :: vs) = (v - c) ^ p + momentAbout c p vs := by
  simp [momentAbout]

@[simp]
theorem momentAbout_append (c : K) (p : Nat) (xs ys : List K) :
    momentAbout c p (xs ++ ys) = momentAbout c p xs + momentAbout c p ys := by
  simp [momentAbout]

/-! ## One value among zeros -/

section Single

variable [CharZero K]

theorem mean_cons_replicate (m : Nat) (s : K) :
    mean ((m + 1) * s :: List.replicate m 0) = s := by
  have hm : (m : K) + 1 ≠ 0 := Nat.cast_add_one_ne_zero m
  rw [mean, List.sum_cons, List.sum_replicate, nsmul_zero, add_zero, List.length_cons,
    List.length_replicate, Nat.cast_add_one, mul_div_cancel_left₀ s hm]

theorem variance_cons_replicate (m : Nat) (s : K) :
    variance ((m + 1) * s :: List.replicate m 0) = m * s ^ 2 := by
  have hm : (m : K) + 1 ≠ 0 := Nat.cast_add_one_ne_zero m
  have hzeros : momentAbout s 2 (List.replicate m 0) = m * s ^ 2 := by
    rw [momentAbout, List.map_replicate, List.sum_replicate, zero_sub, neg_sq, nsmul_eq_mul]
  rw [variance, secondMoment, mean_cons_replicate, momentAbout_cons, hzeros, List.length_cons,
    List.length_replicate, Nat.cast_add_one, div_eq_iff hm]
  ring

end Single

/-! ## Rearranging the values -/

variable {xs ys : List K}

theorem mean_perm (h : xs.Perm ys) : mean xs = mean ys := by
  rw [mean, mean, h.sum_eq, h.length_eq]

theorem secondMoment_perm (h : xs.Perm ys) : secondMoment xs = secondMoment ys := by
  rw [secondMoment, secondMoment, mean_perm h]
  exact (h.map _).sum_eq

theorem variance_perm (h : xs.Perm ys) : variance xs = variance ys := by
  rw [variance, variance, secondMoment_perm h, h.length_eq]

/-! ## Merging two lists -/

/-- The first power of the distances from any centre. -/
theorem momentAbout_one (c : K) (vs : List K) :
    momentAbout c 1 vs = vs.sum - vs.length * c := by
  induction vs with
  | nil => simp
  | cons v vs ih =>
      rw [momentAbout_cons, ih, List.sum_cons, List.length_cons]
      push_cast
      ring

/-- Moving the centre. -/
theorem momentAbout_two_add (c h : K) (vs : List K) :
    momentAbout (c + h) 2 vs =
      momentAbout c 2 vs - 2 * h * momentAbout c 1 vs + vs.length * h ^ 2 := by
  induction vs with
  | nil => simp
  | cons v vs ih =>
      rw [momentAbout_cons, ih, momentAbout_cons, momentAbout_cons, List.length_cons]
      push_cast
      ring

theorem momentAbout_three_add (c h : K) (vs : List K) :
    momentAbout (c + h) 3 vs =
      momentAbout c 3 vs - 3 * h * momentAbout c 2 vs + 3 * h ^ 2 * momentAbout c 1 vs -
        vs.length * h ^ 3 := by
  induction vs with
  | nil => simp
  | cons v vs ih =>
      rw [momentAbout_cons, ih, momentAbout_cons, momentAbout_cons, momentAbout_cons,
        List.length_cons]
      push_cast
      ring

theorem momentAbout_four_add (c h : K) (vs : List K) :
    momentAbout (c + h) 4 vs =
      momentAbout c 4 vs - 4 * h * momentAbout c 3 vs + 6 * h ^ 2 * momentAbout c 2 vs -
        4 * h ^ 3 * momentAbout c 1 vs + vs.length * h ^ 4 := by
  induction vs with
  | nil => simp
  | cons v vs ih =>
      rw [momentAbout_cons, ih, momentAbout_cons, momentAbout_cons, momentAbout_cons,
        momentAbout_cons, List.length_cons]
      push_cast
      ring

variable [CharZero K]

theorem length_mul_mean {vs : List K} (hne : vs ≠ []) : vs.length * mean vs = vs.sum := by
  have hlength : (vs.length : K) ≠ 0 := by
    exact_mod_cast (List.length_pos_of_ne_nil hne).ne'
  rw [mean, mul_div_cancel₀ _ hlength]

/-- The distances from the mean add up to zero. -/
theorem momentAbout_mean_one {vs : List K} (hne : vs ≠ []) : momentAbout (mean vs) 1 vs = 0 := by
  rw [momentAbout_one, length_mul_mean hne, sub_self]

/-- The mean of two lists put together. -/
theorem mean_append (hx : xs ≠ []) (hy : ys ≠ []) :
    mean (xs ++ ys) =
      mean xs + (mean ys - mean xs) * ys.length / (xs.length + ys.length) := by
  have hlength : (xs.length : K) + ys.length ≠ 0 := by
    exact_mod_cast (Nat.add_pos_left (List.length_pos_of_ne_nil hx) _).ne'
  have hsum : (xs ++ ys).sum = xs.length * mean xs + ys.length * mean ys := by
    rw [List.sum_append, length_mul_mean hx, length_mul_mean hy]
  rw [mean, hsum, List.length_append]
  push_cast
  field_simp
  ring

/-- The same mean, seen from the other list. -/
theorem mean_append' (hx : xs ≠ []) (hy : ys ≠ []) :
    mean (xs ++ ys) =
      mean ys + (mean xs - mean ys) * xs.length / (xs.length + ys.length) := by
  have hlength : (xs.length : K) + ys.length ≠ 0 := by
    exact_mod_cast (Nat.add_pos_left (List.length_pos_of_ne_nil hx) _).ne'
  rw [mean_append hx hy]
  field_simp
  ring

/-- The second central moment of two lists put together. -/
theorem secondMoment_append (hx : xs ≠ []) (hy : ys ≠ []) :
    secondMoment (xs ++ ys) = secondMoment xs + secondMoment ys +
      (mean ys - mean xs) ^ 2 * xs.length * ys.length / (xs.length + ys.length) := by
  have hlength : (xs.length : K) + ys.length ≠ 0 := by
    exact_mod_cast (Nat.add_pos_left (List.length_pos_of_ne_nil hx) _).ne'
  have hleft := momentAbout_two_add (mean xs)
    ((mean ys - mean xs) * ys.length / (xs.length + ys.length)) xs
  have hright := momentAbout_two_add (mean ys)
    ((mean xs - mean ys) * xs.length / (xs.length + ys.length)) ys
  rw [← mean_append hx hy, momentAbout_mean_one hx, mul_zero, sub_zero] at hleft
  rw [← mean_append' hx hy, momentAbout_mean_one hy, mul_zero, sub_zero] at hright
  rw [secondMoment, momentAbout_append, hleft, hright, secondMoment, secondMoment]
  field_simp
  ring

/-- The third central moment of two lists put together. -/
theorem thirdMoment_append (hx : xs ≠ []) (hy : ys ≠ []) :
    thirdMoment (xs ++ ys) = thirdMoment xs + thirdMoment ys +
      (mean ys - mean xs) ^ 3 * xs.length * ys.length * (xs.length - ys.length) /
        (xs.length + ys.length) ^ 2 +
      3 * (mean ys - mean xs) * (xs.length * secondMoment ys - ys.length * secondMoment xs) /
        (xs.length + ys.length) := by
  have hlength : (xs.length : K) + ys.length ≠ 0 := by
    exact_mod_cast (Nat.add_pos_left (List.length_pos_of_ne_nil hx) _).ne'
  have hleft := momentAbout_three_add (mean xs)
    ((mean ys - mean xs) * ys.length / (xs.length + ys.length)) xs
  have hright := momentAbout_three_add (mean ys)
    ((mean xs - mean ys) * xs.length / (xs.length + ys.length)) ys
  rw [← mean_append hx hy, momentAbout_mean_one hx, mul_zero, add_zero] at hleft
  rw [← mean_append' hx hy, momentAbout_mean_one hy, mul_zero, add_zero] at hright
  rw [thirdMoment, momentAbout_append, hleft, hright, thirdMoment, thirdMoment, secondMoment,
    secondMoment]
  field_simp
  ring

/-- The fourth central moment of two lists put together. -/
theorem fourthMoment_append (hx : xs ≠ []) (hy : ys ≠ []) :
    fourthMoment (xs ++ ys) = fourthMoment xs + fourthMoment ys +
      (mean ys - mean xs) ^ 4 * xs.length * ys.length *
        (xs.length ^ 2 - xs.length * ys.length + ys.length ^ 2) / (xs.length + ys.length) ^ 3 +
      6 * (mean ys - mean xs) ^ 2 *
        (xs.length ^ 2 * secondMoment ys + ys.length ^ 2 * secondMoment xs) /
          (xs.length + ys.length) ^ 2 +
      4 * (mean ys - mean xs) * (xs.length * thirdMoment ys - ys.length * thirdMoment xs) /
        (xs.length + ys.length) := by
  have hlength : (xs.length : K) + ys.length ≠ 0 := by
    exact_mod_cast (Nat.add_pos_left (List.length_pos_of_ne_nil hx) _).ne'
  have hleft := momentAbout_four_add (mean xs)
    ((mean ys - mean xs) * ys.length / (xs.length + ys.length)) xs
  have hright := momentAbout_four_add (mean ys)
    ((mean xs - mean ys) * xs.length / (xs.length + ys.length)) ys
  rw [← mean_append hx hy, momentAbout_mean_one hx, mul_zero, sub_zero] at hleft
  rw [← mean_append' hx hy, momentAbout_mean_one hy, mul_zero, sub_zero] at hright
  rw [fourthMoment, momentAbout_append, hleft, hright, fourthMoment, fourthMoment, thirdMoment,
    thirdMoment, secondMoment, secondMoment]
  field_simp
  ring

end Field

section Ordered

variable {K : Type*} [Field K] [LinearOrder K] [IsStrictOrderedRing K]

theorem momentAbout_two_nonneg (c : K) (vs : List K) : 0 ≤ momentAbout c 2 vs := by
  induction vs with
  | nil => exact le_refl 0
  | cons v vs ih =>
      rw [momentAbout_cons]
      exact add_nonneg (sq_nonneg _) ih

theorem momentAbout_two_eq_zero_iff (c : K) (vs : List K) :
    momentAbout c 2 vs = 0 ↔ ∀ v ∈ vs, v = c := by
  induction vs with
  | nil => simp
  | cons v vs ih =>
      rw [momentAbout_cons, add_eq_zero_iff_of_nonneg (sq_nonneg _) (momentAbout_two_nonneg c vs),
        ih, sq_eq_zero_iff, sub_eq_zero, List.forall_mem_cons]

/-- Equal values are at no distance from their mean, and no others are. -/
theorem secondMoment_eq_zero_iff (vs : List K) :
    secondMoment vs = 0 ↔ ∀ v ∈ vs, ∀ w ∈ vs, v = w := by
  rw [secondMoment, momentAbout_two_eq_zero_iff]
  constructor
  · intro h v hv w hw
    rw [h v hv, h w hw]
  · intro h v hv
    have hsum : vs.sum = vs.length * v := by
      rw [List.eq_replicate_of_mem fun w hw => h w hw v hv]
      simp
    have hlength : (vs.length : K) ≠ 0 := by
      exact_mod_cast (List.length_pos_of_mem hv).ne'
    rw [mean, hsum, mul_div_cancel_left₀ _ hlength]

/-- The variance vanishes just for lists of equal values. -/
theorem variance_eq_zero_iff (vs : List K) :
    variance vs = 0 ↔ ∀ v ∈ vs, ∀ w ∈ vs, v = w := by
  rw [← secondMoment_eq_zero_iff, variance, div_eq_zero_iff, Nat.cast_eq_zero,
    List.length_eq_zero_iff]
  constructor
  · rintro (h | rfl)
    · exact h
    · rfl
  · exact Or.inl

end Ordered
end Moments
