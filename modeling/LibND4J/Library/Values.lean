import Mathlib.Algebra.Order.Field.Basic
import Mathlib.Tactic.Linarith
import Mathlib.Tactic.Ring

/-!
# Numbers with infinities and an invalid value

The elements of a numeric buffer: the numbers of an ordered field, two infinities and the result
of an invalid operation.  Sums and products of numbers are exact; only dividing by zero and the
square root of a negative number leave them.

Main results:

- Theorem `add_finite_eq_iff`: a sum with a number is that number only if nothing is added.
- Theorem `div_finite_eq_iff`: when two sums have the same quotient.
- Theorem `SquareRoot.root_inj`: numbers with equal square roots are equal.
-/

namespace Values

/-- A number, an infinity or the result of an invalid operation. -/
inductive Value (K : Type*)
  | finite (v : K)
  | infinity (negative : Bool)
  | nan
deriving DecidableEq

/-- Square roots of the numbers that are not negative. -/
structure SquareRoot (K : Type*) [Field K] [LinearOrder K] where
  root : K → K
  root_nonneg : ∀ a, 0 ≤ a → 0 ≤ root a
  mul_self_root : ∀ a, 0 ≤ a → root a * root a = a

/-! ## Square roots -/

namespace SquareRoot

variable {K : Type*} [Field K] [LinearOrder K] (root : SquareRoot K)

/-- Numbers with equal square roots are equal. -/
theorem root_inj {a b : K} (ha : 0 ≤ a) (hb : 0 ≤ b) (h : root.root a = root.root b) : a = b := by
  rw [← root.mul_self_root a ha, ← root.mul_self_root b hb, h]

theorem root_eq_zero_iff {a : K} (ha : 0 ≤ a) : root.root a = 0 ↔ a = 0 := by
  have hsquare := root.mul_self_root a ha
  constructor
  · intro h
    rw [← hsquare, h, mul_zero]
  · rintro rfl
    exact mul_self_eq_zero.mp hsquare

theorem root_zero : root.root 0 = 0 :=
  (root.root_eq_zero_iff (le_refl 0)).mpr rfl

theorem root_ne_zero {a : K} (ha : 0 < a) : root.root a ≠ 0 := fun hzero =>
  ha.ne' ((root.root_eq_zero_iff ha.le).mp hzero)

theorem root_one [IsStrictOrderedRing K] : root.root 1 = 1 := by
  rcases mul_self_eq_one_iff.mp (root.mul_self_root 1 zero_le_one) with hone | hneg
  · exact hone
  · have hnonneg := root.root_nonneg 1 zero_le_one
    rw [hneg] at hnonneg
    exact absurd hnonneg (not_le.mpr (neg_lt_zero.mpr one_pos))

/-- A constant moves a number to or from one without a reciprocal root. -/
theorem exists_reciprocal_ne [IsStrictOrderedRing K] {e : K} (he : e ≠ 0) :
    ∃ v, 1 / root.root v = 0 ∧ 1 / root.root (v + e) ≠ 0 ∨
      1 / root.root v ≠ 0 ∧ 1 / root.root (v + e) = 0 := by
  rcases lt_or_gt_of_ne he with hneg | hpos
  · refine ⟨-e, Or.inr ⟨one_div_ne_zero (root.root_ne_zero (neg_pos.mpr hneg)), ?_⟩⟩
    rw [neg_add_cancel, root.root_zero, div_zero]
  · refine ⟨0, Or.inl ⟨?_, ?_⟩⟩
    · rw [root.root_zero, div_zero]
    · rw [zero_add]
      exact one_div_ne_zero (root.root_ne_zero hpos)

end SquareRoot

namespace Value

variable {K : Type*} [Field K]

/-! ## Sums -/

/-- Negation. -/
def neg : Value K → Value K
  | finite v => finite (-v)
  | infinity negative => infinity !negative
  | nan => nan

/-- Addition; infinities of different signs have no sum. -/
def add : Value K → Value K → Value K
  | nan, _ => nan
  | _, nan => nan
  | finite a, finite b => finite (a + b)
  | infinity s, finite _ => infinity s
  | finite _, infinity s => infinity s
  | infinity s, infinity t => if s = t then infinity s else nan

instance : Zero (Value K) :=
  ⟨finite 0⟩

instance : One (Value K) :=
  ⟨finite 1⟩

instance : Add (Value K) :=
  ⟨add⟩

instance : Sub (Value K) :=
  ⟨fun a b => a + neg b⟩

theorem zero_eq : (0 : Value K) = finite 0 :=
  rfl

theorem one_eq : (1 : Value K) = finite 1 :=
  rfl

@[simp]
theorem finite_add (a b : K) : finite a + finite b = finite (a + b) :=
  rfl

@[simp]
theorem finite_sub (a b : K) : finite a - finite b = finite (a - b) :=
  congrArg finite (sub_eq_add_neg a b).symm

@[simp]
theorem infinity_add (s : Bool) (a : K) : infinity s + finite a = infinity s :=
  rfl

@[simp]
theorem nan_add (a : Value K) : nan + a = nan :=
  rfl

/-- A number may be added on either side. -/
theorem finite_add_comm (a : K) (c : Value K) : finite a + c = c + finite a := by
  cases c with
  | finite v => exact congrArg finite (add_comm a v)
  | infinity s => rfl
  | nan => rfl

theorem add_finite_zero (c : Value K) : c + finite 0 = c := by
  cases c with
  | finite v => exact congrArg finite (add_zero v)
  | infinity s => rfl
  | nan => rfl

theorem zero_add_finite (a : K) : (0 : Value K) + finite a = finite a := by
  rw [zero_eq, finite_add, zero_add]

theorem add_finite_add (c : Value K) (a b : K) : c + finite a + finite b = c + finite (a + b) := by
  cases c with
  | finite v => exact congrArg finite (add_assoc v a b)
  | infinity s => rfl
  | nan => rfl

/-- A sum with a number is that number only if nothing is added. -/
theorem add_finite_eq_iff (c : Value K) (a : K) : c + finite a = finite a ↔ c = 0 := by
  cases c with
  | finite v => simp [zero_eq]
  | infinity s => simp [zero_eq]
  | nan => simp [zero_eq]

@[simp]
theorem finite_sub_infinity (a : K) (s : Bool) : finite a - infinity s = infinity !s :=
  rfl

@[simp]
theorem finite_sub_nan (a : K) : finite a - nan = nan :=
  rfl

theorem one_sub_inj (a b : Value K) : 1 - a = 1 - b ↔ a = b := by
  cases a <;> cases b <;> simp [one_eq]

/-! ## Products and comparisons -/

variable [LinearOrder K]

/-- Multiplication; zero and an infinity have no product. -/
def mul : Value K → Value K → Value K
  | nan, _ => nan
  | _, nan => nan
  | finite a, finite b => finite (a * b)
  | infinity s, finite b => if b = 0 then nan else infinity (s != decide (b < 0))
  | finite a, infinity s => if a = 0 then nan else infinity (s != decide (a < 0))
  | infinity s, infinity t => infinity (s != t)

/-- Division; zero has no sign. -/
def div : Value K → Value K → Value K
  | nan, _ => nan
  | _, nan => nan
  | finite a, finite b =>
      if b = 0 then if a = 0 then nan else infinity (a < 0) else finite (a / b)
  | infinity s, finite b => infinity (s != decide (b < 0))
  | finite _, infinity _ => finite 0
  | infinity _, infinity _ => nan

instance : Mul (Value K) :=
  ⟨mul⟩

instance : Div (Value K) :=
  ⟨div⟩

/-- The absolute value. -/
def abs : Value K → Value K
  | finite v => finite |v|
  | infinity _ => infinity false
  | nan => nan

/-- The square root. -/
def sqrt (root : SquareRoot K) : Value K → Value K
  | finite v => if v < 0 then nan else finite (root.root v)
  | infinity negative => if negative then nan else infinity false
  | nan => nan

/-- Comparison; an invalid value is not comparable. -/
def less : Value K → Value K → Bool
  | finite a, finite b => a < b
  | infinity true, finite _ => true
  | finite _, infinity false => true
  | infinity true, infinity false => true
  | _, _ => false

/-- Equality; an invalid value is not equal to itself. -/
def equal : Value K → Value K → Bool
  | finite a, finite b => a = b
  | infinity s, infinity t => s = t
  | _, _ => false

@[simp]
theorem finite_mul (a b : K) : finite a * finite b = finite (a * b) :=
  rfl

theorem finite_div (a b : K) : finite a / finite b =
    if b = 0 then if a = 0 then nan else infinity (a < 0) else finite (a / b) :=
  rfl

@[simp]
theorem abs_finite (a : K) : (finite a).abs = finite |a| :=
  rfl

omit [Field K] in
@[simp]
theorem less_finite (a b : K) : (finite a).less (finite b) = decide (a < b) :=
  rfl

omit [Field K] in
@[simp]
theorem equal_finite (a b : K) : (finite a).equal (finite b) = decide (a = b) :=
  rfl

theorem finite_div_of_ne {a b : K} (hb : b ≠ 0) : finite a / finite b = finite (a / b) := by
  rw [finite_div, if_neg hb]

/-- Two sums with a number have the same quotient if nothing is added, or if zero by zero is
divided and what is added is invalid. -/
theorem div_finite_eq_iff (c : Value K) {a b : K} (hzero : b = 0 → a = 0) :
    (c + finite a) / finite b = finite a / finite b ↔ c = 0 ∨ (b = 0 ∧ c = nan) := by
  by_cases hb : b = 0
  · have ha := hzero hb
    subst hb ha
    rw [add_finite_zero, finite_div, if_pos rfl, if_pos rfl]
    cases c with
    | finite v =>
        rw [finite_div, if_pos rfl]
        by_cases hv : v = 0
        · simp [zero_eq, hv]
        · simp [zero_eq, hv]
    | infinity s => exact ⟨fun h => absurd h (by simp [HDiv.hDiv, Div.div, div]), by simp [zero_eq]⟩
    | nan => exact ⟨fun _ => Or.inr ⟨rfl, rfl⟩, fun _ => rfl⟩
  · rw [finite_div_of_ne hb]
    cases c with
    | finite v =>
        rw [finite_add, finite_div_of_ne hb]
        simp [zero_eq, hb, add_div]
    | infinity s =>
        exact ⟨fun h => absurd h (by simp [HDiv.hDiv, Div.div, div]), by simp [zero_eq, hb]⟩
    | nan => exact ⟨fun h => absurd h (by simp [HDiv.hDiv, Div.div, div]), by simp [zero_eq, hb]⟩

theorem sqrt_finite (root : SquareRoot K) {v : K} (hv : 0 ≤ v) :
    (finite v).sqrt root = finite (root.root v) :=
  if_neg (not_lt.mpr hv)

/-- Two sums with a number have the same square root if nothing is added. -/
theorem sqrt_add_eq_iff (root : SquareRoot K) (c : Value K) {a : K} (ha : 0 ≤ a) :
    (c + finite a).sqrt root = (finite a).sqrt root ↔ c = 0 := by
  rw [sqrt_finite root ha]
  cases c with
  | finite v =>
      rw [finite_add]
      by_cases hv : v + a < 0
      · have hne : v ≠ 0 := by
          rintro rfl
          exact absurd hv (by rw [zero_add]; exact not_lt.mpr ha)
        simp [sqrt, hv, zero_eq, hne]
      · rw [sqrt_finite root (not_lt.mp hv), Value.finite.injEq, zero_eq, Value.finite.injEq]
        constructor
        · intro h
          exact add_eq_right.mp (root.root_inj (not_lt.mp hv) ha h)
        · rintro rfl
          rw [zero_add]
  | infinity s => cases s <;> simp [sqrt, zero_eq]
  | nan => simp [sqrt, zero_eq]

end Value
end Values
