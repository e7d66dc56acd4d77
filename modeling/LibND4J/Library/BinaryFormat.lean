import Mathlib.Data.Nat.Dist
import Mathlib.Tactic.Ring

/-!
# Binary formats

The bits of a floating-point number below its sign, read as a number, count the magnitudes of the
format from zero on.  Rounding to nearest picks the number of the magnitude that is closest, and
the even one of two that are.

Main results:

- Theorem `magnitude_succ`: the distance of a magnitude from the next one.
- Theorem `NearestEven.unique`: rounding to nearest has one result.
- Theorem `nearestEven_of_remainder`: rounding by the remainder of a division by a power of
  two is rounding to nearest.
-/

namespace BinaryFormat

/-! ## Magnitudes -/

/-- The `n`-th magnitude of a format with `p` bits of fraction, in units of the least positive
one. -/
def magnitude (p n : Nat) : Nat :=
  if n / 2 ^ p = 0 then n % 2 ^ p else (2 ^ p + n % 2 ^ p) * 2 ^ (n / 2 ^ p - 1)

theorem mul_add_div_of_lt {a b c : Nat} (hc : c < b) : (a * b + c) / b = a := by
  rw [Nat.mul_comm, Nat.mul_add_div (Nat.zero_lt_of_lt hc), Nat.div_eq_of_lt hc, Nat.add_zero]

/-- The magnitudes without an exponent are the multiples of the least one. -/
theorem magnitude_of_lt {p n : Nat} (hn : n < 2 ^ p) : magnitude p n = n := by
  rw [magnitude, if_pos (Nat.div_eq_of_lt hn), Nat.mod_eq_of_lt hn]

/-- The magnitudes with an exponent. -/
theorem magnitude_mul_add {p e m : Nat} (he : 0 < e) (hm : m < 2 ^ p) :
    magnitude p (e * 2 ^ p + m) = (2 ^ p + m) * 2 ^ (e - 1) := by
  rw [magnitude, mul_add_div_of_lt hm, Nat.mul_add_mod_of_lt hm, if_neg he.ne']

/-- The distance of a magnitude from the next one. -/
theorem magnitude_succ (p n : Nat) :
    magnitude p (n + 1) = magnitude p n + 2 ^ (n / 2 ^ p - 1) := by
  have hpos : 0 < 2 ^ p := Nat.two_pow_pos p
  obtain ⟨e, m, hm, rfl⟩ : ∃ e m, m < 2 ^ p ∧ n = e * 2 ^ p + m :=
    ⟨n / 2 ^ p, n % 2 ^ p, Nat.mod_lt n hpos, (Nat.div_add_mod' n (2 ^ p)).symm⟩
  rw [mul_add_div_of_lt hm]
  by_cases hlast : m + 1 = 2 ^ p
  · -- the next magnitude has the next exponent
    have hnext : e * 2 ^ p + m + 1 = (e + 1) * 2 ^ p + 0 := by
      rw [Nat.add_assoc, hlast, Nat.add_mul, Nat.one_mul, Nat.add_zero]
    rw [hnext, magnitude_mul_add e.succ_pos hpos]
    cases e with
    | zero => simp [magnitude_of_lt hm, hlast]
    | succ e =>
        rw [magnitude_mul_add e.succ_pos hm, ← hlast]
        simp only [Nat.succ_eq_add_one, Nat.add_sub_cancel, pow_succ]
        ring
  · have hsucc : m + 1 < 2 ^ p := Nat.lt_of_le_of_ne hm hlast
    cases e with
    | zero => simp [magnitude_of_lt hm, magnitude_of_lt hsucc]
    | succ e =>
        rw [Nat.add_assoc, magnitude_mul_add e.succ_pos hm, magnitude_mul_add e.succ_pos hsucc]
        ring

theorem magnitude_strictMono (p : Nat) : StrictMono (magnitude p) := by
  refine strictMono_nat_of_lt_succ fun n => ?_
  rw [magnitude_succ]
  exact Nat.lt_add_of_pos_right (Nat.two_pow_pos _)

theorem magnitude_zero (p : Nat) : magnitude p 0 = 0 :=
  magnitude_of_lt (Nat.two_pow_pos p)

/-! ## Rounding to nearest -/

/-- The value with number `n` is closest to `v`; of two values that are, it is the even one. -/
def NearestEven (value : Nat → Nat) (v n : Nat) : Prop :=
  ∀ m, m ≠ n → Nat.dist v (value n) < Nat.dist v (value m) ∨
    Nat.dist v (value n) = Nat.dist v (value m) ∧ n % 2 = 0

variable {value : Nat → Nat}

variable (hvalue : StrictMono value)

include hvalue

/-- Rounding to nearest has one result. -/
theorem NearestEven.unique {v m n : Nat} (hm : NearestEven value v m) (hn : NearestEven value v n) :
    m = n := by
  wlog hlt : m < n generalizing m n
  · rcases Nat.lt_trichotomy m n with h | h | h
    · exact absurd h hlt
    · exact h
    · exact (this hn hm h).symm
  have hboth := hm n hlt.ne'
  have hback := hn m hlt.ne
  have hfirst : value m < value (m + 1) := hvalue (Nat.lt_succ_self m)
  have hnext := hm (m + 1) (Nat.succ_ne_self m)
  by_cases hadjacent : m + 1 = n
  · subst hadjacent
    omega
  · -- two even numbers have one between them, which is closer
    have hbetween := hvalue (show m + 1 < n by omega)
    simp only [Nat.dist] at hboth hback hnext
    omega

/-- A value is its own rounding. -/
theorem nearestEven_self (n : Nat) : NearestEven value (value n) n := by
  intro m hm
  have hne : value m ≠ value n := fun h => hm (hvalue.injective h)
  left
  rw [Nat.dist_self]
  exact Nat.dist_pos_of_ne hne.symm

/-- Between two neighbouring values the distance from the lower one decides. -/
theorem nearestEven_of_le {v n d : Nat} (hlow : value n ≤ v) (hnext : value (n + 1) = value n + d)
    (hhigh : v - value n < d) :
    NearestEven value v
      (if d < 2 * (v - value n) ∨ 2 * (v - value n) = d ∧ n % 2 = 1 then n + 1 else n) := by
  intro m hm
  rcases Nat.lt_or_ge n m with hmn | hmn
  · have habove := hvalue.monotone (Nat.succ_le_of_lt hmn)
    split at hm <;> rename_i hup
    · have hstrict := hvalue (Nat.lt_of_le_of_ne (Nat.succ_le_of_lt hmn) hm.symm)
      rw [if_pos hup]
      simp only [Nat.dist, Nat.succ_eq_add_one] at *
      omega
    · rw [if_neg hup]
      simp only [Nat.dist, Nat.succ_eq_add_one] at *
      omega
  · have hbelow := hvalue.monotone hmn
    split at hm <;> rename_i hup
    · rw [if_pos hup]
      simp only [Nat.dist] at *
      omega
    · have hstrict := hvalue (Nat.lt_of_le_of_ne hmn hm)
      rw [if_neg hup]
      simp only [Nat.dist] at *
      omega

/-- Rounding by a remainder: it is up if the remainder is more than half of the divisor, or half
of it and the number is odd. -/
theorem nearestEven_of_remainder {v n r s k : Nat} (hs : 0 < s) (hr : r < 2 ^ s)
    (hv : v = value n + r * 2 ^ k) (hnext : value (n + 1) = value n + 2 ^ s * 2 ^ k) :
    NearestEven value v
      (n + if 2 ^ (s - 1) < r ∨ r = 2 ^ (s - 1) ∧ n % 2 = 1 then 1 else 0) := by
  have hscale : 0 < 2 ^ k := Nat.two_pow_pos k
  have hhalf : 2 ^ s = 2 * 2 ^ (s - 1) := by
    rw [← pow_succ', Nat.sub_add_cancel hs]
  have hdistance : v - value n = r * 2 ^ k := by
    rw [hv, Nat.add_sub_cancel_left]
  have hmore : 2 ^ s * 2 ^ k < 2 * (v - value n) ↔ 2 ^ (s - 1) < r := by
    rw [hdistance, hhalf, Nat.mul_assoc, Nat.mul_lt_mul_left Nat.zero_lt_two,
      Nat.mul_lt_mul_right hscale]
  have htie : 2 * (v - value n) = 2 ^ s * 2 ^ k ↔ r = 2 ^ (s - 1) := by
    rw [hdistance, hhalf, Nat.mul_assoc, Nat.mul_left_cancel_iff Nat.zero_lt_two,
      Nat.mul_left_inj hscale.ne']
  have hround := nearestEven_of_le hvalue (hv ▸ Nat.le_add_right _ _) hnext
    (hdistance ▸ (Nat.mul_lt_mul_right hscale).mpr hr)
  simp only [hmore, htie] at hround
  rwa [apply_ite (n + ·)]

end BinaryFormat
