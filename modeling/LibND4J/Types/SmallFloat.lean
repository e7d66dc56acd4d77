import LibND4J.Library.BinaryFormat
import Mathlib.Data.Nat.Bitwise

/-!
# Conversions of small floating-point types

The files of the two small types hold the same two conversions, with different constants.  A
conversion to `float` moves the fields of the bits and normalizes numbers without an exponent.
A conversion from `float` shifts the mantissa and rounds by the bits that are shifted out;
above and below two bounds the result is infinity and zero.

Main results:

- Theorem `roundNearest_eq`: the rounding carries from the mantissa into the exponent.
- Theorem `nearestEven_rounded`: the number that is shifted out and rounded is the nearest one
  while exponents are not bounded.
- Theorem `SmallFloat.toFloat_widens`: a conversion to `float` keeps the value.
-/

namespace LibND4J
namespace Types

open BinaryFormat

/-! ## The conversions -/

/-- The constants in the conversions of a small type.  The sign bit, the exponent and the mantissa
stand next to each other. -/
structure SmallFloat where
  mantissaBits : Nat
  mantissaMask : Nat
  exponentMask : Nat
  signBit : Nat
  /-- How far the mantissa of a `float` is shifted. -/
  shift : Nat
  /-- The difference between the exponents of the two types. -/
  exponentOffset : Nat
  /-- Where the exponent starts when a number without an exponent is normalized. -/
  denormExponent : Nat
  /-- The mantissa of a number that has no exponent in the small type is shifted by this much less
  its exponent. -/
  denormShift : Nat
  signShift : Nat
  signMask : Nat
  nan : Nat
  infinity : Nat
  mantissaBits_pos : 0 < mantissaBits
  shift_pos : 0 < shift
  mantissaBits_add_shift : mantissaBits + shift = 23
  mantissaBits_lt : mantissaBits < signBit
  mantissaMask_eq : mantissaMask = 2 ^ mantissaBits - 1
  exponentMask_eq : exponentMask = 2 ^ (signBit - mantissaBits) - 1
  mantissaBits_le_offset : mantissaBits ≤ exponentOffset
  exponent_le : exponentOffset + exponentMask ≤ 0xff
  least_le : 125 ≤ exponentOffset + shift
  denormExponent_eq : denormExponent = exponentOffset + 1
  denormShift_eq : denormShift = exponentOffset + shift + 1
  signShift_add_signBit : signShift + signBit = 31
  signMask_eq : signMask = 2 ^ signBit
  infinity_eq : infinity = exponentMask * 2 ^ mantissaBits
  infinity_lt_nan : infinity < nan
  nan_lt : nan < 2 ^ signBit

/-- The loop that normalizes a mantissa; `none` if it does not end in time. -/
def normalize : Nat → Nat → Nat → Option (Nat × Nat)
  | 0, _, _ => none
  | fuel + 1, mantissa, exponent =>
      let msb := mantissa &&& 0x400000
      let mantissa := mantissa <<< 1
      let exponent := exponent - 1
      if msb = 0 then normalize fuel mantissa exponent else some (mantissa, exponent)

namespace SmallFloat

variable (c : SmallFloat)

/-- The conversion to the bits of a `float`. -/
def toFloat (b : Nat) : Option Nat :=
  let sign := (b >>> c.signBit) &&& 1
  let exponent := (b >>> c.mantissaBits) &&& c.exponentMask
  let mantissa := (b &&& c.mantissaMask) <<< c.shift
  if exponent = c.exponentMask then
    -- an infinity or NaN, which loses its sign
    if mantissa ≠ 0 then some (0 <<< 31 ||| 0xff <<< 23 ||| 0x7fffff)
    else some (sign <<< 31 ||| 0xff <<< 23 ||| 0)
  else if exponent = 0 then
    if mantissa ≠ 0 then
      (normalize 23 mantissa c.denormExponent).map fun (mantissa, exponent) =>
        sign <<< 31 ||| exponent <<< 23 ||| (mantissa &&& 0x7fffff)
    else some (sign <<< 31 ||| exponent <<< 23 ||| mantissa)
  else some (sign <<< 31 ||| (exponent + c.exponentOffset) <<< 23 ||| mantissa)

/-- The part of the conversion from `float` that rounds to nearest even. -/
def roundNearest (sign exponent mantissa shift : Nat) : Nat :=
  let lsb := 1 <<< shift
  let lsb_s1 := lsb >>> 1
  let lsb_m1 := lsb - 1
  let remainder := mantissa &&& lsb_m1
  let mantissa := mantissa >>> shift
  if remainder > lsb_s1 ∨ (remainder = lsb_s1 ∧ mantissa &&& 1 ≠ 0) then
    let mantissa := mantissa + 1
    if mantissa &&& c.mantissaMask = 0 then sign ||| (exponent + 1) <<< c.mantissaBits ||| 0
    else sign ||| exponent <<< c.mantissaBits ||| mantissa
  else sign ||| exponent <<< c.mantissaBits ||| mantissa

/-- The conversion from the bits of a `float`, before it is cut to the width of the small type;
`none` where the shift is as wide as the type, which leaves it undefined. -/
def fromFloat (x : Nat) : Option Nat :=
  let u := x &&& 0x7fffffff
  if u > 0x7f800000 then some c.nan
  else
    let sign := (x >>> c.signShift) &&& c.signMask
    if u > 0x477fefff then some (sign ||| c.infinity)
    else if u < 0x33000001 then some (sign ||| 0)
    else
      let exponent := (u >>> 23) &&& 0xff
      let mantissa := u &&& 0x7fffff
      if exponent > c.exponentOffset then
        some (c.roundNearest sign (exponent - c.exponentOffset) mantissa c.shift)
      else if 32 ≤ c.denormShift - exponent then none
      else some (c.roundNearest sign 0 (mantissa ||| 0x800000) (c.denormShift - exponent))

/-! ## What the bits stand for -/

/-- The `n`-th magnitude, in units of the least positive `float`. -/
def value (n : Nat) : Nat :=
  magnitude c.mantissaBits n * 2 ^ (c.exponentOffset + c.shift)

/-- The bits are what a `float` converts to: a number becomes the nearest one of the small type,
ties to even, or infinity if that exceeds the largest one. -/
structure Narrows (x b : Nat) : Prop where
  nan : 0x7f800000 < x % 2 ^ 31 → c.infinity < b % 2 ^ c.signBit
  sign : x % 2 ^ 31 ≤ 0x7f800000 → b / 2 ^ c.signBit = x / 2 ^ 31
  infinite : x % 2 ^ 31 = 0x7f800000 → b % 2 ^ c.signBit = c.infinity
  finite : x % 2 ^ 31 < 0x7f800000 → ∃ n, NearestEven c.value (magnitude 23 (x % 2 ^ 31)) n ∧
    b % 2 ^ c.signBit = min n c.infinity

/-- A `float` stands for what the bits of the small type stand for. -/
structure Widens (b x : Nat) : Prop where
  lt : x < 2 ^ 32
  nan : c.infinity < b % 2 ^ c.signBit → 0x7f800000 < x % 2 ^ 31
  sign : b % 2 ^ c.signBit ≤ c.infinity → x / 2 ^ 31 = b / 2 ^ c.signBit
  infinite : b % 2 ^ c.signBit = c.infinity → x % 2 ^ 31 = 0x7f800000
  finite : b % 2 ^ c.signBit < c.infinity →
    x % 2 ^ 31 < 0x7f800000 ∧ magnitude 23 (x % 2 ^ 31) = c.value (b % 2 ^ c.signBit)

theorem value_strictMono : StrictMono c.value := fun _ _ h =>
  (Nat.mul_lt_mul_right (Nat.two_pow_pos _)).mpr (magnitude_strictMono c.mantissaBits h)

theorem value_zero : c.value 0 = 0 := by
  rw [value, magnitude_zero, Nat.zero_mul]

/-- The distance of a value from the next one. -/
theorem value_succ (n : Nat) : c.value (n + 1) =
    c.value n + 2 ^ (n / 2 ^ c.mantissaBits - 1) * 2 ^ (c.exponentOffset + c.shift) := by
  rw [value, value, magnitude_succ, Nat.add_mul]

/-! ## Rounding -/

/-- The number of the magnitude that a `float` is rounded to while exponents are not bounded. -/
def rounded (u : Nat) : Nat :=
  let exponent := u / 2 ^ 23
  let mantissa := if c.exponentOffset < exponent then u % 2 ^ 23 else 2 ^ 23 + u % 2 ^ 23
  let shift := if c.exponentOffset < exponent then c.shift else c.denormShift - exponent
  let n := (exponent - c.exponentOffset) * 2 ^ c.mantissaBits + mantissa / 2 ^ shift
  n + if 2 ^ (shift - 1) < mantissa % 2 ^ shift ∨
    mantissa % 2 ^ shift = 2 ^ (shift - 1) ∧ n % 2 = 1 then 1 else 0

theorem mul_two_pow_mod_two (a m : Nat) {p : Nat} (hp : 0 < p) :
    (a * 2 ^ p + m) % 2 = m % 2 := by
  obtain ⟨k, rfl⟩ := Nat.exists_eq_succ_of_ne_zero hp.ne'
  rw [pow_succ, ← Nat.mul_assoc, Nat.mul_add_mod_self_right]

/-- The rounding carries from the mantissa into the exponent. -/
theorem roundNearest_eq {exponent mantissa shift : Nat} (sign : Nat) (hshift : 0 < shift)
    (hmantissa : mantissa / 2 ^ shift < 2 ^ c.mantissaBits) :
    c.roundNearest sign exponent mantissa shift =
      sign ||| (exponent * 2 ^ c.mantissaBits + mantissa / 2 ^ shift +
        if 2 ^ (shift - 1) < mantissa % 2 ^ shift ∨ mantissa % 2 ^ shift = 2 ^ (shift - 1) ∧
          (exponent * 2 ^ c.mantissaBits + mantissa / 2 ^ shift) % 2 = 1 then 1 else 0) := by
  have hhalf : 2 ^ shift / 2 ^ 1 = 2 ^ (shift - 1) :=
    Nat.pow_div hshift Nat.zero_lt_two
  have hor : ∀ e m, m < 2 ^ c.mantissaBits →
      sign ||| e <<< c.mantissaBits ||| m = sign ||| (e * 2 ^ c.mantissaBits + m) := by
    intro e m hm
    rw [Nat.or_assoc, ← Nat.shiftLeft_add_eq_or_of_lt hm, Nat.shiftLeft_eq]
  unfold roundNearest
  simp only [Nat.one_shiftLeft, Nat.shiftRight_eq_div_pow, hhalf, Nat.and_two_pow_sub_one_eq_mod,
    c.mantissaMask_eq, Nat.and_one_is_mod, gt_iff_lt, mul_two_pow_mod_two _ _ c.mantissaBits_pos,
    Nat.mod_two_ne_zero]
  split
  · by_cases hlast : mantissa / 2 ^ shift + 1 = 2 ^ c.mantissaBits
    · -- the mantissa overflows
      rw [hlast, Nat.mod_self, if_pos rfl, hor _ 0 (Nat.two_pow_pos _), Nat.add_assoc, hlast,
        Nat.add_zero, Nat.add_mul, Nat.one_mul]
    · have hnext : mantissa / 2 ^ shift + 1 < 2 ^ c.mantissaBits :=
        Nat.lt_of_le_of_ne hmantissa hlast
      rw [Nat.mod_eq_of_lt hnext, if_neg (Nat.succ_ne_zero _), hor _ _ hnext, Nat.add_assoc]
  · rw [hor _ _ hmantissa, Nat.add_zero]

variable {u x n b m s : Nat}

/-- What the bits of a `float` with an exponent stand for. -/
theorem magnitude_float (hu : 2 ^ 23 ≤ u) :
    magnitude 23 u = (2 ^ 23 + u % 2 ^ 23) * 2 ^ (u / 2 ^ 23 - 1) := by
  rw [magnitude, if_neg (Nat.div_pos hu (Nat.two_pow_pos 23)).ne']

theorem two_pow_mantissa : 2 ^ c.mantissaBits * 2 ^ c.shift = 2 ^ 23 := by
  rw [← pow_add, c.mantissaBits_add_shift]

/-- The mantissa of a number that has an exponent in the small type fits after its shift. -/
theorem quotient_lt {mantissa : Nat} (hmantissa : mantissa < 2 ^ 23) :
    mantissa / 2 ^ c.shift < 2 ^ c.mantissaBits := by
  rw [Nat.div_lt_iff_lt_mul (Nat.two_pow_pos _), two_pow_mantissa]
  exact hmantissa

/-- So does the mantissa of one that has none, its leading bit included. -/
theorem denorm_quotient_lt {exponent mantissa : Nat} (hexponent : exponent ≤ c.exponentOffset)
    (hmantissa : mantissa < 2 ^ 24) :
    mantissa / 2 ^ (c.denormShift - exponent) < 2 ^ c.mantissaBits := by
  have hbits := c.mantissaBits_add_shift
  have hshift := c.denormShift_eq
  rw [Nat.div_lt_iff_lt_mul (Nat.two_pow_pos _), ← pow_add]
  exact hmantissa.trans_le (Nat.pow_le_pow_right Nat.zero_lt_two (by omega))

/-- Rounding the mantissa of a number that has an exponent in the small type. -/
theorem nearestEven_of_exponent {exponent mantissa : Nat} (hexponent : c.exponentOffset < exponent)
    (hmantissa : mantissa < 2 ^ 23) :
    let n := (exponent - c.exponentOffset) * 2 ^ c.mantissaBits + mantissa / 2 ^ c.shift
    NearestEven c.value ((2 ^ 23 + mantissa) * 2 ^ (exponent - 1))
      (n + if 2 ^ (c.shift - 1) < mantissa % 2 ^ c.shift ∨
        mantissa % 2 ^ c.shift = 2 ^ (c.shift - 1) ∧ n % 2 = 1 then 1 else 0) := by
  intro n
  have hscale : 2 ^ (exponent - c.exponentOffset - 1) * 2 ^ (c.exponentOffset + c.shift) =
      2 ^ c.shift * 2 ^ (exponent - 1) := by
    rw [← pow_add, ← pow_add]
    congr 1
    omega
  have hquotient := c.quotient_lt hmantissa
  have hvalue : c.value n =
      (2 ^ c.mantissaBits + mantissa / 2 ^ c.shift) * (2 ^ c.shift * 2 ^ (exponent - 1)) := by
    rw [value, magnitude_mul_add (Nat.sub_pos_of_lt hexponent) hquotient, Nat.mul_assoc, hscale]
  refine nearestEven_of_remainder (k := exponent - 1) c.value_strictMono c.shift_pos
    (Nat.mod_lt _ (Nat.two_pow_pos _)) ?_ ?_
  · calc (2 ^ 23 + mantissa) * 2 ^ (exponent - 1)
        = (2 ^ c.mantissaBits * 2 ^ c.shift +
            (mantissa / 2 ^ c.shift * 2 ^ c.shift + mantissa % 2 ^ c.shift)) *
              2 ^ (exponent - 1) := by
          rw [two_pow_mantissa, Nat.div_add_mod']
      _ = c.value n + mantissa % 2 ^ c.shift * 2 ^ (exponent - 1) := by
          rw [hvalue]
          ring
  · rw [value_succ, mul_add_div_of_lt hquotient, hscale]

/-- Rounding the mantissa of a number that has no exponent in the small type. -/
theorem nearestEven_of_denorm {exponent mantissa : Nat} (hpos : 0 < exponent)
    (hexponent : exponent ≤ c.exponentOffset) (hmantissa : mantissa < 2 ^ 24) :
    let shift := c.denormShift - exponent
    let n := mantissa / 2 ^ shift
    NearestEven c.value (mantissa * 2 ^ (exponent - 1))
      (n + if 2 ^ (shift - 1) < mantissa % 2 ^ shift ∨
        mantissa % 2 ^ shift = 2 ^ (shift - 1) ∧ n % 2 = 1 then 1 else 0) := by
  intro shift n
  have hshift : shift = c.exponentOffset + c.shift + 1 - exponent :=
    congrArg (· - exponent) c.denormShift_eq
  have hscale : 2 ^ (c.exponentOffset + c.shift) = 2 ^ shift * 2 ^ (exponent - 1) := by
    rw [← pow_add]
    congr 1
    omega
  have hquotient : n < 2 ^ c.mantissaBits := c.denorm_quotient_lt hexponent hmantissa
  have hvalue : c.value n = n * (2 ^ shift * 2 ^ (exponent - 1)) := by
    rw [value, magnitude_of_lt hquotient, hscale]
  refine nearestEven_of_remainder (k := exponent - 1) c.value_strictMono (by omega)
    (Nat.mod_lt _ (Nat.two_pow_pos _)) ?_ ?_
  · calc mantissa * 2 ^ (exponent - 1)
        = (n * 2 ^ shift + mantissa % 2 ^ shift) * 2 ^ (exponent - 1) := by
          rw [Nat.div_add_mod']
      _ = c.value n + mantissa % 2 ^ shift * 2 ^ (exponent - 1) := by
          rw [hvalue]
          ring
  · rw [value_succ, Nat.div_eq_of_lt hquotient, Nat.zero_sub, pow_zero, Nat.one_mul, hscale]

/-- Rounding the mantissa is rounding to nearest even. -/
theorem nearestEven_rounded (hu : 2 ^ 23 ≤ u) :
    NearestEven c.value (magnitude 23 u) (c.rounded u) := by
  have hexponent : 0 < u / 2 ^ 23 := Nat.div_pos hu (Nat.two_pow_pos 23)
  have hmod : u % 2 ^ 23 < 2 ^ 23 := Nat.mod_lt u (Nat.two_pow_pos 23)
  rw [magnitude_float hu, rounded]
  by_cases hlarge : c.exponentOffset < u / 2 ^ 23
  · simp only [if_pos hlarge]
    exact c.nearestEven_of_exponent hlarge hmod
  · have hsmall := not_lt.mp hlarge
    simp only [if_neg hlarge, Nat.sub_eq_zero_of_le hsmall, Nat.zero_mul, Nat.zero_add]
    exact c.nearestEven_of_denorm hexponent hsmall (by omega)

/-! ## The conversion from `float` -/

/-- Cutting out the sign. -/
theorem sign_eq (hx : x < 2 ^ 32) :
    (x >>> c.signShift) &&& c.signMask = x / 2 ^ 31 * 2 ^ c.signBit := by
  have hbit : x / 2 ^ 31 = 0 ∨ x / 2 ^ 31 = 1 := by omega
  rw [c.signMask_eq, Nat.and_two_pow, Nat.testBit_shiftRight, c.signShift_add_signBit,
    Nat.testBit_eq_decide_div_mod_eq]
  rcases hbit with h | h
  · rw [h]
    rfl
  · rw [h]
    rfl

theorem sign_or (sign : Nat) (hn : n < 2 ^ c.signBit) :
    sign * 2 ^ c.signBit ||| n = sign * 2 ^ c.signBit + n := by
  rw [← Nat.shiftLeft_eq, Nat.shiftLeft_add_eq_or_of_lt hn]

/-- What the conversion returns, class by class. -/
theorem fromFloat_eq (hx : x < 2 ^ 32) :
    c.fromFloat x =
      if 0x7f800000 < x % 2 ^ 31 then some c.nan
      else if 0x477fefff < x % 2 ^ 31 then some (x / 2 ^ 31 * 2 ^ c.signBit ||| c.infinity)
      else if x % 2 ^ 31 < 0x33000001 then some (x / 2 ^ 31 * 2 ^ c.signBit ||| 0)
      else if x % 2 ^ 31 / 2 ^ 23 ≤ c.exponentOffset ∧
          32 ≤ c.denormShift - x % 2 ^ 31 / 2 ^ 23 then none
      else some (x / 2 ^ 31 * 2 ^ c.signBit ||| c.rounded (x % 2 ^ 31)) := by
  have hlow : x &&& 0x7fffffff = x % 2 ^ 31 := Nat.and_two_pow_sub_one_eq_mod x 31
  unfold fromFloat
  rw [hlow, c.sign_eq hx]
  have hu : x % 2 ^ 31 < 2 ^ 31 := Nat.mod_lt x (Nat.two_pow_pos 31)
  generalize x % 2 ^ 31 = u at hu
  generalize x / 2 ^ 31 * 2 ^ c.signBit = sign
  have hmod : u % 2 ^ 23 < 2 ^ 23 := Nat.mod_lt u (Nat.two_pow_pos 23)
  have hexponent : (u >>> 23) &&& 0xff = u / 2 ^ 23 := by
    rw [Nat.shiftRight_eq_div_pow, Nat.and_two_pow_sub_one_eq_mod _ 8]
    omega
  have hmantissa : u &&& 0x7fffff = u % 2 ^ 23 := Nat.and_two_pow_sub_one_eq_mod u 23
  have hleading : u % 2 ^ 23 ||| 0x800000 = 2 ^ 23 + u % 2 ^ 23 := by
    rw [Nat.or_comm]
    exact (Nat.shiftLeft_add_eq_or_of_lt hmod 1).symm
  simp only [gt_iff_lt, hexponent, hmantissa, hleading]
  by_cases hnan : 0x7f800000 < u
  · rw [if_pos hnan, if_pos hnan]
  by_cases hover : 0x477fefff < u
  · rw [if_neg hnan, if_neg hnan, if_pos hover, if_pos hover]
  by_cases hunder : u < 0x33000001
  · rw [if_neg hnan, if_neg hnan, if_neg hover, if_neg hover, if_pos hunder, if_pos hunder]
  rw [if_neg hnan, if_neg hnan, if_neg hover, if_neg hover, if_neg hunder, if_neg hunder]
  by_cases hlarge : c.exponentOffset < u / 2 ^ 23
  · rw [if_pos hlarge, if_neg fun h => absurd hlarge (not_lt.mpr h.1),
      c.roundNearest_eq sign c.shift_pos (c.quotient_lt hmod)]
    simp only [rounded, if_pos hlarge]
  · have hsmall := not_lt.mp hlarge
    have hshift := c.denormShift_eq
    rw [if_neg hlarge]
    by_cases hwide : 32 ≤ c.denormShift - u / 2 ^ 23
    · rw [if_pos hwide, if_pos ⟨hsmall, hwide⟩]
    · rw [if_neg hwide, if_neg fun h => hwide h.2, c.roundNearest_eq sign (by omega)
        (c.denorm_quotient_lt hsmall (by omega))]
      simp only [rounded, if_neg hlarge, Nat.sub_eq_zero_of_le hsmall]

/-- Numbers up to half of the least positive one are rounded to zero. -/
theorem nearestEven_zero (hu : u < 0x33000001) : NearestEven c.value (magnitude 23 u) 0 := by
  have hone : c.value (0 + 1) = c.value 0 + 2 ^ (c.exponentOffset + c.shift) := by
    rw [value_succ, Nat.zero_div, Nat.zero_sub, pow_zero, Nat.one_mul]
  have hleast : 2 ^ 125 ≤ 2 ^ (c.exponentOffset + c.shift) :=
    Nat.pow_le_pow_right Nat.zero_lt_two c.least_le
  have hbound : magnitude 23 u ≤ 2 ^ 124 :=
    (magnitude_strictMono 23).monotone (Nat.le_of_lt_succ hu)
  have hround := nearestEven_of_le (v := magnitude 23 u) c.value_strictMono
    (c.value_zero.trans_le (Nat.zero_le _)) hone (by omega)
  rwa [value_zero, Nat.sub_zero, if_neg (by omega)] at hround

/-- The bits of a number that is rounded stand for it if they hold its sign and the number it is
rounded to, or infinity. -/
theorem narrows_of_nearestEven (hx : x % 2 ^ 31 < 0x7f800000)
    (hn : NearestEven c.value (magnitude 23 (x % 2 ^ 31)) n)
    (hsign : b / 2 ^ c.signBit = x / 2 ^ 31) (hb : b % 2 ^ c.signBit = min n c.infinity) :
    c.Narrows x b where
  nan := fun h => absurd h hx.not_gt
  sign := fun _ => hsign
  infinite := fun h => absurd h hx.ne
  finite := fun _ => ⟨n, hn, hb⟩

theorem infinity_lt : c.infinity < 2 ^ c.signBit :=
  c.infinity_lt_nan.trans c.nan_lt

theorem exponentMask_pos : 0 < c.exponentMask := by
  have htwo : 2 ^ 1 ≤ 2 ^ (c.signBit - c.mantissaBits) :=
    Nat.pow_le_pow_right Nat.zero_lt_two (Nat.sub_pos_of_lt c.mantissaBits_lt)
  have hmask := c.exponentMask_eq
  omega

/-- How a number that has an exponent in the small type is rounded. -/
theorem exists_rounded (hu : c.exponentOffset < u / 2 ^ 23) :
    ∃ n up, c.rounded u = n + up ∧
      n = (u / 2 ^ 23 - c.exponentOffset) * 2 ^ c.mantissaBits + u % 2 ^ 23 / 2 ^ c.shift ∧
      (up = 1 ∧ (2 ^ (c.shift - 1) < u % 2 ^ 23 % 2 ^ c.shift ∨
          u % 2 ^ 23 % 2 ^ c.shift = 2 ^ (c.shift - 1) ∧ n % 2 = 1) ∨
        up = 0 ∧ ¬ (2 ^ (c.shift - 1) < u % 2 ^ 23 % 2 ^ c.shift ∨
          u % 2 ^ 23 % 2 ^ c.shift = 2 ^ (c.shift - 1) ∧ n % 2 = 1)) := by
  by_cases hup : 2 ^ (c.shift - 1) < u % 2 ^ 23 % 2 ^ c.shift ∨
      u % 2 ^ 23 % 2 ^ c.shift = 2 ^ (c.shift - 1) ∧
        ((u / 2 ^ 23 - c.exponentOffset) * 2 ^ c.mantissaBits + u % 2 ^ 23 / 2 ^ c.shift) % 2 = 1
  · exact ⟨_, 1, by simp only [rounded, if_pos hu, if_pos hup], rfl, Or.inl ⟨rfl, hup⟩⟩
  · exact ⟨_, 0, by simp only [rounded, if_pos hu, if_neg hup], rfl, Or.inr ⟨rfl, hup⟩⟩

/-- Numbers without an exponent are rounded to at most the first number that has one. -/
theorem rounded_le_of_denorm (hu : u / 2 ^ 23 ≤ c.exponentOffset) :
    c.rounded u ≤ 2 ^ c.mantissaBits := by
  have hmod : u % 2 ^ 23 < 2 ^ 23 := Nat.mod_lt u (Nat.two_pow_pos 23)
  have hmantissa : 2 ^ 23 + u % 2 ^ 23 < 2 ^ 24 := by omega
  have hquotient := c.denorm_quotient_lt hu hmantissa
  simp only [rounded, if_neg (not_lt.mpr hu), Nat.sub_eq_zero_of_le hu, Nat.zero_mul, Nat.zero_add]
  split
  · exact hquotient
  · exact hquotient.le

/-- The sign and the rest of the bits that are put together. -/
theorem signed_fields {sign : Nat} (hsign : sign < 2) (hn : n < 2 ^ c.signBit) :
    (sign * 2 ^ c.signBit ||| n) < 2 ^ (c.signBit + 1) ∧
      (sign * 2 ^ c.signBit ||| n) / 2 ^ c.signBit = sign ∧
      (sign * 2 ^ c.signBit ||| n) % 2 ^ c.signBit = n := by
  rw [c.sign_or sign hn, pow_succ']
  refine ⟨?_, mul_add_div_of_lt hn, Nat.mul_add_mod_of_lt hn⟩
  obtain h | h : sign = 0 ∨ sign = 1 := by omega
  · rw [h]
    omega
  · rw [h]
    omega

/-- The conversion is right if the shift is defined and the two bounds fit the type. -/
theorem fromFloat_narrows (hx : x < 2 ^ 32)
    (hdefined : 0x33000001 ≤ x % 2 ^ 31 → x % 2 ^ 31 / 2 ^ 23 ≤ c.exponentOffset →
      c.denormShift - x % 2 ^ 31 / 2 ^ 23 < 32)
    (hover : 0x477fefff < x % 2 ^ 31 → c.infinity ≤ c.rounded (x % 2 ^ 31))
    (hfits : 0x33000001 ≤ x % 2 ^ 31 → x % 2 ^ 31 ≤ 0x477fefff →
      c.rounded (x % 2 ^ 31) ≤ c.infinity) :
    ∃ b, c.fromFloat x = some b ∧ b < 2 ^ (c.signBit + 1) ∧ c.Narrows x b := by
  have hs : x / 2 ^ 31 < 2 := by omega
  rw [c.fromFloat_eq hx]
  by_cases hnan : 0x7f800000 < x % 2 ^ 31
  · have hbits : c.infinity < c.nan % 2 ^ c.signBit := by
      rw [Nat.mod_eq_of_lt c.nan_lt]
      exact c.infinity_lt_nan
    rw [if_pos hnan]
    exact ⟨_, rfl, c.nan_lt.trans (Nat.pow_lt_pow_succ Nat.one_lt_two),
      ⟨fun _ => hbits, fun h => absurd hnan h.not_gt, fun h => absurd hnan h.not_gt,
        fun h => absurd hnan h.not_gt⟩⟩
  by_cases hlarge : 0x477fefff < x % 2 ^ 31
  · obtain ⟨hlt, hsign, hlow⟩ := c.signed_fields hs c.infinity_lt
    have hround := c.nearestEven_rounded (u := x % 2 ^ 31) (by omega)
    rw [if_neg hnan, if_pos hlarge]
    exact ⟨_, rfl, hlt, ⟨fun h => absurd h hnan, fun _ => hsign, fun _ => hlow,
      fun _ => ⟨_, hround, hlow.trans (min_eq_right (hover hlarge)).symm⟩⟩⟩
  by_cases hsmall : x % 2 ^ 31 < 0x33000001
  · obtain ⟨hlt, hsign, hlow⟩ := c.signed_fields hs (Nat.two_pow_pos c.signBit)
    rw [if_neg hnan, if_neg hlarge, if_pos hsmall]
    exact ⟨_, rfl, hlt, c.narrows_of_nearestEven (by omega) (c.nearestEven_zero hsmall) hsign
      (hlow.trans (Nat.zero_min _).symm)⟩
  · have hfit := hfits (by omega) (by omega)
    obtain ⟨hlt, hsign, hlow⟩ := c.signed_fields hs (hfit.trans_lt c.infinity_lt)
    rw [if_neg hnan, if_neg hlarge, if_neg hsmall, if_neg fun h =>
      absurd h.2 (not_le.mpr (hdefined (by omega) h.1))]
    exact ⟨_, rfl, hlt, c.narrows_of_nearestEven (by omega) (c.nearestEven_rounded (by omega))
      hsign (hlow.trans (min_eq_left hfit).symm)⟩

/-! ## The conversion to `float` -/

/-- The fields of a `float` do not overlap. -/
theorem fields_eq {sign exponent mantissa : Nat} (hexponent : exponent < 2 ^ 8)
    (hmantissa : mantissa < 2 ^ 23) :
    sign <<< 31 ||| exponent <<< 23 ||| mantissa = sign * 2 ^ 31 + (exponent * 2 ^ 23 + mantissa) := by
  have hlow : exponent * 2 ^ 23 + mantissa < 2 ^ 31 := by omega
  rw [Nat.or_assoc, ← Nat.shiftLeft_add_eq_or_of_lt hmantissa, Nat.shiftLeft_eq exponent,
    ← Nat.shiftLeft_add_eq_or_of_lt hlow, Nat.shiftLeft_eq]

/-- The loop shifts until the leading bit is the one that a `float` does not store. -/
theorem exists_normalize {fuel mantissa exponent : Nat} (hlt : mantissa < 2 ^ 23)
    (hfuel : 2 ^ 23 ≤ mantissa * 2 ^ fuel) :
    ∃ k, 0 < k ∧ 2 ^ 23 ≤ mantissa * 2 ^ k ∧ mantissa * 2 ^ k < 2 ^ 24 ∧
      normalize fuel mantissa exponent = some (mantissa * 2 ^ k, exponent - k) := by
  induction fuel generalizing mantissa exponent with
  | zero => omega
  | succ fuel ih =>
      have hbit : mantissa &&& 0x400000 = mantissa / 2 ^ 22 * 2 ^ 22 := by
        have hand := Nat.and_two_pow mantissa 22
        rw [Nat.testBit_eq_decide_div_mod_eq] at hand
        obtain h | h : mantissa / 2 ^ 22 = 0 ∨ mantissa / 2 ^ 22 = 1 := by omega
        · rw [h] at hand ⊢
          exact hand
        · rw [h] at hand ⊢
          exact hand
      rw [normalize]
      simp only [hbit, Nat.shiftLeft_eq, pow_one]
      by_cases hlow : mantissa < 2 ^ 22
      · have hrest : 2 ^ 23 ≤ mantissa * 2 * 2 ^ fuel := by
          rw [Nat.mul_assoc, ← pow_succ']
          exact hfuel
        obtain ⟨k, hk, hge, hless, hrun⟩ := @ih (mantissa * 2) (exponent - 1) (by omega) hrest
        rw [Nat.mul_assoc, ← pow_succ'] at hge hless hrun
        refine ⟨k + 1, Nat.succ_pos k, hge, hless, ?_⟩
        rw [if_pos (by omega), hrun, Nat.sub_sub, Nat.add_comm 1 k]
      · refine ⟨1, Nat.one_pos, by omega, by omega, ?_⟩
        rw [if_neg (by omega), pow_one]

/-- The value of a number without an exponent after it is normalized. -/
theorem value_of_normalized {k : Nat} (hm : m < 2 ^ c.mantissaBits) (hk : k ≤ c.exponentOffset)
    (hge : 2 ^ 23 ≤ m * 2 ^ c.shift * 2 ^ k) (hlt : m * 2 ^ c.shift * 2 ^ k < 2 ^ 24) :
    magnitude 23 ((c.exponentOffset + 1 - k) * 2 ^ 23 + m * 2 ^ c.shift * 2 ^ k % 2 ^ 23) =
      c.value m := by
  have hmod : m * 2 ^ c.shift * 2 ^ k = 2 ^ 23 + m * 2 ^ c.shift * 2 ^ k % 2 ^ 23 := by omega
  have hexponent : c.exponentOffset + 1 - k - 1 + k = c.exponentOffset := by omega
  rw [magnitude_mul_add (by omega) (Nat.mod_lt _ (Nat.two_pow_pos 23)), ← hmod, value,
    magnitude_of_lt hm]
  calc m * 2 ^ c.shift * 2 ^ k * 2 ^ (c.exponentOffset + 1 - k - 1)
      = m * 2 ^ c.shift * 2 ^ (c.exponentOffset + 1 - k - 1 + k) := by
        rw [pow_add]
        ring
    _ = m * 2 ^ (c.exponentOffset + c.shift) := by
        rw [hexponent, pow_add]
        ring

/-- A shifted mantissa fits that of a `float`. -/
theorem mantissa_shift_lt (hm : m < 2 ^ c.mantissaBits) : m * 2 ^ c.shift < 2 ^ 23 := by
  rw [← c.two_pow_mantissa]
  exact (Nat.mul_lt_mul_right (Nat.two_pow_pos _)).mpr hm

/-- The value of a number that has an exponent. -/
theorem value_of_exponent {e : Nat} (he : 0 < e) (hm : m < 2 ^ c.mantissaBits) :
    magnitude 23 ((e + c.exponentOffset) * 2 ^ 23 + m * 2 ^ c.shift) =
      c.value (e * 2 ^ c.mantissaBits + m) := by
  have hshifted := c.mantissa_shift_lt hm
  have hexponent : e + c.exponentOffset - 1 = (e - 1) + c.exponentOffset := by omega
  rw [magnitude_mul_add (by omega) hshifted, value, magnitude_mul_add he hm, hexponent,
    ← c.two_pow_mantissa, pow_add, pow_add]
  ring

/-- A `float` stands for what its fields do. -/
theorem widens_of_fields {t : Nat} (hs : s < 2) (ht : t < 2 ^ 31)
    (hnan : c.infinity < b % 2 ^ c.signBit → 0x7f800000 < t)
    (hsign : b % 2 ^ c.signBit ≤ c.infinity → s = b / 2 ^ c.signBit)
    (hinfinite : b % 2 ^ c.signBit = c.infinity → t = 0x7f800000)
    (hfinite : b % 2 ^ c.signBit < c.infinity →
      t < 0x7f800000 ∧ magnitude 23 t = c.value (b % 2 ^ c.signBit)) :
    c.Widens b (s * 2 ^ 31 + t) := by
  have hlow : (s * 2 ^ 31 + t) % 2 ^ 31 = t := Nat.mul_add_mod_of_lt ht
  have hhigh : (s * 2 ^ 31 + t) / 2 ^ 31 = s := mul_add_div_of_lt ht
  exact ⟨by omega, by rwa [hlow], by rwa [hhigh], by rwa [hlow], by rwa [hlow]⟩

/-- What the conversion returns in terms of the sign, the exponent and the mantissa. -/
theorem toFloat_eq {e : Nat} (hs : s < 2) (he : e ≤ c.exponentMask) (hm : m < 2 ^ c.mantissaBits)
    (hb : b = s * 2 ^ c.signBit + (e * 2 ^ c.mantissaBits + m)) :
    c.toFloat b =
      if e = c.exponentMask then
        some (if m ≠ 0 then 0 * 2 ^ 31 + (0xff * 2 ^ 23 + 0x7fffff)
          else s * 2 ^ 31 + (0xff * 2 ^ 23 + 0))
      else if e = 0 then
        if m ≠ 0 then
          (normalize 23 (m * 2 ^ c.shift) c.denormExponent).map fun (mantissa, exponent) =>
            s <<< 31 ||| exponent <<< 23 ||| mantissa % 2 ^ 23
        else some (s * 2 ^ 31 + 0)
      else some (s * 2 ^ 31 + ((e + c.exponentOffset) * 2 ^ 23 + m * 2 ^ c.shift)) := by
  have hwidth : 2 ^ c.signBit = 2 ^ (c.signBit - c.mantissaBits) * 2 ^ c.mantissaBits := by
    rw [← pow_add, Nat.sub_add_cancel c.mantissaBits_lt.le]
  have hexponent : e < 2 ^ (c.signBit - c.mantissaBits) := by
    have hmask := c.exponentMask_eq
    have hpos := Nat.two_pow_pos (c.signBit - c.mantissaBits)
    omega
  have hlow : e * 2 ^ c.mantissaBits + m < 2 ^ c.signBit := by
    calc e * 2 ^ c.mantissaBits + m < (e + 1) * 2 ^ c.mantissaBits := by
          rw [Nat.add_mul, Nat.one_mul]
          exact Nat.add_lt_add_left hm _
      _ ≤ 2 ^ c.signBit := by
          rw [hwidth]
          exact Nat.mul_le_mul_right _ hexponent
  have hsign : (b >>> c.signBit) &&& 1 = s := by
    rw [hb, Nat.shiftRight_eq_div_pow, mul_add_div_of_lt hlow, Nat.and_one_is_mod,
      Nat.mod_eq_of_lt hs]
  have hfields : b = (s * 2 ^ (c.signBit - c.mantissaBits) + e) * 2 ^ c.mantissaBits + m := by
    rw [hb, hwidth]
    ring
  have hmiddle : (b >>> c.mantissaBits) &&& c.exponentMask = e := by
    rw [hfields, Nat.shiftRight_eq_div_pow, mul_add_div_of_lt hm, c.exponentMask_eq,
      Nat.and_two_pow_sub_one_eq_mod, Nat.mul_add_mod_of_lt hexponent]
  have hmantissa : b &&& c.mantissaMask = m := by
    rw [hfields, c.mantissaMask_eq, Nat.and_two_pow_sub_one_eq_mod, Nat.mul_add_mod_of_lt hm]
  have hshifted := c.mantissa_shift_lt hm
  have hzero : m * 2 ^ c.shift ≠ 0 ↔ m ≠ 0 := by
    rw [Nat.mul_ne_zero_iff, and_iff_left (Nat.two_pow_pos _).ne']
  have hlast : 0x7fffff = 2 ^ 23 - 1 := rfl
  unfold toFloat
  rw [hsign, hmiddle, hmantissa]
  simp only [Nat.shiftLeft_eq m, hzero, hlast, Nat.and_two_pow_sub_one_eq_mod]
  by_cases hall : e = c.exponentMask
  · rw [if_pos hall, if_pos hall]
    by_cases hm0 : m ≠ 0
    · rw [if_pos hm0, if_pos hm0, fields_eq (by omega) (by omega)]
    · rw [if_neg hm0, if_neg hm0, fields_eq (by omega) (by omega)]
  rw [if_neg hall, if_neg hall]
  by_cases hnone : e = 0
  · rw [if_pos hnone, if_pos hnone]
    by_cases hm0 : m ≠ 0
    · rw [if_pos hm0, if_pos hm0]
    · rw [if_neg hm0, if_neg hm0, hnone, not_not.mp hm0, Nat.zero_mul,
        fields_eq (by omega) (by omega), Nat.zero_mul]
  · have hbound := c.exponent_le
    rw [if_neg hnone, if_neg hnone, fields_eq (by omega) hshifted]

/-- Numbers without an exponent are normalized. -/
theorem denorm_widens (hs : s < 2) (hsign : s = b / 2 ^ c.signBit) (hm0 : m ≠ 0)
    (hm : m < 2 ^ c.mantissaBits) (hb : b % 2 ^ c.signBit = m) (hinfinity : m < c.infinity) :
    ∃ x, (normalize 23 (m * 2 ^ c.shift) c.denormExponent).map (fun (mantissa, exponent) =>
      s <<< 31 ||| exponent <<< 23 ||| mantissa % 2 ^ 23) = some x ∧ c.Widens b x := by
  have hshifted := c.mantissa_shift_lt hm
  have hfuel : 2 ^ 23 ≤ m * 2 ^ c.shift * 2 ^ 23 :=
    Nat.le_mul_of_pos_left _ (Nat.mul_pos (Nat.pos_of_ne_zero hm0) (Nat.two_pow_pos _))
  obtain ⟨k, hk, hge, hlt, hrun⟩ := @exists_normalize 23 _ c.denormExponent hshifted hfuel
  have hbound : k ≤ c.exponentOffset := by
    -- the loop stops before it has shifted the mantissa out
    have hpow : 2 ^ (c.shift + k) < 2 ^ 24 := by
      refine Nat.lt_of_le_of_lt ?_ hlt
      rw [pow_add, Nat.mul_assoc]
      exact Nat.le_mul_of_pos_left _ (Nat.pos_of_ne_zero hm0)
    have hless := (Nat.pow_lt_pow_iff_right Nat.one_lt_two).mp hpow
    have hbits := c.mantissaBits_add_shift
    have hoffset := c.mantissaBits_le_offset
    omega
  have hvalue := c.value_of_normalized hm hbound hge hlt
  have hexponent := c.exponent_le
  have hmask := c.exponentMask_pos
  have hmod : m * 2 ^ c.shift * 2 ^ k % 2 ^ 23 < 2 ^ 23 := Nat.mod_lt _ (Nat.two_pow_pos 23)
  rw [hrun, c.denormExponent_eq, Option.map_some]
  refine ⟨_, congrArg some (fields_eq (by omega) hmod), c.widens_of_fields hs (by omega) (fun h => by omega) (fun _ => hsign)
    (fun h => by omega) fun _ => ⟨by omega, hb ▸ hvalue⟩⟩

/-- A conversion to `float` keeps the sign and the value of every number. -/
theorem toFloat_widens (hb : b < 2 ^ (c.signBit + 1)) :
    ∃ x, c.toFloat b = some x ∧ c.Widens b x := by
  obtain ⟨s, n, hs, hn, hsign, hlow⟩ : ∃ s n, s < 2 ∧ n < 2 ^ c.signBit ∧
      s = b / 2 ^ c.signBit ∧ n = b % 2 ^ c.signBit :=
    ⟨_, _, (Nat.div_lt_iff_lt_mul (Nat.two_pow_pos _)).mpr (pow_succ' 2 c.signBit ▸ hb),
      Nat.mod_lt b (Nat.two_pow_pos _), rfl, rfl⟩
  obtain ⟨e, m, hm, hfields⟩ : ∃ e m, m < 2 ^ c.mantissaBits ∧ n = e * 2 ^ c.mantissaBits + m :=
    ⟨_, _, Nat.mod_lt n (Nat.two_pow_pos _), (Nat.div_add_mod' n _).symm⟩
  have he : e ≤ c.exponentMask := by
    have hwidth : 2 ^ c.signBit = (c.exponentMask + 1) * 2 ^ c.mantissaBits := by
      rw [c.exponentMask_eq, Nat.sub_add_cancel (Nat.two_pow_pos _), ← pow_add,
        Nat.sub_add_cancel c.mantissaBits_lt.le]
    refine Nat.le_of_lt_succ (Nat.lt_of_mul_lt_mul_right (a := 2 ^ c.mantissaBits) ?_)
    calc e * 2 ^ c.mantissaBits ≤ n := hfields ▸ Nat.le_add_right _ _
      _ < (c.exponentMask + 1) * 2 ^ c.mantissaBits := hwidth ▸ hn
  have hmask := c.exponentMask_pos
  have hinfinity := c.infinity_eq
  have hexponent := c.exponent_le
  have hdigits : b = s * 2 ^ c.signBit + (e * 2 ^ c.mantissaBits + m) := by
    rw [hsign, ← hfields, hlow, Nat.div_add_mod']
  rw [c.toFloat_eq hs he hm hdigits]
  by_cases hall : e = c.exponentMask
  · rw [if_pos hall]
    rw [hall, ← hinfinity] at hfields
    by_cases hm0 : m ≠ 0
    · rw [if_pos hm0]
      exact ⟨_, rfl, c.widens_of_fields (by omega) (by omega) (by omega) (by omega) (by omega)
        (by omega)⟩
    · rw [if_neg hm0]
      exact ⟨_, rfl, c.widens_of_fields hs (by omega) (by omega) (fun _ => hsign) (by omega)
        (by omega)⟩
  have hless : e * 2 ^ c.mantissaBits + m < c.infinity := by
    rw [hinfinity]
    calc e * 2 ^ c.mantissaBits + m < (e + 1) * 2 ^ c.mantissaBits := by
          rw [Nat.add_mul, Nat.one_mul]
          exact Nat.add_lt_add_left hm _
      _ ≤ c.exponentMask * 2 ^ c.mantissaBits :=
          Nat.mul_le_mul_right _ (Nat.lt_of_le_of_ne he hall)
  rw [if_neg hall]
  by_cases hnone : e = 0
  · rw [hnone, Nat.zero_mul, Nat.zero_add] at hfields
    rw [if_pos hnone]
    by_cases hm0 : m ≠ 0
    · rw [if_pos hm0]
      exact c.denorm_widens hs hsign hm0 hm (by omega) (by omega)
    · have hzero : b % 2 ^ c.signBit = 0 := by omega
      have hnumber : magnitude 23 0 = c.value (b % 2 ^ c.signBit) := by
        rw [hzero, value_zero, magnitude_zero]
      rw [if_neg hm0]
      exact ⟨_, rfl, c.widens_of_fields (t := 0) hs (by omega) (by omega) (fun _ => hsign)
        (by omega) fun _ => ⟨by omega, hnumber⟩⟩
  · rw [if_neg hnone]
    have hshifted := c.mantissa_shift_lt hm
    refine ⟨_, rfl, c.widens_of_fields hs (by omega) (by omega) (fun _ => hsign) (by omega)
      fun _ => ⟨by omega, ?_⟩⟩
    rw [← hlow, hfields, c.value_of_exponent (Nat.pos_of_ne_zero hnone) hm]

/-- Bits that stand for a number come back from `float`. -/
theorem Narrows.eq_of_widens {c : SmallFloat} {b' : Nat} (hnan : b % 2 ^ c.signBit ≤ c.infinity)
    (hwidens : c.Widens b x) (hnarrows : c.Narrows x b') : b' = b := by
  have hsign : b' / 2 ^ c.signBit = b / 2 ^ c.signBit := by
    rw [hnarrows.sign, hwidens.sign hnan]
    rcases Nat.lt_or_ge (b % 2 ^ c.signBit) c.infinity with h | h
    · exact (hwidens.finite h).1.le
    · exact (hwidens.infinite (hnan.antisymm h)).le
  have hlow : b' % 2 ^ c.signBit = b % 2 ^ c.signBit := by
    rcases Nat.lt_or_ge (b % 2 ^ c.signBit) c.infinity with h | h
    · obtain ⟨hfinite, hvalue⟩ := hwidens.finite h
      obtain ⟨n, hn, hb'⟩ := hnarrows.finite hfinite
      rw [hvalue] at hn
      rw [hb', hn.unique c.value_strictMono (nearestEven_self c.value_strictMono _),
        min_eq_left h.le]
    · have hinfinite := hnan.antisymm h
      rw [hnarrows.infinite (hwidens.infinite hinfinite), hinfinite]
  rw [← Nat.div_add_mod' b' (2 ^ c.signBit), hsign, hlow, Nat.div_add_mod']

end SmallFloat

end Types
end LibND4J
