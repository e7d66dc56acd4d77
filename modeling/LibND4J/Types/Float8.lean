import LibND4J.Types.SmallFloat

/-!
# Quarter precision

`cpu_quarter2float` and `cpu_float2quarter_rn` convert between `float` and eight
bits: a sign, three bits of exponent and four of mantissa.  The conversion from `float` keeps
the two bounds of half precision, which do not fit the smaller range of exponents.

Main results:

- Theorem `fromFloat_eq_none`: below the range the shift is as wide as the type.
- Theorem `rounded_bounds`: above the range the exponent runs into the sign.
- Theorem `quarter_conversions`: which `float` is converted right, and that every number
  comes back.
-/

namespace LibND4J
namespace Types

open BinaryFormat

/-- The constants of the two conversions. -/
def quarter : SmallFloat where
  mantissaBits := 4
  mantissaMask := 0xf
  exponentMask := 0x7
  signBit := 7
  shift := 19
  exponentOffset := 0x7c
  denormExponent := 0x7d
  denormShift := 0x90
  signShift := 24
  signMask := 0x80
  nan := 0x7f
  infinity := 0x70
  mantissaBits_pos := Nat.succ_pos 3
  shift_pos := by decide
  mantissaBits_add_shift := rfl
  mantissaBits_lt := by decide
  mantissaMask_eq := rfl
  exponentMask_eq := rfl
  mantissaBits_le_offset := by decide
  exponent_le := by decide
  least_le := by decide
  denormExponent_eq := rfl
  denormShift_eq := rfl
  signShift_add_signBit := rfl
  signMask_eq := rfl
  infinity_eq := rfl
  infinity_lt_nan := by decide
  nan_lt := by decide

/-- `cpu_quarter2float`; `none` if the loop does not end in time. -/
def cpu_quarter2float (b : BitVec 8) : Option (BitVec 32) :=
  (quarter.toFloat b.toNat).map (BitVec.ofNat 32)

/-- `cpu_float2quarter_rn`; `none` where a shift is undefined. -/
def cpu_float2quarter_rn (f : BitVec 32) : Option (BitVec 8) :=
  (quarter.fromFloat f.toNat).map (BitVec.ofNat 8)

/-- The bits of a `float` that is in the range of the conversion: zero and what is as close to it
as half of the least half precision number, from `2 ^ -14` to `16.5`, from the largest half precision
number on, and the negative numbers whose exponent puts its last bits where an infinity has its own. -/
def InRange (x : BitVec 32) : Prop :=
  let u := x.toNat % 2 ^ 31
  u ≤ 0x33000000 ∨ (0x38800000 ≤ u ∧ u ≤ 0x41840000) ∨ 0x477fefff < u ∨
    (x.toNat / 2 ^ 31 = 1 ∧ 0x457c0000 ≤ u ∧ u ≤ 0x45840000)

variable {u : Nat} {x : BitVec 32}

/-- Up to a little more than the place of infinity rounding does not go past it. -/
theorem rounded_le (hu : u ≤ 0x41840000) : quarter.rounded u ≤ quarter.infinity := by
  rcases Nat.lt_or_ge quarter.exponentOffset (u / 2 ^ 23) with hlarge | hsmall
  · obtain ⟨n, up, hrounded, hn, hup⟩ := quarter.exists_rounded hlarge
    rw [hrounded]
    simp only [quarter] at hlarge hn hup ⊢
    omega
  · exact (quarter.rounded_le_of_denorm hsmall).trans (by decide)

/-- Above the range the exponent runs into the sign; it looks like that of a negative infinity
for an interval of numbers. -/
theorem rounded_bounds (hlow : 0x41840000 < u) (hhigh : u ≤ 0x477fefff) :
    quarter.infinity < quarter.rounded u ∧ quarter.rounded u < 0x131 ∧
      (quarter.rounded u = 0xf0 ↔ 0x457c0000 ≤ u ∧ u ≤ 0x45840000) := by
  obtain ⟨n, up, hrounded, hn, hup⟩ := quarter.exists_rounded (u := u) (by
    simp only [quarter]
    omega)
  rw [hrounded]
  simp only [quarter] at hn hup ⊢
  omega

theorem infinity_le_rounded (hu : 0x477fefff < u) : quarter.infinity ≤ quarter.rounded u := by
  obtain ⟨n, up, hrounded, hn, hup⟩ := quarter.exists_rounded (u := u) (by
    simp only [quarter]
    omega)
  rw [hrounded]
  simp only [quarter] at hn hup ⊢
  omega

/-- In the range the conversion is right, apart from what only looks like an infinity. -/
theorem exists_float2quarter (hx : x.toNat % 2 ^ 31 ≤ 0x33000000 ∨
      (0x38800000 ≤ x.toNat % 2 ^ 31 ∧ x.toNat % 2 ^ 31 ≤ 0x41840000) ∨
      0x477fefff < x.toNat % 2 ^ 31) :
    ∃ b, cpu_float2quarter_rn x = some b ∧ quarter.Narrows x.toNat b.toNat := by
  have hdefined : 0x33000001 ≤ x.toNat % 2 ^ 31 →
      x.toNat % 2 ^ 31 / 2 ^ 23 ≤ quarter.exponentOffset →
        quarter.denormShift - x.toNat % 2 ^ 31 / 2 ^ 23 < 32 := by
    intro hlow _
    simp only [quarter]
    omega
  have hfits : 0x33000001 ≤ x.toNat % 2 ^ 31 → x.toNat % 2 ^ 31 ≤ 0x477fefff →
      quarter.rounded (x.toNat % 2 ^ 31) ≤ quarter.infinity := fun _ _ =>
    rounded_le (by omega)
  obtain ⟨b, hb, hlt, hnarrows⟩ := quarter.fromFloat_narrows x.isLt hdefined infinity_le_rounded
    hfits
  refine ⟨BitVec.ofNat 8 b, congrArg (Option.map _) hb, ?_⟩
  rw [BitVec.toNat_ofNat, Nat.mod_eq_of_lt]
  · exact hnarrows
  · exact hlt

/-- Below the range the shift is as wide as the type. -/
theorem fromFloat_eq_none (hlow : 0x33000000 < x.toNat % 2 ^ 31)
    (hhigh : x.toNat % 2 ^ 31 < 0x38800000) : cpu_float2quarter_rn x = none := by
  have hnone : quarter.fromFloat x.toNat = none := by
    rw [quarter.fromFloat_eq x.isLt, if_neg (by omega), if_neg (by omega), if_neg (by omega),
      if_pos]
    simp only [quarter]
    omega
  rw [cpu_float2quarter_rn, hnone, Option.map_none]

/-- What the conversion returns where it rounds. -/
theorem float2quarter_eq_some (hlow : 0x41840000 < x.toNat % 2 ^ 31)
    (hhigh : x.toNat % 2 ^ 31 ≤ 0x477fefff) : cpu_float2quarter_rn x =
      some (BitVec.ofNat 8 (x.toNat / 2 ^ 31 * 2 ^ 7 ||| quarter.rounded (x.toNat % 2 ^ 31))) := by
  have hsome : quarter.fromFloat x.toNat =
      some (x.toNat / 2 ^ 31 * 2 ^ quarter.signBit ||| quarter.rounded (x.toNat % 2 ^ 31)) := by
    rw [quarter.fromFloat_eq x.isLt, if_neg (by omega), if_neg (by omega), if_neg (by omega),
      if_neg]
    simp only [quarter]
    omega
  rw [cpu_float2quarter_rn, hsome]
  rfl

/-- A pattern that is cut to eight bits is an infinity of the same sign only for one exponent. -/
theorem infinity_iff_of_overflow {s n : Nat} (hs : s < 2) (hlow : 0x70 < n) (hhigh : n < 0x131) :
    ((s * 2 ^ 7 ||| n) % 2 ^ 8 / 2 ^ 7 = s ∧ (s * 2 ^ 7 ||| n) % 2 ^ 8 % 2 ^ 7 = 0x70) ↔
      s = 1 ∧ n = 0xf0 := by
  have hall : ∀ s < 2, ∀ n < 0x131, 0x70 < n →
      (((s * 2 ^ 7 ||| n) % 2 ^ 8 / 2 ^ 7 = s ∧ (s * 2 ^ 7 ||| n) % 2 ^ 8 % 2 ^ 7 = 0x70) ↔
        s = 1 ∧ n = 0xf0) := by
    decide +kernel
  exact hall s hs n hhigh hlow

/-- Above the range the result is right only if it looks like an infinity of the same sign. -/
theorem narrows_above_iff (hlow : 0x41840000 < x.toNat % 2 ^ 31)
    (hhigh : x.toNat % 2 ^ 31 ≤ 0x477fefff) :
    (∃ b, cpu_float2quarter_rn x = some b ∧ quarter.Narrows x.toNat b.toNat) ↔
      x.toNat / 2 ^ 31 = 1 ∧ 0x457c0000 ≤ x.toNat % 2 ^ 31 ∧ x.toNat % 2 ^ 31 ≤ 0x45840000 := by
  obtain ⟨habove, hbelow, hpattern⟩ := rounded_bounds hlow hhigh
  have hround := quarter.nearestEven_rounded (u := x.toNat % 2 ^ 31) (by omega)
  have hs : x.toNat / 2 ^ 31 < 2 := by
    have hx := x.isLt
    omega
  have hinfinity := infinity_iff_of_overflow hs habove hbelow
  rw [float2quarter_eq_some hlow hhigh, ← hpattern, ← hinfinity]
  constructor
  · rintro ⟨b, hb, hnarrows⟩
    obtain ⟨n, hn, hlast⟩ := hnarrows.finite (by omega)
    have hsign := hnarrows.sign (by omega)
    rw [hn.unique quarter.value_strictMono hround, min_eq_right habove.le] at hlast
    rw [← Option.some.inj hb, BitVec.toNat_ofNat] at hsign hlast
    exact ⟨hsign, hlast⟩
  · rintro ⟨hsign, hlast⟩
    refine ⟨_, rfl, quarter.narrows_of_nearestEven (by omega) hround ?_ ?_⟩
    · rw [BitVec.toNat_ofNat]
      exact hsign
    · rw [BitVec.toNat_ofNat, min_eq_right habove.le]
      exact hlast

/-- Which bits of a `float` are converted right. -/
theorem exists_narrows_iff (x : BitVec 32) :
    (∃ b, cpu_float2quarter_rn x = some b ∧ quarter.Narrows x.toNat b.toNat) ↔ InRange x := by
  unfold InRange
  by_cases habove : 0x41840000 < x.toNat % 2 ^ 31 ∧ x.toNat % 2 ^ 31 ≤ 0x477fefff
  · rw [narrows_above_iff habove.1 habove.2]
    omega
  by_cases hbelow : 0x33000000 < x.toNat % 2 ^ 31 ∧ x.toNat % 2 ^ 31 < 0x38800000
  · rw [fromFloat_eq_none hbelow.1 hbelow.2]
    constructor
    · rintro ⟨b, hb, -⟩
      cases hb
    · intro h
      omega
  · refine iff_of_true (exists_float2quarter (by omega)) (by omega)

/-- Every number keeps its value as a `float`. -/
theorem exists_quarter2float (b : BitVec 8) :
    ∃ x, cpu_quarter2float b = some x ∧ quarter.Widens b.toNat x.toNat := by
  obtain ⟨x, hx, hwidens⟩ := quarter.toFloat_widens b.isLt
  refine ⟨BitVec.ofNat 32 x, congrArg (Option.map _) hx, ?_⟩
  rwa [BitVec.toNat_ofNat, Nat.mod_eq_of_lt hwidens.lt]

/-- A number of eight bits is in the range as a `float`. -/
theorem inRange_of_widens {b : BitVec 8} (h : quarter.Widens b.toNat x.toNat) :
    x.toNat % 2 ^ 31 ≤ 0x33000000 ∨
      (0x38800000 ≤ x.toNat % 2 ^ 31 ∧ x.toNat % 2 ^ 31 ≤ 0x41840000) ∨
      0x477fefff < x.toNat % 2 ^ 31 := by
  rcases Nat.lt_trichotomy (b.toNat % 2 ^ quarter.signBit) quarter.infinity with hlt | heq | hgt
  · obtain ⟨-, hvalue⟩ := h.finite hlt
    have hmono := magnitude_strictMono 23
    have hlast : quarter.value (b.toNat % 2 ^ quarter.signBit) ≤ magnitude 23 0x41840000 :=
      (quarter.value_strictMono.monotone (Nat.le_of_lt_succ hlt : _ ≤ 0x6f)).trans (by decide +kernel)
    have hhigh := hmono.le_iff_le.mp (hvalue.trans_le hlast)
    rcases Nat.eq_zero_or_pos (b.toNat % 2 ^ quarter.signBit) with hzero | hpos
    · rw [hzero, quarter.value_zero, ← magnitude_zero 23] at hvalue
      have hnone := hmono.injective hvalue
      omega
    · have hfirst : magnitude 23 0x38800000 ≤ quarter.value (b.toNat % 2 ^ quarter.signBit) :=
        le_trans (by decide +kernel) (quarter.value_strictMono.monotone hpos)
      have hleast := hmono.le_iff_le.mp (hfirst.trans_eq hvalue.symm)
      exact Or.inr (Or.inl ⟨hleast, hhigh⟩)
  · have hinfinite := h.infinite heq
    omega
  · have hnan := h.nan hgt
    omega

/-- The conversion from `float` is right in its range; every number comes back from `float`, and
NaN comes back as NaN. -/
theorem quarter_conversions (x : BitVec 32) (b : BitVec 8) :
    ((∃ b', cpu_float2quarter_rn x = some b' ∧ quarter.Narrows x.toNat b'.toNat) ↔ InRange x) ∧
    ∃ y b', cpu_quarter2float b = some y ∧ quarter.Widens b.toNat y.toNat ∧
      cpu_float2quarter_rn y = some b' ∧
      if b.toNat % 2 ^ 7 ≤ 0x70 then b' = b else 0x70 < b'.toNat % 2 ^ 7 := by
  refine ⟨exists_narrows_iff x, ?_⟩
  obtain ⟨y, hy, hwidens⟩ := exists_quarter2float b
  obtain ⟨b', hb', hnarrows⟩ := exists_float2quarter (inRange_of_widens hwidens)
  refine ⟨y, b', hy, hwidens, hb', ?_⟩
  split
  · exact BitVec.eq_of_toNat_eq (hnarrows.eq_of_widens ‹_› hwidens)
  · exact hnarrows.nan (hwidens.nan (not_le.mp ‹_›))

/-- The conversion from `float` makes 17 a NaN instead of an infinity. -/
theorem not_narrows_always :
    ¬ ∀ x : BitVec 32, ∃ b, cpu_float2quarter_rn x = some b ∧ quarter.Narrows x.toNat b.toNat := by
  intro h
  obtain ⟨b, hb, hnarrows⟩ := h 0x41880000#32
  have hnan : cpu_float2quarter_rn 0x41880000#32 = some 0x71#8 := by decide
  rw [hnan, Option.some.injEq] at hb
  obtain ⟨n, -, hlast⟩ := hnarrows.finite (by decide)
  rw [← hb] at hlast
  exact absurd (hlast.trans_le (min_le_right n _)) (by decide)

end Types
end LibND4J
