import LibND4J.Types.SmallFloat

/-!
# Half precision

`cpu_ihalf2float` and `cpu_float2ihalf_rn` convert between `float` and the sixteen
bits of a half precision number: a sign, five bits of exponent and ten of mantissa.

Main results:

- Theorem `infinity_le_rounded_iff`: the upper bound is where rounding reaches infinity.
- Theorem `half_conversions`: every `float` is rounded to nearest even, and every number
  comes back.
-/

namespace LibND4J
namespace Types

/-- The constants of the two conversions. -/
def half : SmallFloat where
  mantissaBits := 10
  mantissaMask := 0x3ff
  exponentMask := 0x1f
  signBit := 15
  shift := 13
  exponentOffset := 0x70
  denormExponent := 0x71
  denormShift := 0x7e
  signShift := 16
  signMask := 0x8000
  nan := 0x7fff
  infinity := 0x7c00
  mantissaBits_pos := by decide
  shift_pos := by decide
  mantissaBits_add_shift := rfl
  mantissaBits_lt := by decide
  mantissaMask_eq := rfl
  exponentMask_eq := rfl
  mantissaBits_le_offset := by decide
  exponent_le := by decide
  least_le := by decide
  denormExponent_eq := rfl
  denormShift_eq := rfl
  signShift_add_signBit := rfl
  signMask_eq := rfl
  infinity_eq := rfl
  infinity_lt_nan := by decide
  nan_lt := by decide

/-- `cpu_ihalf2float`; `none` if the loop does not end in time. -/
def cpu_ihalf2float (h : BitVec 16) : Option (BitVec 32) :=
  (half.toFloat h.toNat).map (BitVec.ofNat 32)

/-- `cpu_float2ihalf_rn`; `none` where a shift is undefined. -/
def cpu_float2ihalf_rn (f : BitVec 32) : Option (BitVec 16) :=
  (half.fromFloat f.toNat).map (BitVec.ofNat 16)

/-- The upper bound is where rounding reaches infinity. -/
theorem infinity_le_rounded_iff {u : Nat} (hu : half.exponentOffset < u / 2 ^ 23) :
    half.infinity ≤ half.rounded u ↔ 0x477fefff < u := by
  obtain ⟨n, up, hrounded, hn, hup⟩ := half.exists_rounded hu
  rw [hrounded]
  simp only [half] at hu hn hup ⊢
  omega

/-- Below the upper bound rounding stays below infinity. -/
theorem rounded_le_infinity {u : Nat} (hu : u ≤ 0x477fefff) : half.rounded u ≤ half.infinity := by
  rcases Nat.lt_or_ge half.exponentOffset (u / 2 ^ 23) with hlarge | hsmall
  · exact (not_le.mp ((infinity_le_rounded_iff hlarge).not.mpr (not_lt.mpr hu))).le
  · exact (half.rounded_le_of_denorm hsmall).trans (by decide)

/-- Every `float` is rounded to the nearest number. -/
theorem exists_float2ihalf (x : BitVec 32) :
    ∃ h, cpu_float2ihalf_rn x = some h ∧ half.Narrows x.toNat h.toNat := by
  have hdefined : 0x33000001 ≤ x.toNat % 2 ^ 31 →
      x.toNat % 2 ^ 31 / 2 ^ 23 ≤ half.exponentOffset →
        half.denormShift - x.toNat % 2 ^ 31 / 2 ^ 23 < 32 := by
    intro hlow _
    simp only [half]
    omega
  have hover : 0x477fefff < x.toNat % 2 ^ 31 → half.infinity ≤ half.rounded (x.toNat % 2 ^ 31) := by
    intro hhigh
    refine (infinity_le_rounded_iff ?_).mpr hhigh
    simp only [half]
    omega
  obtain ⟨b, hb, hlt, hnarrows⟩ := half.fromFloat_narrows x.isLt hdefined hover
    fun _ => rounded_le_infinity
  refine ⟨BitVec.ofNat 16 b, congrArg (Option.map _) hb, ?_⟩
  rw [BitVec.toNat_ofNat, Nat.mod_eq_of_lt]
  · exact hnarrows
  · exact hlt

/-- Every number keeps its value as a `float`. -/
theorem exists_ihalf2float (h : BitVec 16) :
    ∃ x, cpu_ihalf2float h = some x ∧ half.Widens h.toNat x.toNat := by
  obtain ⟨x, hx, hwidens⟩ := half.toFloat_widens h.isLt
  refine ⟨BitVec.ofNat 32 x, congrArg (Option.map _) hx, ?_⟩
  rwa [BitVec.toNat_ofNat, Nat.mod_eq_of_lt hwidens.lt]

/-- The bits that stand for numbers or infinities. -/
def IsNumber (h : BitVec 16) : Prop :=
  h.toNat % 2 ^ half.signBit ≤ half.infinity

instance : DecidablePred IsNumber := fun h =>
  inferInstanceAs (Decidable (h.toNat % 2 ^ half.signBit ≤ half.infinity))

/-- Every `float` is rounded to nearest even, and every number comes back from `float`. -/
theorem half_conversions :
    (∀ x : BitVec 32, ∃ h, cpu_float2ihalf_rn x = some h ∧ half.Narrows x.toNat h.toNat) ∧
    ∀ h : BitVec 16, ∃ x, cpu_ihalf2float h = some x ∧ half.Widens h.toNat x.toNat ∧
      (IsNumber h → cpu_float2ihalf_rn x = some h) := by
  refine ⟨exists_float2ihalf, fun h => ?_⟩
  obtain ⟨x, hx, hwidens⟩ := exists_ihalf2float h
  refine ⟨x, hx, hwidens, fun hnumber => ?_⟩
  obtain ⟨h', hh', hnarrows⟩ := exists_float2ihalf x
  rw [hh', BitVec.eq_of_toNat_eq (hnarrows.eq_of_widens hnumber hwidens)]

theorem half_conversions_one :
    ∃ x, cpu_ihalf2float 0x3c00#16 = some x ∧ cpu_float2ihalf_rn x = some 0x3c00#16 := by
  obtain ⟨x, hx, -, hback⟩ := half_conversions.2 0x3c00#16
  exact ⟨x, hx, hback (by decide)⟩

/-- The largest `float` that does not become infinite, and one halfway between two numbers without
an exponent. -/
example : cpu_float2ihalf_rn 0x477fefff#32 = some 0x7bff#16 ∧
    cpu_float2ihalf_rn 0x33c00000#32 = some 2#16 := by
  decide

end Types
end LibND4J
