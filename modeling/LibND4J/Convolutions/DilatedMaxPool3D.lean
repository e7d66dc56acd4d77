import LibND4J.Library.Accumulation
import LibND4J.Library.FirstBest
import Mathlib.Tactic.Ring

/-!
# Dilated maximum pooling of volumes

`_dilatedMaxPool3D` scans each window for its maximum and records where it is, relative to
the kernel, in three bytes.  `_dilatedMaxPool3D_bp` turns the bytes into a place of the
input.  A window that starts before the input is scanned from its first place inside, with a
kernel that was made smaller by the number of places in front of the input, whatever the
dilation is.

Main results:

- Theorem `DilatedAxis.excess_eq_zero_iff`: when the smaller kernel is the right one.
- Theorem `poolsRight_iff`: the two agree on the first maximum of every window exactly if
  no window is cut off by a dilated step too many, no maximum is lost, and bytes are enough.
-/

namespace LibND4J
namespace Convolutions

open Stores Accumulation FirstBest

/-! ## The loops -/

/-- One axis of the pooling. -/
structure DilatedAxis where
  input : Nat
  output : Nat
  kernel : Nat
  stride : Nat
  padding : Nat
  dilation : Nat
  dilation_pos : 0 < dilation

/-- The loop that moves a start into the input. -/
def liftLoop (dilation : Nat) : Nat → Int → Int
  | 0, start => start
  | fuel + 1, start => if start < 0 then liftLoop dilation fuel (start + dilation) else start

namespace DilatedAxis

/-- `start_t`, before the loop. -/
def start (a : DilatedAxis) (i : Nat) : Int :=
  i * a.stride - a.padding

/-- `kernel_t`. -/
def shrunkKernel (a : DilatedAxis) (i : Nat) : Int :=
  min (a.kernel : Int) (a.kernel + a.start i)

/-- `start_t`, after the loop: every round adds at least one. -/
def liftedStart (a : DilatedAxis) (i : Nat) : Int :=
  liftLoop a.dilation (-a.start i).toNat (a.start i)

end DilatedAxis

/-- The counters `k`, `ti`, `i` and `j`. -/
abbrev Site := Nat × Nat × Nat × Nat

/-- The counters `z`, `y` and `x`. -/
abbrev Tap := Nat × Nat × Nat

section Loops

variable {T : Type} [LinearOrder T] (aT aH aW : DilatedAxis)

/-- The loops over slices and outputs. -/
def sites (nslices : Nat) : List Site :=
  List.range nslices ×ˢ List.range aT.output ×ˢ List.range aH.output ×ˢ List.range aW.output

/-- The element of the output that a site belongs to. -/
def siteIndex (s : Site) : Nat :=
  let (k, ti, i, j) := s
  k * aT.output * aW.output * aH.output + ti * aW.output * aH.output + i * aW.output + j

/-- The element of the input at a place. -/
def placeIndex (k : Nat) (place : Int × Int × Int) : Int :=
  let (t, h, w) := place
  k * aT.input * aW.input * aH.input + t * aH.input * aW.input + h * aW.input + w

/-- The taps that the loops over the smaller kernel look at. -/
def scannedTaps (s : Site) : List Tap :=
  let (_, ti, i, j) := s
  (List.range (aT.shrunkKernel ti).toNat ×ˢ List.range (aH.shrunkKernel i).toNat ×ˢ
      List.range (aW.shrunkKernel j).toNat).filter fun (z, y, x) =>
    aT.liftedStart ti + z * aT.dilation < aT.input ∧
      aH.liftedStart i + y * aH.dilation < aH.input ∧
      aW.liftedStart j + x * aW.dilation < aW.input

/-- The value `val` at a tap, read through the pointer `ip`. -/
def scannedValue (input : Int → T) (s : Site) (tap : Tap) : T :=
  let (k, ti, i, j) := s
  let (z, y, x) := tap
  let ip : Int := k * aT.input * aW.input * aH.input +
    aT.liftedStart ti * aW.input * aH.input + aH.liftedStart i * aW.input + aW.liftedStart j
  input (ip + (z * aT.dilation * aW.input * aH.input + y * aH.dilation * aW.input +
    x * aW.dilation))

/-- `mz`, `my` and `mx` of a tap. -/
def recordedTap (s : Site) (tap : Tap) : Int × Int × Int :=
  let (_, ti, i, j) := s
  let (z, y, x) := tap
  (z + (aT.kernel - aT.shrunkKernel ti), y + (aH.kernel - aH.shrunkKernel i),
    x + (aW.kernel - aW.shrunkKernel j))

/-- `maxval` with `mz`, `my` and `mx` after the loops over a window; `lowest` is
`-MAX_FLOAT`. -/
def poolWindow (lowest : T) (input : Int → T) (s : Site) : T × Int × Int × Int :=
  scan (scannedValue aT aH aW input s) (recordedTap aT aH aW s) (lowest, -1, -1, -1)
    (scannedTaps aT aH aW s)

/-- The output of `_dilatedMaxPool3D`. -/
def dilatedMaxPool3D (nslices : Nat) (lowest : T) (input output : Int → T) : Int → T :=
  storeAll (fun s => (siteIndex aT aH aW s : Int))
    (fun s _ => (poolWindow aT aH aW lowest input s).1) (sites aT aH aW nslices) output

/-- The first three bytes of an element of the indices. -/
abbrev IndexBytes := BitVec 8 × BitVec 8 × BitVec 8

/-- `mz`, `my` and `mx` as bytes. -/
def indexBytes (recorded : Int × Int × Int) : IndexBytes :=
  (BitVec.ofInt 8 recorded.1, BitVec.ofInt 8 recorded.2.1, BitVec.ofInt 8 recorded.2.2)

/-- The indices of `_dilatedMaxPool3D`. -/
def dilatedMaxPool3DIndices (nslices : Nat) (lowest : T) (input : Int → T)
    (indz : Int → IndexBytes) : Int → IndexBytes :=
  storeAll (fun s => (siteIndex aT aH aW s : Int))
    (fun s _ => indexBytes (poolWindow aT aH aW lowest input s).2)
    (sites aT aH aW nslices) indz

/-- `maxti`, `maxi` and `maxj`. -/
def decodedPlace (s : Site) (bytes : IndexBytes) : Int × Int × Int :=
  let (_, ti, i, j) := s
  (bytes.1.toNat * aT.dilation + ti * aT.stride - aT.padding,
    bytes.2.1.toNat * aH.dilation + i * aH.stride - aH.padding,
    bytes.2.2.toNat * aW.dilation + j * aW.stride - aW.padding)

/-- `_dilatedMaxPool3D_bp`. -/
def dilatedMaxPool3DBp {K : Type} [CommRing K] (nslices : Nat) (indz : Int → IndexBytes)
    (gradOutput gradInput : Int → K) : Int → K :=
  let place (s : Site) := decodedPlace aT aH aW s (indz (siteIndex aT aH aW s))
  addAll (fun s => placeIndex aT aH aW s.1 (place s)) (fun s => gradOutput (siteIndex aT aH aW s))
    ((sites aT aH aW nslices).filter fun s => (place s).1 ≠ -1) gradInput

end Loops

/-! ## Windows that start before the input -/

/-- The rounds of the loop that moves a start into the input. -/
def liftRounds (dilation : Nat) (start : Int) : Nat :=
  ((-start).toNat + dilation - 1) / dilation

variable {dilation : Nat} {start : Int}

theorem liftRounds_of_nonneg (hdilation : 0 < dilation) (h : 0 ≤ start) :
    liftRounds dilation start = 0 := by
  rw [liftRounds, Nat.div_eq_zero_iff]
  omega

theorem liftRounds_of_neg (hdilation : 0 < dilation) (h : start < 0) :
    liftRounds dilation start = liftRounds dilation (start + dilation) + 1 := by
  obtain ⟨m, hm⟩ : ∃ m : Nat, -start = m + 1 := ⟨(-start).toNat - 1, by omega⟩
  have hleft : (-start).toNat + dilation - 1 = m + dilation := by omega
  rw [liftRounds, liftRounds, hleft, Nat.add_div_right _ hdilation]
  rcases Nat.lt_or_ge m dilation with hlt | hge
  · have hright : (-(start + dilation)).toNat + dilation - 1 = dilation - 1 := by omega
    rw [hright, Nat.div_eq_of_lt hlt, Nat.div_eq_of_lt (by omega)]
  · have hright : (-(start + dilation)).toNat + dilation - 1 = m := by omega
    rw [hright]

/-- What the loop leaves. -/
theorem liftLoop_eq (hdilation : 0 < dilation) {fuel : Nat} (hfuel : (-start).toNat ≤ fuel) :
    liftLoop dilation fuel start = start + liftRounds dilation start * dilation := by
  induction fuel generalizing start with
  | zero =>
      rw [liftLoop, liftRounds_of_nonneg hdilation (by omega)]
      simp
  | succ fuel ih =>
      rw [liftLoop]
      split
      · rename_i hneg
        rw [ih (by omega), liftRounds_of_neg hdilation hneg]
        push_cast
        ring
      · rename_i hnonneg
        rw [liftRounds_of_nonneg hdilation (by omega)]
        simp

namespace DilatedAxis

/-- The rounds of the loop for a window. -/
def rounds (a : DilatedAxis) (i : Nat) : Nat :=
  liftRounds a.dilation (a.start i)

/-- The places in front of the input that the smaller kernel counts, beyond the rounds. -/
def excess (a : DilatedAxis) (i : Nat) : Nat :=
  (-a.start i).toNat - a.rounds i

variable (a : DilatedAxis) (i : Nat)

theorem liftedStart_eq : a.liftedStart i = a.start i + a.rounds i * a.dilation :=
  liftLoop_eq a.dilation_pos le_rfl

/-- The rounds are the least number that moves the start into the input. -/
theorem nonneg_iff (z : Nat) : 0 ≤ a.start i + z * a.dilation ↔ a.rounds i ≤ z := by
  have hdilation := a.dilation_pos
  rw [rounds, liftRounds, Nat.div_le_iff_le_mul_add_pred hdilation]
  have hcomm : ((z * a.dilation : Nat) : Int) = z * a.dilation := by push_cast; ring
  rw [← hcomm, Nat.mul_comm a.dilation z]
  omega

theorem rounds_le : a.rounds i ≤ (-a.start i).toNat := by
  rw [← a.nonneg_iff]
  have hle : ((-a.start i).toNat : Int) * 1 ≤ (-a.start i).toNat * a.dilation :=
    Int.mul_le_mul_of_nonneg_left (by have := a.dilation_pos; omega) (Int.natCast_nonneg _)
  omega

theorem shrunkKernel_eq : a.shrunkKernel i = a.kernel - ((a.rounds i + a.excess i : Nat) : Int) := by
  have hle := a.rounds_le i
  rw [shrunkKernel, excess]
  omega

/-- When the smaller kernel is the right one. -/
theorem excess_eq_zero_iff : a.excess i = 0 ↔ -1 ≤ a.start i ∨ a.dilation = 1 := by
  have hfront : -1 ≤ a.start i ↔ (-a.start i).toNat ≤ 1 := by omega
  obtain ⟨e, he⟩ : ∃ e, a.dilation = e + 1 :=
    Nat.exists_eq_add_one_of_ne_zero a.dilation_pos.ne'
  rw [excess, rounds, liftRounds, Nat.sub_eq_zero_iff_le,
    Nat.le_div_iff_mul_le a.dilation_pos, hfront, he]
  generalize (-a.start i).toNat = m
  rw [Nat.mul_succ]
  constructor
  · intro h
    by_contra hnot
    have hmul : 2 * e ≤ m * e := Nat.mul_le_mul_right e (by omega)
    omega
  · rintro (hm | hone)
    · have hmul : m * e ≤ 1 * e := Nat.mul_le_mul_right e hm
      omega
    · have hzero : e = 0 := by omega
      rw [hzero]
      omega

/-- The place of a tap is inside the input. -/
def Inside (z : Nat) : Prop :=
  z < a.kernel ∧ 0 ≤ a.start i + z * a.dilation ∧ a.start i + z * a.dilation < a.input

instance (z : Nat) : Decidable (a.Inside i z) :=
  inferInstanceAs (Decidable (_ ∧ _))

/-- A tap that the loop looks at, counted from the first tap inside. -/
def Scanned (z : Nat) : Prop :=
  z < (a.shrunkKernel i).toNat ∧ a.liftedStart i + z * a.dilation < a.input

/-- Scanned taps are inside. -/
theorem inside_of_scanned {z : Nat} (h : a.Scanned i z) : a.Inside i (z + a.rounds i) := by
  obtain ⟨hlt, hinput⟩ := h
  have hstart := a.liftedStart_eq i
  have hshrunk := a.shrunkKernel_eq i
  have hcomm : a.start i + (z + a.rounds i : Nat) * a.dilation =
      a.liftedStart i + z * a.dilation := by
    rw [hstart]
    push_cast
    ring
  refine ⟨by omega, (a.nonneg_iff i _).mpr (Nat.le_add_left _ _), ?_⟩
  rwa [hcomm]

/-- With the right kernel, the taps inside are all scanned. -/
theorem exists_scanned {z : Nat} (hexcess : a.excess i = 0) (h : a.Inside i z) :
    ∃ z', a.Scanned i z' ∧ z' + a.rounds i = z := by
  obtain ⟨hlt, hnonneg, hinput⟩ := h
  have hle := (a.nonneg_iff i z).mp hnonneg
  have hshrunk := a.shrunkKernel_eq i
  have hcomm : a.liftedStart i + (z - a.rounds i : Nat) * a.dilation =
      a.start i + z * a.dilation := by
    rw [a.liftedStart_eq]
    push_cast [Nat.cast_sub hle]
    ring
  refine ⟨z - a.rounds i, ⟨by omega, ?_⟩, by omega⟩
  rwa [hcomm]

end DilatedAxis

/-! ## The maximum of a window -/

section Windows

variable {T : Type} [LinearOrder T] (aT aH aW : DilatedAxis)

/-- The taps of a window that are inside the input. -/
def windowTaps (s : Site) : List Tap :=
  (List.range aT.kernel ×ˢ List.range aH.kernel ×ˢ List.range aW.kernel).filter fun tap =>
    aT.Inside s.2.1 tap.1 ∧ aH.Inside s.2.2.1 tap.2.1 ∧ aW.Inside s.2.2.2 tap.2.2

/-- The place of a tap in the input. -/
def tapPlace (s : Site) (tap : Tap) : Int × Int × Int :=
  (aT.start s.2.1 + tap.1 * aT.dilation, aH.start s.2.2.1 + tap.2.1 * aH.dilation,
    aW.start s.2.2.2 + tap.2.2 * aW.dilation)

def tapValue (input : Int → T) (s : Site) (tap : Tap) : T :=
  input (placeIndex aT aH aW s.1 (tapPlace aT aH aW s tap))

/-- The order of the loops over a window. -/
def tapBefore : Tap → Tap → Prop :=
  Prod.Lex (· < ·) (Prod.Lex (· < ·) (· < ·))

/-- The first maximum over the places of a window that are inside the input. -/
def IsArgmax (input : Int → T) (s : Site) (tap : Tap) : Prop :=
  IsFirstMax tapBefore (windowTaps aT aH aW s) (tapValue aT aH aW input s) tap

/-- A tap as the three numbers that are recorded. -/
def tapInts (tap : Tap) : Int × Int × Int :=
  (tap.1, tap.2.1, tap.2.2)

end Windows

section Sites

variable {T : Type} {aT aH aW : DilatedAxis} {input : Int → T} {lowest : T} {s : Site}

theorem tapBefore_iff {a b : Tap} :
    tapBefore a b ↔
      a.1 < b.1 ∨ a.1 = b.1 ∧ (a.2.1 < b.2.1 ∨ a.2.1 = b.2.1 ∧ a.2.2 < b.2.2) := by
  rw [tapBefore, Prod.lex_def, Prod.lex_def]

theorem tapBefore_asymm (a b : Tap) (h : tapBefore a b) : ¬ tapBefore b a := by
  rw [tapBefore_iff] at *
  omega

theorem tapBefore_total {a b : Tap} (h : a ≠ b) : tapBefore a b ∨ tapBefore b a := by
  rw [tapBefore_iff, tapBefore_iff]
  have hne : ¬ (a.1 = b.1 ∧ a.2.1 = b.2.1 ∧ a.2.2 = b.2.2) :=
    fun heq => h (Prod.ext heq.1 (Prod.ext heq.2.1 heq.2.2))
  omega

variable {tap : Tap}

theorem mem_windowTaps :
    tap ∈ windowTaps aT aH aW s ↔
      aT.Inside s.2.1 tap.1 ∧ aH.Inside s.2.2.1 tap.2.1 ∧ aW.Inside s.2.2.2 tap.2.2 := by
  obtain ⟨z, y, x⟩ := tap
  simp only [windowTaps, List.mem_filter, List.mem_product, List.mem_range, decide_eq_true_eq]
  constructor
  · exact fun h => h.2
  · exact fun h => ⟨⟨h.1.1, h.2.1.1, h.2.2.1⟩, h⟩

theorem mem_scannedTaps :
    tap ∈ scannedTaps aT aH aW s ↔
      aT.Scanned s.2.1 tap.1 ∧ aH.Scanned s.2.2.1 tap.2.1 ∧ aW.Scanned s.2.2.2 tap.2.2 := by
  obtain ⟨z, y, x⟩ := tap
  simp only [scannedTaps, List.mem_filter, List.mem_product, List.mem_range, decide_eq_true_eq,
    DilatedAxis.Scanned]
  tauto

theorem pairwise_scannedTaps : (scannedTaps aT aH aW s).Pairwise tapBefore :=
  (pairwise_product List.pairwise_lt_range
    (pairwise_product List.pairwise_lt_range List.pairwise_lt_range)).filter _

/-- The tap of the window that a scanned tap stands for. -/
def shiftTap (aT aH aW : DilatedAxis) (s : Site) (tap : Tap) : Tap :=
  (tap.1 + aT.rounds s.2.1, tap.2.1 + aH.rounds s.2.2.1, tap.2.2 + aW.rounds s.2.2.2)

theorem shiftTap_mem (h : tap ∈ scannedTaps aT aH aW s) :
    shiftTap aT aH aW s tap ∈ windowTaps aT aH aW s := by
  obtain ⟨hz, hy, hx⟩ := mem_scannedTaps.mp h
  exact mem_windowTaps.mpr
    ⟨aT.inside_of_scanned _ hz, aH.inside_of_scanned _ hy, aW.inside_of_scanned _ hx⟩

/-- The scan reads the value at the tap that a scanned tap stands for. -/
theorem scannedValue_eq (tap : Tap) :
    scannedValue aT aH aW input s tap = tapValue aT aH aW input s (shiftTap aT aH aW s tap) := by
  obtain ⟨k, ti, i, j⟩ := s
  obtain ⟨z, y, x⟩ := tap
  simp only [scannedValue, tapValue, placeIndex, tapPlace, shiftTap, DilatedAxis.liftedStart_eq]
  congr 1
  push_cast
  ring

/-- The numbers that are recorded exceed the tap by the places counted too many. -/
theorem recordedTap_eq (tap : Tap) :
    recordedTap aT aH aW s tap =
      tapInts ((shiftTap aT aH aW s tap).1 + aT.excess s.2.1,
        (shiftTap aT aH aW s tap).2.1 + aH.excess s.2.2.1,
        (shiftTap aT aH aW s tap).2.2 + aW.excess s.2.2.2) := by
  obtain ⟨k, ti, i, j⟩ := s
  obtain ⟨z, y, x⟩ := tap
  simp only [recordedTap, tapInts, shiftTap, DilatedAxis.shrunkKernel_eq, Prod.mk.injEq]
  push_cast
  omega

variable [LinearOrder T]

theorem IsArgmax.unique {t u : Tap} (ht : IsArgmax aT aH aW input s t)
    (hu : IsArgmax aT aH aW input s u) : t = u :=
  IsFirstMax.unique (fun _ _ _ _ hne => tapBefore_total hne) ht hu

/-- One coordinate of a place, from its byte. -/
theorem DilatedAxis.byte_iff (a : DilatedAxis) (i z : Nat) :
    ((BitVec.ofInt 8 z).toNat * a.dilation + i * a.stride - a.padding : Int) =
      a.start i + z * a.dilation ↔ z < 256 := by
  have hbyte : (BitVec.ofInt 8 z).toNat = z % 256 := by
    rw [BitVec.toNat_ofInt]
    omega
  rw [hbyte, DilatedAxis.start]
  constructor
  · intro h
    have hmul : ((z % 256 : Nat) : Int) * a.dilation = z * a.dilation := by omega
    have hdilation := a.dilation_pos
    have heq := Int.eq_of_mul_eq_mul_right (by omega) hmul
    omega
  · intro h
    rw [Nat.mod_eq_of_lt h]
    ring

/-- The bytes of a tap give back its place exactly if the tap fits into bytes. -/
theorem decodedPlace_eq_iff (tap : Tap) :
    decodedPlace aT aH aW s (indexBytes (tapInts tap)) = tapPlace aT aH aW s tap ↔
      tap.1 < 256 ∧ tap.2.1 < 256 ∧ tap.2.2 < 256 := by
  obtain ⟨k, ti, i, j⟩ := s
  obtain ⟨z, y, x⟩ := tap
  simp only [decodedPlace, indexBytes, tapInts, tapPlace, Prod.mk.injEq, DilatedAxis.byte_iff]

/-- The window at a site is handled right: with its first maximum, its value, the tap in the
kernel, and the place that the backward pass computes. -/
structure SiteRight (aT aH aW : DilatedAxis) (lowest : T) (input : Int → T) (s : Site)
    (tap : Tap) : Prop where
  argmax : IsArgmax aT aH aW input s tap
  output_eq : (poolWindow aT aH aW lowest input s).1 = tapValue aT aH aW input s tap
  recorded_eq : (poolWindow aT aH aW lowest input s).2 = tapInts tap
  decoded_eq : decodedPlace aT aH aW s (indexBytes (poolWindow aT aH aW lowest input s).2) =
    tapPlace aT aH aW s tap

/-- The window at a site starts at most one place in front of the input where the kernel is
dilated, its first maximum exceeds `-MAX_FLOAT`, and the tap fits into bytes. -/
structure SiteFits (aT aH aW : DilatedAxis) (lowest : T) (input : Int → T) (s : Site) : Prop where
  front_t : -1 ≤ aT.start s.2.1 ∨ aT.dilation = 1
  front_h : -1 ≤ aH.start s.2.2.1 ∨ aH.dilation = 1
  front_w : -1 ≤ aW.start s.2.2.2 ∨ aW.dilation = 1
  argmax : ∃ tap, IsArgmax aT aH aW input s tap ∧ lowest < tapValue aT aH aW input s tap ∧
    tap.1 < 256 ∧ tap.2.1 < 256 ∧ tap.2.2 < 256

/-- A scan of a window that was not cut off finds its first maximum. -/
theorem isArgmax_shiftTap {u : Tap}
    (hscanned : ∀ p ∈ windowTaps aT aH aW s,
      ∃ p' ∈ scannedTaps aT aH aW s, shiftTap aT aH aW s p' = p)
    (hu : IsFirstMax tapBefore (scannedTaps aT aH aW s) (scannedValue aT aH aW input s) u) :
    IsArgmax aT aH aW input s (shiftTap aT aH aW s u) where
  mem := shiftTap_mem hu.mem
  le := by
    intro p hp
    obtain ⟨p', hp', rfl⟩ := hscanned p hp
    rw [← scannedValue_eq, ← scannedValue_eq]
    exact hu.le p' hp'
  lt := by
    intro p hp hbefore
    obtain ⟨p', hp', rfl⟩ := hscanned p hp
    rw [← scannedValue_eq, ← scannedValue_eq]
    refine hu.lt p' hp' ?_
    rw [tapBefore_iff] at *
    simp only [shiftTap] at hbefore
    omega

/-- Without excess, every tap of a window is scanned. -/
theorem SiteFits.exists_scanned (h : SiteFits aT aH aW lowest input s) {p : Tap}
    (hp : p ∈ windowTaps aT aH aW s) :
    ∃ p' ∈ scannedTaps aT aH aW s, shiftTap aT aH aW s p' = p := by
  obtain ⟨hz, hy, hx⟩ := mem_windowTaps.mp hp
  obtain ⟨z, hz, hzeq⟩ := aT.exists_scanned _ ((aT.excess_eq_zero_iff _).mpr h.front_t) hz
  obtain ⟨y, hy, hyeq⟩ := aH.exists_scanned _ ((aH.excess_eq_zero_iff _).mpr h.front_h) hy
  obtain ⟨x, hx, hxeq⟩ := aW.exists_scanned _ ((aW.excess_eq_zero_iff _).mpr h.front_w) hx
  refine ⟨(z, y, x), mem_scannedTaps.mpr ⟨hz, hy, hx⟩, ?_⟩
  rw [shiftTap, hzeq, hyeq, hxeq]

/-- A site that fits is handled right. -/
theorem SiteFits.siteRight (h : SiteFits aT aH aW lowest input s) :
    ∃ tap, SiteRight aT aH aW lowest input s tap := by
  obtain ⟨tap, hargmax, hlowest, hbytes⟩ := h.argmax
  have hexcessT := (aT.excess_eq_zero_iff s.2.1).mpr h.front_t
  have hexcessH := (aH.excess_eq_zero_iff s.2.2.1).mpr h.front_h
  have hexcessW := (aW.excess_eq_zero_iff s.2.2.2).mpr h.front_w
  rcases scan_cases tapBefore_asymm (scannedValue aT aH aW input s) (recordedTap aT aH aW s)
      (lowest, -1, -1, -1) pairwise_scannedTaps with ⟨hle, -⟩ | ⟨u, hu, -, heq⟩
  · obtain ⟨p, hp, hshift⟩ := h.exists_scanned hargmax.mem
    have hvalue := hle p hp
    rw [scannedValue_eq, hshift] at hvalue
    exact absurd hlowest hvalue.not_gt
  · have hsame : shiftTap aT aH aW s u = tap :=
      (isArgmax_shiftTap (fun p hp => h.exists_scanned hp) hu).unique hargmax
    have hrecorded : recordedTap aT aH aW s u = tapInts tap := by
      rw [recordedTap_eq, hexcessT, hexcessH, hexcessW, hsame]
      rfl
    rw [scannedValue_eq, hsame, hrecorded, ← poolWindow] at heq
    refine ⟨tap, hargmax, by rw [heq], by rw [heq], ?_⟩
    rw [heq]
    exact (decodedPlace_eq_iff tap).mpr hbytes

/-- A site that is handled right fits. -/
theorem SiteRight.siteFits (h : SiteRight aT aH aW lowest input s tap) :
    SiteFits aT aH aW lowest input s := by
  have houtput := h.output_eq
  have hrecorded := h.recorded_eq
  have hdecoded := h.decoded_eq
  rw [hrecorded, decodedPlace_eq_iff] at hdecoded
  rcases scan_cases tapBefore_asymm (scannedValue aT aH aW input s) (recordedTap aT aH aW s)
      (lowest, -1, -1, -1) pairwise_scannedTaps with ⟨-, heq⟩ | ⟨u, hu, hlowest, heq⟩
  · rw [← poolWindow] at heq
    rw [heq] at hrecorded
    simp only [tapInts, Prod.mk.injEq] at hrecorded
    omega
  · rw [← poolWindow] at heq
    rw [heq] at houtput hrecorded
    simp only at houtput hrecorded hlowest
    rw [scannedValue_eq] at houtput hlowest
    rw [recordedTap_eq] at hrecorded
    rw [houtput] at hlowest
    simp only [tapInts, Prod.mk.injEq] at hrecorded
    -- with an excess the recorded tap is a later one, of the same value
    have hnotBefore : ¬ tapBefore (shiftTap aT aH aW s u) tap := fun hbefore =>
      absurd houtput (h.argmax.lt _ (shiftTap_mem hu.mem) hbefore).ne
    rw [tapBefore_iff] at hnotBefore
    have hexcess : aT.excess s.2.1 = 0 ∧ aH.excess s.2.2.1 = 0 ∧ aW.excess s.2.2.2 = 0 := by
      omega
    exact ⟨(aT.excess_eq_zero_iff _).mp hexcess.1, (aH.excess_eq_zero_iff _).mp hexcess.2.1,
      (aW.excess_eq_zero_iff _).mp hexcess.2.2, tap, h.argmax, hlowest, hdecoded⟩

end Sites

/-! ## The two passes -/

section Passes

variable {T : Type} [LinearOrder T] {aT aH aW : DilatedAxis} {nslices : Nat}

/-- The sites have elements of their own. -/
theorem map_siteIndex (aT aH aW : DilatedAxis) (nslices : Nat) :
    (sites aT aH aW nslices).map (siteIndex aT aH aW) =
      List.range (nslices * (aT.output * (aH.output * aW.output))) := by
  have hnest := map_product_range (map_product_range (map_product_range
    (map_range_id aW.output) aH.output) aT.output) nslices
  rw [← hnest, sites]
  refine List.map_congr_left fun s _ => ?_
  simp only [siteIndex]
  ring

theorem nodup_siteIndex (aT aH aW : DilatedAxis) (nslices : Nat) :
    ((sites aT aH aW nslices).map fun s => (siteIndex aT aH aW s : Int)).Nodup := by
  have hnodup : ((sites aT aH aW nslices).map (siteIndex aT aH aW)).Nodup := by
    rw [map_siteIndex]
    exact List.nodup_range
  have hcast := hnodup.map (f := fun n : Nat => (n : Int)) fun _ _ h => Int.ofNat.inj h
  rwa [List.map_map] at hcast

variable {s : Site}

/-- The forward pass stores the maximum of its scan at every site. -/
theorem dilatedMaxPool3D_apply (lowest : T) (input output : Int → T)
    (hs : s ∈ sites aT aH aW nslices) :
    dilatedMaxPool3D aT aH aW nslices lowest input output (siteIndex aT aH aW s) =
      (poolWindow aT aH aW lowest input s).1 :=
  storeAll_of_independent (nodup_siteIndex aT aH aW nslices) (fun _ _ _ _ _ _ _ => rfl) output hs

theorem dilatedMaxPool3DIndices_apply (lowest : T) (input : Int → T) (indz : Int → IndexBytes)
    (hs : s ∈ sites aT aH aW nslices) :
    dilatedMaxPool3DIndices aT aH aW nslices lowest input indz (siteIndex aT aH aW s) =
      indexBytes (poolWindow aT aH aW lowest input s).2 :=
  storeAll_of_independent (nodup_siteIndex aT aH aW nslices) (fun _ _ _ _ _ _ _ => rfl) indz hs

/-- The passes agree on a choice of taps: the output holds their values, the tap that is recorded
is the chosen one, its bytes lead to its place, and the backward pass adds each gradient there
and nowhere else. -/
structure PassesAgree (aT aH aW : DilatedAxis) (nslices : Nat) (lowest : T) (input : Int → T)
    (argmax : Site → Tap) : Prop where
  isArgmax : ∀ s ∈ sites aT aH aW nslices, IsArgmax aT aH aW input s (argmax s)
  output_eq : ∀ output, ∀ s ∈ sites aT aH aW nslices,
    dilatedMaxPool3D aT aH aW nslices lowest input output (siteIndex aT aH aW s) =
      tapValue aT aH aW input s (argmax s)
  recorded_eq : ∀ s ∈ sites aT aH aW nslices,
    (poolWindow aT aH aW lowest input s).2 = tapInts (argmax s)
  decoded_eq : ∀ indz, ∀ s ∈ sites aT aH aW nslices,
    decodedPlace aT aH aW s
        (dilatedMaxPool3DIndices aT aH aW nslices lowest input indz (siteIndex aT aH aW s)) =
      tapPlace aT aH aW s (argmax s)
  backward_eq : ∀ (K : Type) [CommRing K] (indz : Int → IndexBytes)
    (gradOutput gradInput : Int → K),
    dilatedMaxPool3DBp aT aH aW nslices
        (dilatedMaxPool3DIndices aT aH aW nslices lowest input indz) gradOutput gradInput =
      addAll (fun s => placeIndex aT aH aW s.1 (tapPlace aT aH aW s (argmax s)))
        (fun s => gradOutput (siteIndex aT aH aW s)) (sites aT aH aW nslices) gradInput

/-- The passes agree on the first maximum of every window. -/
def PoolsRight (aT aH aW : DilatedAxis) (nslices : Nat) (lowest : T) (input : Int → T) : Prop :=
  ∃ argmax, PassesAgree aT aH aW nslices lowest input argmax

/-- Sites that are handled right make passes that agree. -/
theorem passesAgree_of_siteRight {lowest : T} {input : Int → T} {argmax : Site → Tap}
    (h : ∀ s ∈ sites aT aH aW nslices, SiteRight aT aH aW lowest input s (argmax s)) :
    PassesAgree aT aH aW nslices lowest input argmax := by
  have hdecoded : ∀ indz, ∀ s ∈ sites aT aH aW nslices,
      decodedPlace aT aH aW s
          (dilatedMaxPool3DIndices aT aH aW nslices lowest input indz (siteIndex aT aH aW s)) =
        tapPlace aT aH aW s (argmax s) := by
    intro indz s hs
    rw [dilatedMaxPool3DIndices_apply lowest input indz hs]
    exact (h s hs).decoded_eq
  refine ⟨fun s hs => (h s hs).argmax, fun output s hs => ?_, fun s hs => (h s hs).recorded_eq,
    hdecoded, ?_⟩
  · rw [dilatedMaxPool3D_apply lowest input output hs]
    exact (h s hs).output_eq
  · intro K _ indz gradOutput gradInput
    have hguard : ∀ s ∈ sites aT aH aW nslices,
        (decodedPlace aT aH aW s (dilatedMaxPool3DIndices aT aH aW nslices lowest input indz
          (siteIndex aT aH aW s))).1 ≠ -1 := by
      intro s hs
      rw [hdecoded indz s hs]
      have hinside := (mem_windowTaps.mp (h s hs).argmax.mem).1.2.1
      simp only [tapPlace]
      omega
    rw [dilatedMaxPool3DBp, List.filter_eq_self.mpr fun s hs => decide_eq_true (hguard s hs)]
    exact addAll_congr
      (fun s hs => ⟨congrArg (placeIndex aT aH aW s.1) (hdecoded indz s hs), rfl⟩) gradInput

/-- Passes that agree handle their sites right. -/
theorem PassesAgree.siteRight {lowest : T} {input : Int → T} {argmax : Site → Tap}
    (h : PassesAgree aT aH aW nslices lowest input argmax) (hs : s ∈ sites aT aH aW nslices) :
    SiteRight aT aH aW lowest input s (argmax s) := by
  have houtput := h.output_eq (fun _ => lowest) s hs
  have hdecoded := h.decoded_eq (fun _ => (0, 0, 0)) s hs
  rw [dilatedMaxPool3D_apply lowest input _ hs] at houtput
  rw [dilatedMaxPool3DIndices_apply lowest input _ hs] at hdecoded
  exact ⟨h.isArgmax s hs, houtput, h.recorded_eq s hs, hdecoded⟩

/-- The passes agree on the first maximum of every window exactly if every window fits. -/
theorem poolsRight_iff (lowest : T) (input : Int → T) :
    PoolsRight aT aH aW nslices lowest input ↔
      ∀ s ∈ sites aT aH aW nslices, SiteFits aT aH aW lowest input s := by
  constructor
  · rintro ⟨argmax, h⟩ s hs
    exact (h.siteRight hs).siteFits
  · intro h
    have hexists : ∀ s, ∃ tap, s ∈ sites aT aH aW nslices →
        SiteRight aT aH aW lowest input s tap := by
      intro s
      by_cases hs : s ∈ sites aT aH aW nslices
      · obtain ⟨tap, htap⟩ := (h s hs).siteRight
        exact ⟨tap, fun _ => htap⟩
      · exact ⟨(0, 0, 0), fun hmem => absurd hmem hs⟩
    choose argmax hargmax using hexists
    exact ⟨argmax, passesAgree_of_siteRight hargmax⟩

end Passes

/-! ## A window that is cut off -/

/-- The extent of the output that `maxpool3d` computes, which rounds up or down, and leaves out
a last window that would start behind the input. -/
def DilatedAxis.callerOutput (a : DilatedAxis) (ceilMode padded : Bool) : Int :=
  let rest : Int := a.input - (a.dilation * (a.kernel - 1) + 1) + 2 * a.padding
  let output := (if ceilMode then -(-rest / a.stride) else rest / a.stride) + 1
  if padded ∧ (output - 1) * a.stride ≥ a.input + a.padding then output - 1 else output

/-- The checks of `maxpool3d` for an axis. -/
def DilatedAxis.Admitted (a : DilatedAxis) (ceilMode padded : Bool) : Prop :=
  0 < a.kernel ∧ 0 < a.stride ∧ a.padding ≤ a.kernel / 2 ∧
    (a.output : Int) = a.callerOutput ceilMode padded ∧ 1 ≤ a.output

/-- The checks of `maxpool3d`. -/
def AdmittedAxes (ceilMode : Bool) (aT aH aW : DilatedAxis) : Prop :=
  let padded : Bool := aT.padding > 0 ∨ aW.padding > 0 ∨ aH.padding > 0
  aT.Admitted ceilMode padded ∧ aH.Admitted ceilMode padded ∧ aW.Admitted ceilMode padded

/-- Five places with a dilated kernel of four, two places of padding in front. -/
def cutOffAxis : DilatedAxis :=
  ⟨5, 3, 4, 1, 2, 2, Nat.two_pos⟩

def onePlaceAxis : DilatedAxis :=
  ⟨1, 1, 1, 1, 0, 1, Nat.one_pos⟩

/-- The passes do not always agree: a window that starts two places in front of the input is cut
off, and its maximum is recorded one tap too far, when the dilation is two. -/
theorem not_poolsRight_always :
    ¬ ∀ (ceilMode : Bool) (aT aH aW : DilatedAxis), AdmittedAxes ceilMode aT aH aW →
      ∀ (nslices : Nat) (lowest : ℤ) (input : Int → ℤ), (∀ i, lowest < input i) →
        PoolsRight aT aH aW nslices lowest input := by
  intro h
  have hadmitted : AdmittedAxes false cutOffAxis onePlaceAxis onePlaceAxis := by
    unfold AdmittedAxes DilatedAxis.Admitted
    decide
  have hlowest : ∀ i : Int, (-100 : ℤ) < if i = 0 then 1 else 0 := by
    intro i
    split <;> omega
  obtain ⟨argmax, hagree⟩ := h false cutOffAxis onePlaceAxis onePlaceAxis hadmitted 1 (-100)
    (fun i => if i = 0 then 1 else 0) hlowest
  have hsite : ((0, 0, 0, 0) : Site) ∈ sites cutOffAxis onePlaceAxis onePlaceAxis 1 := by decide
  exact absurd (hagree.siteRight hsite).siteFits.front_t (by decide)

end Convolutions
end LibND4J
