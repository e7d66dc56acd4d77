import LibND4J.Convolutions.AvgPool3D
import LibND4J.Convolutions.DilatedMaxPool3D

/-!
# The extents that the poolings of volumes compute

`maxpool3d` and `avgpool3d` divide what the input leaves for the windows by the stride,
round it, and leave out a last window that would start behind the input, if there is padding in
any axis.

Main results:

- Theorem `lastStart_lt_iff`: when the last window starts inside the image.
- Theorem `dilatedMeets_iff`: when every window of `maxpool3d` has a place inside.
- Theorem `poolingWindows_iff`: with it the windows and the divisors of `avgpool3d`.
-/

namespace LibND4J
namespace Convolutions

/-! ## The extents -/

/-- `otime`, for `rest` places that are left for the windows, where a last window that starts at
`limit` is left out. -/
def outputExtent (ceilMode padded : Bool) (rest stride limit : Int) : Int :=
  let output := (if ceilMode then -(-rest / stride) else rest / stride) + 1
  if padded ∧ (output - 1) * stride ≥ limit then output - 1 else output

/-- The arguments that both poolings take for an axis. -/
structure WindowAxis where
  input : Nat
  kernel : Nat
  stride : Nat
  padding : Nat
  dilation : Nat
  input_pos : 0 < input
  kernel_pos : 0 < kernel
  stride_pos : 0 < stride
  dilation_pos : 0 < dilation
  padding_le : padding ≤ kernel / 2

namespace WindowAxis

variable (a : WindowAxis) (ceilMode padded : Bool)

/-- `otime` of `maxpool3d`. -/
def maxpool3dExtent : Int :=
  outputExtent ceilMode padded (a.input - (a.dilation * (a.kernel - 1) + 1) + 2 * a.padding)
    a.stride (a.input + a.padding)

/-- `otime` of `avgpool3d`. -/
def avgpool3dExtent : Int :=
  outputExtent ceilMode padded (a.input - a.kernel + 2 * a.padding) a.stride (a.input + a.padding)

/-- The axis as `maxpool3d` passes it on. -/
def dilatedAxis : DilatedAxis :=
  ⟨a.input, (a.maxpool3dExtent ceilMode padded).toNat, a.kernel, a.stride, a.padding, a.dilation,
    a.dilation_pos⟩

/-- The axis as `avgpool3d` passes it on. -/
def poolAxis : PoolAxis :=
  ⟨a.input, (a.avgpool3dExtent ceilMode padded).toNat, a.kernel, a.stride, a.padding⟩

/-- Every window of `maxpool3d` has a place inside the input. -/
def DilatedMeets : Prop :=
  ∀ o < (a.dilatedAxis ceilMode padded).output, ∃ z, (a.dilatedAxis ceilMode padded).Inside o z

/-- Every window of `avgpool3d` has a place inside the input. -/
def PoolMeets : Prop :=
  ∀ o < (a.poolAxis ceilMode padded).output, (a.poolAxis ceilMode padded).places o ≠ []

/-- The first tap of the first window that is not in front of the input is not behind it. -/
def FrontInside : Prop :=
  -(a.padding : Int) % a.dilation < a.input

/-- A stride does not lead from a window that fits over the end of the input. -/
def StrideInside (span : Nat) : Prop :=
  (a.input - 1) % a.stride ≤ span

/-- The padding is smaller than the extent of a kernel. -/
theorem padding_le_span : a.padding ≤ a.dilation * (a.kernel - 1) := by
  have hkernel := a.kernel_pos
  have hpadding := a.padding_le
  have hmul : 1 * (a.kernel - 1) ≤ a.dilation * (a.kernel - 1) :=
    Nat.mul_le_mul_right _ a.dilation_pos
  omega

theorem padding_lt_kernel : a.padding < a.kernel := by
  have hkernel := a.kernel_pos
  have hpadding := a.padding_le
  omega

end WindowAxis

/-! ## The last window -/

/-- Without padding and rounded up, the last start is the least multiple of the stride that is not
below the rest. -/
theorem ceil_mul_lt_iff {n s span : Nat} (hn : 0 < n) (hs : 0 < s) :
    -(-((n : Int) - (span + 1)) / s) * s < n ↔ (n - 1) % s ≤ span := by
  have hsInt : (0 : Int) < s := Int.natCast_pos.mpr hs
  have hdecomp := Nat.div_add_mod (n - 1) s
  generalize hq : (n - 1) / s = q at hdecomp
  have hmod : ((n - 1) % s : Nat) < s := Nat.mod_lt _ hs
  have hmul : ((q * s : Nat) : Int) = q * s := by push_cast; ring
  rw [Nat.mul_comm] at hdecomp
  -- the multiple `q * s` is the last one inside
  have hlt : ∀ c : Int, c * s < n ↔ c ≤ q := by
    intro c
    constructor
    · intro hc
      by_contra hnot
      have hle : ((q : Int) + 1) * s ≤ c * s :=
        Int.mul_le_mul_of_nonneg_right (by omega) hsInt.le
      rw [Int.add_mul, Int.one_mul] at hle
      omega
    · intro hc
      have hle : c * s ≤ q * s := Int.mul_le_mul_of_nonneg_right hc hsInt.le
      omega
  have hneg : ∀ c : Int, -c ≤ q ↔ -(q : Int) ≤ c := by omega
  rw [hlt, hneg, Int.le_ediv_iff_mul_le hsInt, Int.neg_mul]
  omega

section Extents

variable {ceilMode padded : Bool} {rest stride limit : Int}

/-- Rounded up, the start after the last one would be too late. -/
theorem ceil_mul_lt (hstride : 0 < stride) : -(-rest / stride) * stride < rest + stride := by
  have hle := Int.lt_ediv_add_one_mul_self (-rest) hstride
  rw [Int.add_mul, Int.one_mul] at hle
  rw [Int.neg_mul]
  omega

/-- Rounded down, the last window fits. -/
theorem floor_start_le (hstride : 0 < stride) :
    (outputExtent false padded rest stride limit - 1) * stride ≤ rest := by
  have hle := Int.ediv_mul_le rest hstride.ne'
  simp only [outputExtent, Bool.false_eq_true, if_false]
  split
  · rw [Int.add_sub_cancel, Int.sub_mul]
    omega
  · rwa [Int.add_sub_cancel]

/-- The start after the last one would be too late. -/
theorem rounded_mul_lt (ceilMode : Bool) (hstride : 0 < stride) :
    (if ceilMode then -(-rest / stride) else rest / stride) * stride < rest + stride := by
  cases ceilMode with
  | true => exact ceil_mul_lt hstride
  | false =>
      have hfloor := Int.ediv_mul_le rest hstride.ne'
      simp only [Bool.false_eq_true, if_false]
      omega

/-- With padding, the last window does not start at the limit. -/
theorem padded_start_lt (hstride : 0 < stride) (hrest : rest ≤ limit) :
    (outputExtent ceilMode true rest stride limit - 1) * stride < limit := by
  have hrounded := @rounded_mul_lt rest stride ceilMode hstride
  rw [outputExtent]
  generalize (if ceilMode then -(-rest / stride) else rest / stride) = q at hrounded
  simp only [true_and, Int.add_sub_cancel]
  split
  · rw [Int.sub_mul, Int.one_mul]
    omega
  · rw [Int.add_sub_cancel]
    omega

/-- A second window has places left. -/
theorem rest_pos_of_two_le (hstride : 0 < stride)
    (h : 2 ≤ outputExtent ceilMode padded rest stride limit) : 0 < rest := by
  by_contra hnot
  have hrounded : (if ceilMode then -(-rest / stride) else rest / stride) ≤ 0 := by
    have hfloor : rest / stride ≤ 0 := Int.ediv_nonpos_of_nonpos_of_neg (by omega) hstride
    have hceil : 0 ≤ -rest / stride := Int.ediv_nonneg (by omega) hstride.le
    split <;> omega
  rw [outputExtent] at h
  generalize (if ceilMode then -(-rest / stride) else rest / stride) = q at h hrounded
  split at h <;> omega

end Extents

namespace DilatedAxis

variable (a : DilatedAxis) (i : Nat)

/-- A start that is not in front of the input stays. -/
theorem liftedStart_of_nonneg (h : 0 ≤ a.start i) : a.liftedStart i = a.start i := by
  rw [a.liftedStart_eq, rounds, liftRounds_of_nonneg a.dilation_pos h]
  simp

/-- A start in front of the input is moved to the first tap that is not. -/
theorem liftedStart_of_neg (h : a.start i < 0) : a.liftedStart i = a.start i % a.dilation := by
  have hdilation := a.dilation_pos
  have hpos : (0 : Int) < a.dilation := Int.natCast_pos.mpr hdilation
  have hnonneg := (a.nonneg_iff i (a.rounds i)).mpr le_rfl
  obtain ⟨m, hm⟩ : ∃ m, a.rounds i = m + 1 := by
    refine Nat.exists_eq_add_one_of_ne_zero fun hzero => ?_
    have hstart := (a.nonneg_iff i 0).mpr hzero.le
    omega
  have hbefore : ¬ 0 ≤ a.start i + m * a.dilation := by
    rw [a.nonneg_iff, hm]
    omega
  rw [a.liftedStart_eq]
  rw [hm] at hnonneg ⊢
  push_cast at hnonneg ⊢
  rw [← Int.add_mul_emod_self_right (a.start i) (m + 1) a.dilation]
  refine (Int.emod_eq_of_lt hnonneg ?_).symm
  rw [Int.add_mul]
  omega

/-- A window has a place inside the input exactly if the first of its taps that is not in front of
the input is one. -/
theorem exists_inside_iff (hkernel : (-a.start i).toNat < a.kernel) :
    (∃ z, a.Inside i z) ↔ a.liftedStart i < a.input := by
  have hle := a.rounds_le i
  rw [a.liftedStart_eq]
  constructor
  · rintro ⟨z, hlt, hnonneg, hinput⟩
    have hrounds := (a.nonneg_iff i z).mp hnonneg
    have hmul : (a.rounds i : Int) * a.dilation ≤ z * a.dilation :=
      Int.mul_le_mul_of_nonneg_right (Int.ofNat_le.mpr hrounds) (Int.natCast_nonneg _)
    omega
  · intro h
    exact ⟨a.rounds i, by omega, (a.nonneg_iff i _).mpr le_rfl, h⟩

end DilatedAxis

/-! ## The windows -/

namespace WindowAxis

variable (a : WindowAxis) {ceilMode padded : Bool}

/-- The last window of `maxpool3d` starts inside the input. -/
theorem lastStart_lt_iff {span : Nat} (hspan : a.padding ≤ span)
    (hpadded : 0 < a.padding → padded = true) {extent : Int}
    (hextent : extent = outputExtent ceilMode padded (a.input - (span + 1) + 2 * a.padding)
      a.stride (a.input + a.padding)) :
    (extent - 1) * a.stride - a.padding < a.input ↔
      (ceilMode = true → padded = false → a.StrideInside span) := by
  have hinput := a.input_pos
  have hstride : (0 : Int) < a.stride := Int.natCast_pos.mpr a.stride_pos
  subst hextent
  cases ceilMode with
  | false =>
      have hle := @floor_start_le padded (a.input - (span + 1) + 2 * a.padding) a.stride
        (a.input + a.padding) hstride
      simp only [Bool.false_eq_true, false_implies, iff_true]
      omega
  | true =>
      cases padded with
      | true =>
          have hlt := @padded_start_lt true (a.input - (span + 1) + 2 * a.padding) a.stride
            (a.input + a.padding) hstride (by omega)
          simp only [Bool.true_eq_false, false_implies, implies_true, iff_true]
          omega
      | false =>
          have hzero : a.padding = 0 := by
            by_contra hne
            exact absurd (hpadded (Nat.pos_of_ne_zero hne)) Bool.false_ne_true
          have hiff := @ceil_mul_lt_iff _ _ span hinput a.stride_pos
          rw [outputExtent, hzero]
          simpa [StrideInside] using hiff

theorem two_le_of_padding (h : 0 < a.padding) : 2 ≤ a.kernel := by
  have hpadding := a.padding_le
  omega

/-- With a dilation that exceeds the input there is no second window. -/
theorem extent_le_one (hdilation : a.input < a.dilation) (hpadding : 0 < a.padding) :
    a.maxpool3dExtent ceilMode padded ≤ 1 := by
  by_contra hnot
  have hrest := rest_pos_of_two_le (Int.natCast_pos.mpr a.stride_pos)
    (Int.add_one_le_iff.mpr (not_le.mp hnot))
  obtain ⟨k, hk⟩ := Nat.exists_eq_add_of_le (a.two_le_of_padding hpadding)
  have hle := a.padding_le
  have hmul : (a.input + 1) * (k + 1) ≤ a.dilation * (k + 1) := Nat.mul_le_mul_right _ hdilation
  have hcast : ((a.dilation * (k + 1) : Nat) : Int) = a.dilation * (a.kernel - 1) := by
    rw [hk]
    push_cast
    ring
  rw [Nat.add_mul, Nat.mul_succ] at hmul
  have hinput : 0 ≤ a.input * k := Nat.zero_le _
  omega

/-- The last window of `maxpool3d` starts inside the input, and so do all others that start
in it. -/
theorem start_le_last {o : Nat} (ho : o < (a.dilatedAxis ceilMode padded).output) :
    (a.dilatedAxis ceilMode padded).start o ≤
      (a.maxpool3dExtent ceilMode padded - 1) * a.stride - a.padding := by
  have hlast : (o : Int) ≤ a.maxpool3dExtent ceilMode padded - 1 := by
    simp only [dilatedAxis] at ho
    omega
  have hmul := Int.mul_le_mul_of_nonneg_right hlast (Int.natCast_nonneg a.stride)
  simp only [DilatedAxis.start, dilatedAxis]
  omega

/-- When every window of `maxpool3d` has a place inside. -/
theorem dilatedMeets_iff (hpadded : 0 < a.padding → padded = true)
    (hextent : 1 ≤ a.maxpool3dExtent ceilMode padded) :
    a.DilatedMeets ceilMode padded ↔
      a.FrontInside ∧
        (ceilMode = true → padded = false → a.StrideInside (a.dilation * (a.kernel - 1))) := by
  have hinput := a.input_pos
  have hpadding := a.padding_lt_kernel
  have hspan : ((a.dilation * (a.kernel - 1) : Nat) : Int) = a.dilation * (a.kernel - 1) := by
    have hkernel := a.kernel_pos
    push_cast [Nat.cast_sub hkernel]
    ring
  have hlast := @lastStart_lt_iff a ceilMode padded _ a.padding_le_span hpadded
    (a.maxpool3dExtent ceilMode padded) (by rw [hspan]; rfl)
  have hinside : ∀ o, (∃ z, (a.dilatedAxis ceilMode padded).Inside o z) ↔
      (a.dilatedAxis ceilMode padded).liftedStart o < a.input := by
    intro o
    refine DilatedAxis.exists_inside_iff _ _ ?_
    have hnonneg : (0 : Int) ≤ o * a.stride :=
      Int.mul_nonneg (Int.natCast_nonneg _) (Int.natCast_nonneg _)
    simp only [DilatedAxis.start, dilatedAxis]
    omega
  have hfirst : (a.dilatedAxis ceilMode padded).start 0 = -(a.padding : Int) := by
    simp [DilatedAxis.start, dilatedAxis]
  have houtput : ((a.dilatedAxis ceilMode padded).output : Int) =
      a.maxpool3dExtent ceilMode padded := by
    simp only [dilatedAxis]
    omega
  rw [← hlast]
  constructor
  · intro h
    constructor
    · have hzero := (hinside 0).mp (h 0 (by omega))
      rcases Nat.eq_zero_or_pos a.padding with hnone | hpos
      · rw [FrontInside, hnone]
        simpa using hinput
      · rwa [DilatedAxis.liftedStart_of_neg _ _ (by omega), hfirst] at hzero
    · have hstart := (hinside _).mp
        (h ((a.dilatedAxis ceilMode padded).output - 1) (by omega))
      have hstart_eq : (a.dilatedAxis ceilMode padded).start
          ((a.dilatedAxis ceilMode padded).output - 1) =
            (a.maxpool3dExtent ceilMode padded - 1) * a.stride - a.padding := by
        rw [DilatedAxis.start, Nat.cast_sub (by omega), houtput]
        rfl
      rw [← hstart_eq]
      by_cases hneg : (a.dilatedAxis ceilMode padded).start
          ((a.dilatedAxis ceilMode padded).output - 1) < 0
      · omega
      · rwa [DilatedAxis.liftedStart_of_nonneg _ _ (not_lt.mp hneg)] at hstart
  · rintro ⟨hfront, hend⟩ o ho
    rw [hinside]
    by_cases hneg : (a.dilatedAxis ceilMode padded).start o < 0
    · rw [DilatedAxis.liftedStart_of_neg _ _ hneg]
      rcases Nat.lt_or_ge a.input a.dilation with hwide | hnarrow
      · -- only the first window is there
        have hpos : 0 < a.padding := by
          rw [DilatedAxis.start] at hneg
          have hnonneg : (0 : Int) ≤ o * a.stride :=
            Int.mul_nonneg (Int.natCast_nonneg _) (Int.natCast_nonneg _)
          simp only [dilatedAxis] at hneg
          omega
        have hone := @extent_le_one a ceilMode padded hwide hpos
        have hzero : o = 0 := by omega
        rw [hzero, hfirst]
        exact hfront
      · have hlt := Int.emod_lt_of_pos ((a.dilatedAxis ceilMode padded).start o)
          (Int.natCast_pos.mpr a.dilation_pos)
        exact hlt.trans_le (Int.ofNat_le.mpr hnarrow)
    · rw [DilatedAxis.liftedStart_of_nonneg _ _ (not_lt.mp hneg)]
      exact (a.start_le_last ho).trans_lt hend

/-- A window of `avgpool3d` has a place inside exactly if it starts in front of the end. -/
theorem places_ne_nil_iff (o : Nat) :
    (a.poolAxis ceilMode padded).places o ≠ [] ↔
      (a.poolAxis ceilMode padded).start o < a.input := by
  have hinput := a.input_pos
  have hpadding := a.padding_lt_kernel
  have hnonneg : (0 : Int) ≤ o * a.stride :=
    Int.mul_nonneg (Int.natCast_nonneg _) (Int.natCast_nonneg _)
  have hexists : (a.poolAxis ceilMode padded).places o ≠ [] ↔
      (a.poolAxis ceilMode padded).clippedStart o < (a.poolAxis ceilMode padded).clippedStop o := by
    constructor
    · intro h
      obtain ⟨z, hz⟩ := List.exists_mem_of_ne_nil _ h
      obtain ⟨hstart, hstop⟩ := PoolAxis.mem_places.mp hz
      omega
    · exact fun h => List.ne_nil_of_mem (PoolAxis.mem_places.mpr ⟨le_rfl, h⟩)
  rw [hexists, PoolAxis.clippedStart, PoolAxis.clippedStop, PoolAxis.stop, PoolAxis.start]
  simp only [poolAxis]
  omega

/-- When every window of `avgpool3d` has a place inside. -/
theorem poolMeets_iff (hpadded : 0 < a.padding → padded = true)
    (hextent : 1 ≤ a.avgpool3dExtent ceilMode padded) :
    a.PoolMeets ceilMode padded ↔
      (ceilMode = true → padded = false → a.StrideInside (a.kernel - 1)) := by
  have hkernel := a.kernel_pos
  have hpadding := a.padding_lt_kernel
  have hlast := @lastStart_lt_iff a ceilMode padded _ (Nat.le_sub_one_of_lt hpadding) hpadded
    (a.avgpool3dExtent ceilMode padded)
    (by rw [avgpool3dExtent, Nat.cast_sub hkernel, Nat.cast_one, Int.sub_add_cancel])
  have houtput : ((a.poolAxis ceilMode padded).output : Int) =
      a.avgpool3dExtent ceilMode padded := by
    simp only [poolAxis]
    omega
  rw [← hlast]
  constructor
  · intro h
    have hstart := (a.places_ne_nil_iff _).mp
      (h ((a.poolAxis ceilMode padded).output - 1) (by omega))
    rwa [PoolAxis.start, Nat.cast_sub (by omega), houtput] at hstart
  · intro h o ho
    have hle : (o : Int) ≤ a.avgpool3dExtent ceilMode padded - 1 := by omega
    have hmul := Int.mul_le_mul_of_nonneg_right hle (Int.natCast_nonneg a.stride)
    rw [a.places_ne_nil_iff, PoolAxis.start]
    simp only [poolAxis]
    omega

end WindowAxis

/-! ## The three axes -/

/-- The arguments of a pooling of volumes. -/
structure WindowAxes where
  t : WindowAxis
  w : WindowAxis
  h : WindowAxis

namespace WindowAxes

variable (g : WindowAxes) (ceilMode : Bool)

/-- The test for padding in any axis. -/
def padded : Bool :=
  g.t.padding > 0 ∨ g.w.padding > 0 ∨ g.h.padding > 0

/-- The three axes. -/
def axes : List WindowAxis :=
  [g.t, g.w, g.h]

/-- Every window of `avgpool3d` has a place inside, and a positive divisor. -/
def AveragesRight : Prop :=
  (∀ a ∈ g.axes, a.PoolMeets ceilMode g.padded) ∧
    ∀ (countIncludePad : Bool),
      ∀ v ∈ windows (g.t.poolAxis ceilMode g.padded) (g.w.poolAxis ceilMode g.padded)
        (g.h.poolAxis ceilMode g.padded),
        0 < divideFactor (g.t.poolAxis ceilMode g.padded) (g.w.poolAxis ceilMode g.padded)
          (g.h.poolAxis ceilMode g.padded) countIncludePad v.1

variable {g ceilMode}

theorem padded_of_mem {a : WindowAxis} (ha : a ∈ g.axes) (hpadding : 0 < a.padding) :
    g.padded = true := by
  simp only [axes, List.mem_cons, List.not_mem_nil, or_false] at ha
  rw [padded, decide_eq_true_eq]
  rcases ha with rfl | rfl | rfl
  · exact Or.inl hpadding
  · exact Or.inr (Or.inl hpadding)
  · exact Or.inr (Or.inr hpadding)

/-- Windows with places inside have positive divisors. -/
theorem averagesRight_of_meets (hmeets : ∀ a ∈ g.axes, a.PoolMeets ceilMode g.padded) :
    g.AveragesRight ceilMode := by
  refine ⟨hmeets, fun countIncludePad v hv => divideFactor_pos ?_ countIncludePad⟩
  have hwindow := List.fst_mem_of_mem_zipIdx hv
  obtain ⟨ht, hrest⟩ := List.mem_product.mp hwindow
  obtain ⟨hh, hw⟩ := List.mem_product.mp hrest
  obtain ⟨z, hz⟩ := List.exists_mem_of_ne_nil _
    (hmeets g.t (by simp [axes]) _ (List.mem_range.mp ht))
  obtain ⟨y, hy⟩ := List.exists_mem_of_ne_nil _
    (hmeets g.h (by simp [axes]) _ (List.mem_range.mp hh))
  obtain ⟨x, hx⟩ := List.exists_mem_of_ne_nil _
    (hmeets g.w (by simp [axes]) _ (List.mem_range.mp hw))
  exact List.ne_nil_of_mem (mem_points.mpr ⟨hz, hy, hx⟩)

end WindowAxes

/-- When every window has a place inside the input, and a positive divisor: the first tap that is
not in front of the input is not behind it, and, without padding and rounded up, a stride does not
lead from a window that fits over the end. -/
theorem poolingWindows_iff (g : WindowAxes) (ceilMode : Bool) :
    (∀ a ∈ g.axes, 1 ≤ a.maxpool3dExtent ceilMode g.padded →
      (a.DilatedMeets ceilMode g.padded ↔ a.FrontInside ∧
        (ceilMode = true → g.padded = false → a.StrideInside (a.dilation * (a.kernel - 1))))) ∧
    (∀ a ∈ g.axes, 1 ≤ a.avgpool3dExtent ceilMode g.padded →
      (a.PoolMeets ceilMode g.padded ↔
        (ceilMode = true → g.padded = false → a.StrideInside (a.kernel - 1)))) ∧
    ((∀ a ∈ g.axes, 1 ≤ a.avgpool3dExtent ceilMode g.padded) →
      (g.AveragesRight ceilMode ↔
        ∀ a ∈ g.axes, ceilMode = true → g.padded = false → a.StrideInside (a.kernel - 1))) := by
  refine ⟨fun a ha hextent => a.dilatedMeets_iff (g.padded_of_mem ha) hextent,
    fun a ha hextent => a.poolMeets_iff (g.padded_of_mem ha) hextent, fun hextents => ?_⟩
  have hmeets : ∀ a ∈ g.axes, (a.PoolMeets ceilMode g.padded ↔
      (ceilMode = true → g.padded = false → a.StrideInside (a.kernel - 1))) :=
    fun a ha => a.poolMeets_iff (g.padded_of_mem ha) (hextents a ha)
  constructor
  · exact fun h a ha => (hmeets a ha).mp (h.1 a ha)
  · exact fun h => WindowAxes.averagesRight_of_meets fun a ha => (hmeets a ha).mpr (h a ha)

/-- A dilation of two over one place, with one place of padding. -/
def jumpedAxis : WindowAxis :=
  ⟨1, 2, 1, 1, 2, Nat.one_pos, Nat.two_pos, Nat.one_pos, Nat.two_pos, by decide⟩

/-- A stride of three over two places. -/
def steppedAxis : WindowAxis :=
  ⟨2, 1, 3, 0, 1, Nat.two_pos, Nat.one_pos, Nat.succ_pos 2, Nat.one_pos, by decide⟩

/-- Some windows miss the input: the taps of one jump over it, and the other starts behind it. -/
theorem not_poolingWindows_always :
    (¬ ∀ (g : WindowAxes) (ceilMode : Bool), ∀ a ∈ g.axes,
      1 ≤ a.maxpool3dExtent ceilMode g.padded → a.DilatedMeets ceilMode g.padded) ∧
    ¬ ∀ (g : WindowAxes) (ceilMode : Bool),
      (∀ a ∈ g.axes, 1 ≤ a.avgpool3dExtent ceilMode g.padded) → g.AveragesRight ceilMode := by
  constructor
  · intro h
    have hmeets := h ⟨jumpedAxis, jumpedAxis, jumpedAxis⟩ false jumpedAxis
      (by simp [WindowAxes.axes]) (by decide)
    have hfront := (jumpedAxis.dilatedMeets_iff (fun _ => by decide) (by decide)).mp hmeets
    exact absurd hfront.1 (by unfold WindowAxis.FrontInside; decide)
  · intro h
    have hmeets := (h ⟨steppedAxis, steppedAxis, steppedAxis⟩ true
      (by simp only [WindowAxes.axes, List.forall_mem_cons]; decide)).1 steppedAxis
        (by simp [WindowAxes.axes])
    have hend := (steppedAxis.poolMeets_iff (fun hpos => absurd hpos (by decide))
      (by decide)).mp hmeets rfl rfl
    exact absurd hend (by unfold WindowAxis.StrideInside; decide)

end Convolutions
end LibND4J
