import LibND4J.Library.Accumulation
import Mathlib.Tactic.Ring

/-!
# Average pooling of volumes

`_avgPool3D` divides the sum over each window by its size, and `_avgPool3D_bp` spreads
the gradient over the window, divided by the same size.  Both clip a window to the input, after
they took its size in the padded input.

Main results:

- Theorem `inputCell_mem`: a clipped window stays in its slice.
- Theorem `divideFactor_pos`: windows that meet the input have positive sizes.
- Theorem `isAdjoint_avgPool3D`: the two are adjoint, and neither divides by zero.
-/

namespace LibND4J
namespace Convolutions

open Accumulation

/-! ## The windows -/

structure PoolAxis where
  input : Nat
  output : Nat
  kernel : Int
  stride : Int
  padding : Int
deriving DecidableEq, Repr

namespace PoolAxis

/-- `tstart`, before it is clipped. -/
def start (a : PoolAxis) (i : Nat) : Int :=
  i * a.stride - a.padding

/-- `tend`, before it is clipped. -/
def stop (a : PoolAxis) (i : Nat) : Int :=
  min (a.start i + a.kernel) (a.input + a.padding)

/-- `tstart`. -/
def clippedStart (a : PoolAxis) (i : Nat) : Int :=
  max (a.start i) 0

/-- `tend`. -/
def clippedStop (a : PoolAxis) (i : Nat) : Int :=
  min (a.stop i) a.input

/-- The loop from `tstart` to `tend`. -/
def places (a : PoolAxis) (i : Nat) : List Int :=
  cellsFrom (a.clippedStart i) (a.clippedStop i - a.clippedStart i).toNat

variable {a : PoolAxis} {i : Nat} {z : Int}

theorem mem_places : z ∈ a.places i ↔ a.clippedStart i ≤ z ∧ z < a.clippedStop i := by
  rw [places, mem_cellsFrom]
  omega

/-- A place is inside the input. -/
theorem bounds_of_mem_places (hz : z ∈ a.places i) : 0 ≤ z ∧ z < a.input := by
  obtain ⟨hstart, hstop⟩ := mem_places.mp hz
  rw [clippedStart] at hstart
  rw [clippedStop] at hstop
  omega

/-- A window with a place has a positive extent, and a part of it is left. -/
theorem extents_pos (hz : z ∈ a.places i) :
    0 < a.stop i - a.start i ∧ 0 < a.clippedStop i - a.clippedStart i := by
  obtain ⟨hstart, hstop⟩ := mem_places.mp hz
  rw [clippedStart] at *
  rw [clippedStop] at *
  omega

end PoolAxis

section Windows

variable (aT aW aH : PoolAxis)

/-- The counters `ti`, `i` and `j`. -/
abbrev Window := Nat × Nat × Nat

/-- The loop over the output, with the number of the iteration. -/
def windows : List (Window × Nat) :=
  (List.range aT.output ×ˢ List.range aH.output ×ˢ List.range aW.output).zipIdx

/-- The loops over the clipped window. -/
def points (w : Window) : List (Int × Int × Int) :=
  aT.places w.1 ×ˢ aH.places w.2.1 ×ˢ aW.places w.2.2

/-- `pool_size`. -/
def poolSize (w : Window) : Int :=
  (aT.stop w.1 - aT.start w.1) * (aH.stop w.2.1 - aH.start w.2.1) *
    (aW.stop w.2.2 - aW.start w.2.2)

/-- `divide_factor`. -/
def divideFactor (countIncludePad : Bool) (w : Window) : Int :=
  if countIncludePad then poolSize aT aW aH w
  else (aT.clippedStop w.1 - aT.clippedStart w.1) *
    (aH.clippedStop w.2.1 - aH.clippedStart w.2.1) *
    (aW.clippedStop w.2.2 - aW.clippedStart w.2.2)

/-- The length of a slice of the input. -/
def inLength : Nat :=
  aT.input * aW.input * aH.input

/-- The length of a slice of the output. -/
def outLength : Nat :=
  aT.output * aW.output * aH.output

/-- The cell of a place of slice `k` of the input. -/
def inputCell (k : Nat) (p : Int × Int × Int) : Int :=
  let (z, y, x) := p
  (k * inLength aT aW aH : Nat) + (z * aW.input * aH.input + y * aW.input + x)

/-- The cell that `op` points to in an iteration over slice `k`. -/
def outputCell (k iteration : Nat) : Int :=
  (k * outLength aT aW aH : Nat) + iteration

/-! ## The loops -/

variable {K : Type*} [Field K]

/-- `_avgPool3D`. -/
def avgPool3D (nslices : Nat) (countIncludePad : Bool) (input output : Int → K) : Int → K :=
  let pool (k : Nat) (v : Window × Nat) : K :=
    ((points aT aW aH v.1).map fun p => input (inputCell aT aW aH k p)).sum /
      divideFactor aT aW aH countIncludePad v.1
  (List.range nslices).foldl
    (fun m k => zeroedPass (outLength aT aW aH) (fun k v => outputCell aT aW aH k v.2) pool
      (windows aT aW aH) k m)
    output

/-- The footprints of all windows. -/
def footprints : List ((Window × Nat) × Int × Int × Int) :=
  (windows aT aW aH).flatMap fun v => (points aT aW aH v.1).map fun p => (v, p)

/-- `_avgPool3D_bp`. -/
def avgPool3DBp (nslices : Nat) (countIncludePad : Bool) (gradOutput gradInput : Int → K) :
    Int → K :=
  let share (k : Nat) (v : (Window × Nat) × Int × Int × Int) : K :=
    gradOutput (outputCell aT aW aH k v.1.2) / divideFactor aT aW aH countIncludePad v.1.1
  (List.range nslices).foldl
    (fun m k => zeroedPass (inLength aT aW aH) (fun k v => inputCell aT aW aH k v.2) share
      (footprints aT aW aH) k m)
    gradInput

end Windows

/-! ## The cells -/

section Cells

variable {aT aW aH : PoolAxis}

theorem mem_points {w : Window} {z y x : Int} :
    (z, y, x) ∈ points aT aW aH w ↔
      z ∈ aT.places w.1 ∧ y ∈ aH.places w.2.1 ∧ x ∈ aW.places w.2.2 := by
  simp [points]

/-- A clipped window stays in its slice. -/
theorem inputCell_mem (k : Nat) {w : Window} {p : Int × Int × Int}
    (hp : p ∈ points aT aW aH w) :
    inputCell aT aW aH k p ∈
      cellsFrom (k * inLength aT aW aH : Nat) (inLength aT aW aH) := by
  obtain ⟨z, y, x⟩ := p
  obtain ⟨hz, hy, hx⟩ := mem_points.mp hp
  obtain ⟨hz, hzlt⟩ := PoolAxis.bounds_of_mem_places hz
  obtain ⟨hy, hylt⟩ := PoolAxis.bounds_of_mem_places hy
  obtain ⟨hx, hxlt⟩ := PoolAxis.bounds_of_mem_places hx
  obtain ⟨z, rfl⟩ := Int.eq_ofNat_of_zero_le hz
  obtain ⟨y, rfl⟩ := Int.eq_ofNat_of_zero_le hy
  obtain ⟨x, rfl⟩ := Int.eq_ofNat_of_zero_le hx
  have hlt := mul_add_lt (mul_add_lt (Int.ofNat_lt.mp hzlt) (Int.ofNat_lt.mp hylt))
    (Int.ofNat_lt.mp hxlt)
  have hcell : z * aW.input * aH.input + y * aW.input + x =
      (z * aH.input + y) * aW.input + x := by ring
  have hlength : inLength aT aW aH = aT.input * aH.input * aW.input := by
    rw [inLength]
    ring
  rw [← hcell, ← hlength] at hlt
  rw [mem_cellsFrom, inputCell]
  norm_cast
  omega

theorem outputCell_mem (k : Nat) {v : Window × Nat} (hv : v ∈ windows aT aW aH) :
    outputCell aT aW aH k v.2 ∈
      cellsFrom (k * outLength aT aW aH : Nat) (outLength aT aW aH) := by
  have hlt : v.2 < aT.output * (aH.output * aW.output) := by
    simpa [List.length_product] using (List.mem_zipIdx hv).2.1
  have hlength : outLength aT aW aH = aT.output * (aH.output * aW.output) := by
    rw [outLength]
    ring
  rw [← hlength] at hlt
  rw [mem_cellsFrom, outputCell]
  omega

theorem footprint_mem (k : Nat) {v : (Window × Nat) × Int × Int × Int}
    (hv : v ∈ footprints aT aW aH) :
    inputCell aT aW aH k v.2 ∈
      cellsFrom (k * inLength aT aW aH : Nat) (inLength aT aW aH) := by
  obtain ⟨w, _, hw⟩ := List.mem_flatMap.mp hv
  obtain ⟨p, hp, rfl⟩ := List.mem_map.mp hw
  exact inputCell_mem k hp

end Cells

/-! ## The adjunction -/

section Spec

variable (aT aW aH : PoolAxis)

/-- Every window meets the input. -/
def WindowsMeetInput : Prop :=
  ∀ v ∈ windows aT aW aH, points aT aW aH v.1 ≠ []

/-- `_avgPool3D_bp` is the adjoint of `_avgPool3D`, and neither divides by zero. -/
structure IsAdjoint (K : Type*) [Field K] (nslices : Nat) (countIncludePad : Bool) : Prop where
  inner_eq : ∀ x g output gradInput : Int → K,
    innerProduct (cells (nslices * outLength aT aW aH))
        (avgPool3D aT aW aH nslices countIncludePad x output) g =
      innerProduct (cells (nslices * inLength aT aW aH)) x
        (avgPool3DBp aT aW aH nslices countIncludePad g gradInput)
  factor_pos : ∀ v ∈ windows aT aW aH, 0 < divideFactor aT aW aH countIncludePad v.1
  factor_ne_zero : CharZero K →
    ∀ v ∈ windows aT aW aH, (divideFactor aT aW aH countIncludePad v.1 : K) ≠ 0

variable {aT aW aH}

/-- Windows that meet the input have positive sizes. -/
theorem divideFactor_pos {w : Window} (hw : points aT aW aH w ≠ []) (countIncludePad : Bool) :
    0 < divideFactor aT aW aH countIncludePad w := by
  obtain ⟨⟨z, y, x⟩, hp⟩ := List.exists_mem_of_ne_nil _ hw
  obtain ⟨hz, hy, hx⟩ := mem_points.mp hp
  have hT := PoolAxis.extents_pos hz
  have hH := PoolAxis.extents_pos hy
  have hW := PoolAxis.extents_pos hx
  rw [divideFactor]
  split
  · exact Int.mul_pos (Int.mul_pos hT.1 hH.1) hW.1
  · exact Int.mul_pos (Int.mul_pos hT.2 hH.2) hW.2

/-- What a window adds to the inner products. -/
theorem window_sum {K : Type*} [Field K] (x : Int → K) (g : K) (divisor : K)
    (cell : Int × Int × Int → Int) (footprint : List (Int × Int × Int)) :
    (footprint.map fun p => x (cell p)).sum / divisor * g =
      (footprint.map fun p => g / divisor * x (cell p)).sum := by
  rw [List.sum_map_mul_left, div_mul_eq_mul_div, div_mul_eq_mul_div, mul_comm g]

/-- The two are adjoint, and neither divides by zero. -/
theorem isAdjoint_avgPool3D (K : Type*) [Field K] (nslices : Nat) (countIncludePad : Bool)
    (hmeet : WindowsMeetInput aT aW aH) : IsAdjoint aT aW aH K nslices countIncludePad where
  inner_eq := by
    intro x g output gradInput
    rw [innerProduct_comm _ x, avgPool3D, innerProduct_zeroedPass fun k v => outputCell_mem k,
      avgPool3DBp, innerProduct_zeroedPass fun k v => footprint_mem k]
    refine congrArg List.sum (List.map_congr_left fun k _ => ?_)
    rw [footprints, sum_flatMap]
    refine congrArg List.sum (List.map_congr_left fun v _ => ?_)
    rw [List.map_map]
    exact window_sum x _ _ _ _
  factor_pos := fun v hv => divideFactor_pos (hmeet v hv) countIncludePad
  factor_ne_zero := fun _ v hv =>
    Int.cast_ne_zero.mpr (divideFactor_pos (hmeet v hv) countIncludePad).ne'

end Spec

/-- Windows of two with a stride of two over a padded input of two. -/
def paddedPair : PoolAxis where
  input := 2
  output := 2
  kernel := 2
  stride := 2
  padding := 1

theorem isAdjoint_avgPool3D_paddedPair :
    WindowsMeetInput paddedPair paddedPair paddedPair ∧
      IsAdjoint paddedPair paddedPair paddedPair ℚ 3 true :=
  have hmeet : WindowsMeetInput paddedPair paddedPair paddedPair := by
    unfold WindowsMeetInput
    decide
  ⟨hmeet, isAdjoint_avgPool3D ℚ 3 true hmeet⟩

end Convolutions
end LibND4J
