import LibND4J.Library.Accumulation
import Mathlib.Tactic.Ring

/-!
# Volumes and columns

`_vol2col` copies the windows of a volume to the columns of a matrix, and `_col2vol`
adds the columns up in the volume.  Both decode a row of the matrix to a channel and a place in
the kernel; `_vol2col` computes how many windows there are, `_col2vol` is told.

Main results:

- Theorem `map_colIndex`: the loops run through the cells of the matrix in order.
- Theorem `volIndex_bounds`: a place inside the volume is in its buffer.
- Theorem `adjoint_iff`: the two are adjoint and stay inside their buffers exactly if every
  output padding is smaller than its stride.
-/

namespace LibND4J
namespace Convolutions

open Stores Accumulation

/-! ## The loops -/

/-- One axis of a volume, with the kernel that is moved along it. -/
structure Axis where
  size : Nat
  kernel : Nat
  padding : Int
  stride : Nat
  dilation : Nat
deriving DecidableEq, Repr

/-- The number of windows that `_vol2col` computes. -/
def Axis.colSize (a : Axis) : Int :=
  (a.size + 2 * a.padding - (a.dilation * ((a.kernel : Int) - 1) + 1)).tdiv a.stride + 1

/-- The place in the volume of a place in the kernel. -/
def Axis.pad (a : Axis) (i offset : Nat) : Int :=
  i * a.stride - a.padding + offset * a.dilation

/-- The counters `c`, `t`, `h` and `w` of the loops. -/
abbrev Step := Nat × Nat × Nat × Nat

section Loops

variable (channels : Nat) (aT aH aW : Axis)

/-- `channels_col`. -/
def channelsCol : Nat :=
  channels * aT.kernel * aH.kernel * aW.kernel

/-- The loop nest. -/
def steps (depthCol heightCol widthCol : Nat) : List Step :=
  List.range (channelsCol channels aT aH aW) ×ˢ List.range depthCol ×ˢ List.range heightCol ×ˢ
    List.range widthCol

/-- The cell of the matrix. -/
def colIndex (depthCol heightCol widthCol : Nat) (s : Step) : Nat :=
  let (c, t, h, w) := s
  ((c * depthCol + t) * heightCol + h) * widthCol + w

/-- `c_vol`. -/
def volChannel (s : Step) : Nat :=
  s.1 / aT.kernel / aH.kernel / aW.kernel

/-- `t_pad`, `h_pad` and `w_pad`. -/
def volPlace (s : Step) : Int × Int × Int :=
  let (c, t, h, w) := s
  let wOffset := c % aW.kernel
  let hOffset := c / aW.kernel % aH.kernel
  let tOffset := c / aW.kernel / aH.kernel % aT.kernel
  (aT.pad t tOffset, aH.pad h hOffset, aW.pad w wOffset)

/-- The place is inside the volume. -/
def inVolume (s : Step) : Bool :=
  let (tPad, hPad, wPad) := volPlace aT aH aW s
  tPad ≥ 0 ∧ tPad < aT.size ∧ hPad ≥ 0 ∧ hPad < aH.size ∧ wPad ≥ 0 ∧ wPad < aW.size

/-- The cell of the volume. -/
def volIndex (s : Step) : Int :=
  let (tPad, hPad, wPad) := volPlace aT aH aW s
  ((volChannel aT aH aW s * aT.size + tPad) * aH.size + hPad) * aW.size + wPad

variable {T : Type} [CommRing T]

/-- `_vol2col`. -/
def vol2col (dataVol dataCol : Int → T) : Int → T :=
  let depthCol := aT.colSize.toNat
  let heightCol := aH.colSize.toNat
  let widthCol := aW.colSize.toNat
  storeAll (fun s => (colIndex depthCol heightCol widthCol s : Int))
    (fun s _ => if inVolume aT aH aW s then dataVol (volIndex aT aH aW s) else 0)
    (steps channels aT aH aW depthCol heightCol widthCol) dataCol

/-- `_col2vol`. -/
def col2vol (outDepth outHeight outWidth : Nat) (dataCol dataVol : Int → T) : Int → T :=
  let zeroed := zeroFrom 0 (aT.size * aH.size * aW.size * channels) dataVol
  addAll (volIndex aT aH aW) (fun s => dataCol (colIndex outDepth outHeight outWidth s))
    ((steps channels aT aH aW outDepth outHeight outWidth).filter (inVolume aT aH aW)) zeroed

end Loops

/-! ## The cells -/

section Cells

variable {channels : Nat} {aT aH aW : Axis}

/-- The loops run through the cells of the matrix in order. -/
theorem map_colIndex (depthCol heightCol widthCol : Nat) :
    (steps channels aT aH aW depthCol heightCol widthCol).map
        (fun s => (colIndex depthCol heightCol widthCol s : Int)) =
      cells (channelsCol channels aT aH aW * (depthCol * (heightCol * widthCol))) := by
  have hnest := map_product_range (map_product_range (map_product_range
    (map_range_id widthCol) heightCol) depthCol) (channelsCol channels aT aH aW)
  rw [cells, ← hnest, List.map_map, steps]
  refine List.map_congr_left fun s _ => ?_
  simp only [Function.comp_apply, Nat.cast_inj, colIndex]
  ring

variable {depthCol widthCol : Nat} {s : Step}

theorem mem_steps {heightCol : Nat} :
    s ∈ steps channels aT aH aW depthCol heightCol widthCol ↔
      s.1 < channelsCol channels aT aH aW ∧ s.2.1 < depthCol ∧ s.2.2.1 < heightCol ∧
        s.2.2.2 < widthCol := by
  obtain ⟨c, t, h, w⟩ := s
  simp [steps]

theorem volChannel_lt {heightCol : Nat}
    (hs : s ∈ steps channels aT aH aW depthCol heightCol widthCol) :
    volChannel aT aH aW s < channels := by
  have hc := (mem_steps.mp hs).1
  rw [volChannel, Nat.div_div_eq_div_mul, Nat.div_div_eq_div_mul]
  apply Nat.div_lt_of_lt_mul
  calc s.1 < channels * aT.kernel * aH.kernel * aW.kernel := hc
    _ = aT.kernel * (aH.kernel * aW.kernel) * channels := by ring

/-- A place inside the volume is in its buffer. -/
theorem volIndex_bounds {heightCol : Nat}
    (hs : s ∈ steps channels aT aH aW depthCol heightCol widthCol)
    (hinside : inVolume aT aH aW s = true) :
    volIndex aT aH aW s ∈ cells (aT.size * aH.size * aW.size * channels) := by
  have hchannel := volChannel_lt hs
  simp only [inVolume, decide_eq_true_eq] at hinside
  obtain ⟨ht, htlt, hh, hhlt, hw, hwlt⟩ := hinside
  rw [mem_cells, volIndex]
  generalize volPlace aT aH aW s = place at *
  obtain ⟨tPad, hPad, wPad⟩ := place
  obtain ⟨t, rfl⟩ := Int.eq_ofNat_of_zero_le ht
  obtain ⟨h, rfl⟩ := Int.eq_ofNat_of_zero_le hh
  obtain ⟨w, rfl⟩ := Int.eq_ofNat_of_zero_le hw
  have htlt : t < aT.size := Int.ofNat_lt.mp htlt
  have hhlt : h < aH.size := Int.ofNat_lt.mp hhlt
  have hwlt : w < aW.size := Int.ofNat_lt.mp hwlt
  have hlt := mul_add_lt (mul_add_lt (mul_add_lt hchannel htlt) hhlt) hwlt
  simp only
  constructor
  · exact_mod_cast Nat.zero_le _
  · calc (((volChannel aT aH aW s * aT.size + t) * aH.size + h) * aW.size + w : Int)
        < ((channels * aT.size * aH.size * aW.size : Nat) : Int) := by exact_mod_cast hlt
      _ = ((aT.size * aH.size * aW.size * channels : Nat) : Int) := by
        push_cast
        ring

end Cells

/-! ## What is added up -/

section Sums

variable {T : Type} [CommRing T] (channels : Nat) (aT aH aW : Axis)
  (outDepth outHeight outWidth : Nat) (dataCol dataVol : Int → T)

variable {i : Int}

/-- A cell of the volume is the sum of the cells of the matrix that are added to it. -/
theorem col2vol_apply (hi : i ∈ cells (aT.size * aH.size * aW.size * channels)) :
    col2vol channels aT aH aW outDepth outHeight outWidth dataCol dataVol i =
      (((steps channels aT aH aW outDepth outHeight outWidth).filter (inVolume aT aH aW)).map
        fun s => if volIndex aT aH aW s = i then dataCol (colIndex outDepth outHeight outWidth s)
          else 0).sum := by
  rw [mem_cells] at hi
  rw [col2vol, addAll_apply, zeroFrom_of_mem (mem_cellsFrom.mpr (by rwa [zero_add])), zero_add]

/-- All other cells stay as they are. -/
theorem col2vol_of_outside (hi : i ∉ cells (aT.size * aH.size * aW.size * channels)) :
    col2vol channels aT aH aW outDepth outHeight outWidth dataCol dataVol i = dataVol i := by
  have hzero : i ∉ cellsFrom 0 (aT.size * aH.size * aW.size * channels) := by
    rw [mem_cells] at hi
    rwa [mem_cellsFrom, zero_add]
  rw [col2vol, addAll_of_not_written, zeroFrom_of_not_mem hzero]
  rintro s hs rfl
  obtain ⟨hs, hinside⟩ := List.mem_filter.mp hs
  exact hi (volIndex_bounds hs hinside)

/-- Only the cells of the matrix matter. -/
theorem col2vol_congr {dataCol' : Int → T} (dataVol' : Int → T)
    (h : ∀ q < channelsCol channels aT aH aW * (outDepth * (outHeight * outWidth)),
      dataCol (q : Nat) = dataCol' (q : Nat))
    (hi : i ∈ cells (aT.size * aH.size * aW.size * channels)) :
    col2vol channels aT aH aW outDepth outHeight outWidth dataCol dataVol i =
      col2vol channels aT aH aW outDepth outHeight outWidth dataCol' dataVol' i := by
  rw [col2vol_apply _ _ _ _ _ _ _ _ _ hi, col2vol_apply _ _ _ _ _ _ _ _ _ hi]
  refine congrArg List.sum (List.map_congr_left fun s hs => ?_)
  have hcell : (colIndex outDepth outHeight outWidth s : Int) ∈
      cells (channelsCol channels aT aH aW * (outDepth * (outHeight * outWidth))) := by
    rw [← map_colIndex]
    exact List.mem_map_of_mem (List.mem_of_mem_filter hs)
  rw [h _ (by exact_mod_cast (mem_cells.mp hcell).2)]

/-- The inner product with what is added up, over the steps inside the volume. -/
theorem innerProduct_col2vol (other : Int → T) :
    innerProduct (cells (aT.size * aH.size * aW.size * channels))
        (col2vol channels aT aH aW outDepth outHeight outWidth dataCol dataVol) other =
      (((steps channels aT aH aW outDepth outHeight outWidth).filter (inVolume aT aH aW)).map
        fun s => dataCol (colIndex outDepth outHeight outWidth s) *
          other (volIndex aT aH aW s)).sum := by
  refine innerProduct_addAll_zero (nodup_cells _) (fun s hs => ?_) _ (fun i hi => ?_) other
  · obtain ⟨hs, hinside⟩ := List.mem_filter.mp hs
    exact volIndex_bounds hs hinside
  · rw [mem_cells] at hi
    exact zeroFrom_of_mem (mem_cellsFrom.mpr (by rwa [zero_add])) dataVol

end Sums

/-! ## The calls -/

/-- An axis of the volume that `fullconv3d` computes from its input: its checks, and the extent
that follows from the output padding. -/
structure CallerAxis extends Axis where
  input : Nat
  outPad : Nat
  size_pos : 0 < size
  kernel_pos : 0 < kernel
  stride_pos : 0 < stride
  dilation_pos : 0 < dilation
  input_pos : 0 < input
  outPad_lt : outPad < stride ∨ outPad < dilation
  size_eq : (size : Int) =
    (input - 1) * stride - 2 * padding + (dilation * ((kernel : Int) - 1) + 1) + outPad

/-- `_vol2col` finds more windows than the input has elements when the output padding holds a
stride. -/
theorem CallerAxis.toNat_colSize (a : CallerAxis) :
    a.colSize.toNat = a.input + a.outPad / a.stride := by
  have hnumerator : (a.size : Int) + 2 * a.padding - (a.dilation * ((a.kernel : Int) - 1) + 1) =
      (((a.input - 1) * a.stride + a.outPad : Nat) : Int) := by
    have hinput := a.input_pos
    rw [a.size_eq]
    push_cast [Nat.cast_sub (show 1 ≤ a.input from hinput)]
    ring
  have hquotient : ((a.input - 1) * a.stride + a.outPad) / a.stride =
      a.input - 1 + a.outPad / a.stride := by
    rw [Nat.add_comm, Nat.add_mul_div_right _ _ a.stride_pos, Nat.add_comm]
  have hinput := a.input_pos
  rw [Axis.colSize, hnumerator, ← Int.ofNat_tdiv, hquotient]
  generalize a.outPad / a.stride = extra
  omega

theorem CallerAxis.input_le_colSize (a : CallerAxis) : a.input ≤ a.colSize.toNat := by
  rw [a.toNat_colSize]
  exact Nat.le_add_right _ _

theorem CallerAxis.colSize_eq_input_iff (a : CallerAxis) :
    a.colSize.toNat = a.input ↔ a.outPad < a.stride := by
  rw [a.toNat_colSize, Nat.add_eq_left, Nat.div_eq_zero_iff]
  have hstride := a.stride_pos
  omega

section Calls

variable (channels : Nat) (aT aH aW : CallerAxis)

/-- The length of the matrix: a column for each element of the input. -/
def colLength : Nat :=
  channelsCol channels aT.toAxis aH.toAxis aW.toAxis * (aT.input * (aH.input * aW.input))

/-- The length of the volume. -/
def volLength : Nat :=
  aT.size * aH.size * aW.size * channels

/-- The accesses of loops over so many windows stay inside the buffers. -/
def StaysInside (depthCol heightCol widthCol : Nat) : Prop :=
  ∀ s ∈ steps channels aT.toAxis aH.toAxis aW.toAxis depthCol heightCol widthCol,
    (colIndex depthCol heightCol widthCol s : Int) ∈ cells (colLength channels aT aH aW) ∧
      (inVolume aT.toAxis aH.toAxis aW.toAxis s = true →
        volIndex aT.toAxis aH.toAxis aW.toAxis s ∈ cells (volLength channels aT aH aW))

/-- `_col2vol` is the adjoint of `_vol2col`, and both stay inside their buffers. -/
structure Adjoint (T : Type) [CommRing T] : Prop where
  inner_eq : ∀ dataVol dataCol newCol newVol : Int → T,
    innerProduct (cells (colLength channels aT aH aW))
        (vol2col channels aT.toAxis aH.toAxis aW.toAxis dataVol newCol) dataCol =
      innerProduct (cells (volLength channels aT aH aW)) dataVol
        (col2vol channels aT.toAxis aH.toAxis aW.toAxis aT.input aH.input aW.input dataCol newVol)
  vol2col_inside : StaysInside channels aT aH aW aT.colSize.toNat aH.colSize.toNat
    aW.colSize.toNat
  col2vol_inside : StaysInside channels aT aH aW aT.input aH.input aW.input

end Calls

section Spec

variable {channels : Nat} {aT aH aW : CallerAxis}

theorem staysInside_input : StaysInside channels aT aH aW aT.input aH.input aW.input := by
  intro s hs
  refine ⟨?_, volIndex_bounds hs⟩
  rw [colLength, ← map_colIndex]
  exact List.mem_map_of_mem hs

/-- The inner products over the same loops. -/
theorem innerProduct_eq {T : Type} [CommRing T] (hT : aT.colSize.toNat = aT.input)
    (hH : aH.colSize.toNat = aH.input) (hW : aW.colSize.toNat = aW.input)
    (dataVol dataCol newCol newVol : Int → T) :
    innerProduct (cells (colLength channels aT aH aW))
        (vol2col channels aT.toAxis aH.toAxis aW.toAxis dataVol newCol) dataCol =
      innerProduct (cells (volLength channels aT aH aW)) dataVol
        (col2vol channels aT.toAxis aH.toAxis aW.toAxis aT.input aH.input aW.input dataCol
          newVol) := by
  have hcells := nodup_cells (colLength channels aT aH aW)
  rw [colLength, ← map_colIndex] at hcells ⊢
  have hcol2vol := innerProduct_col2vol channels aT.toAxis aH.toAxis aW.toAxis aT.input aH.input
    aW.input dataCol newVol dataVol
  rw [← volLength] at hcol2vol
  rw [vol2col, hT, hH, hW, innerProduct_storeAll hcells, innerProduct_comm _ dataVol, hcol2vol,
    sum_map_filter]
  refine congrArg List.sum (List.map_congr_left fun s _ => ?_)
  split
  · exact mul_comm _ _
  · exact zero_mul _

/-- Factors that are not smaller, with a product that is not greater, are equal. -/
theorem eq_of_mul_le {a b a' b' : Nat} (ha : 0 < a) (hb : 0 < b) (haa' : a ≤ a') (hbb' : b ≤ b')
    (h : a' * b' ≤ a * b) : a' = a ∧ b' = b := by
  constructor
  · by_contra hne
    have hlt : a * b < a' * b := Nat.mul_lt_mul_of_pos_right (by omega) hb
    have hle : a' * b ≤ a' * b' := Nat.mul_le_mul_left a' hbb'
    omega
  · by_contra hne
    have hlt : a * b < a * b' := Nat.mul_lt_mul_of_pos_left (by omega) ha
    have hle : a * b' ≤ a' * b' := Nat.mul_le_mul_right b' haa'
    omega

/-- Loops over more windows leave the matrix. -/
theorem StaysInside.colSize_eq (hchannels : 0 < channels)
    (h : StaysInside channels aT aH aW aT.colSize.toNat aH.colSize.toNat aW.colSize.toNat) :
    aT.colSize.toNat = aT.input ∧ aH.colSize.toNat = aH.input ∧ aW.colSize.toNat = aW.input := by
  have hT := aT.input_le_colSize
  have hH := aH.input_le_colSize
  have hW := aW.input_le_colSize
  have hTpos := aT.input_pos
  have hHpos := aH.input_pos
  have hWpos := aW.input_pos
  have hrows : 0 < channelsCol channels aT.toAxis aH.toAxis aW.toAxis :=
    Nat.mul_pos (Nat.mul_pos (Nat.mul_pos hchannels aT.kernel_pos) aH.kernel_pos) aW.kernel_pos
  set written := channelsCol channels aT.toAxis aH.toAxis aW.toAxis *
    (aT.colSize.toNat * (aH.colSize.toNat * aW.colSize.toNat)) with hwritten
  -- the last cell that is written
  have hpos : 0 < written := Nat.mul_pos hrows
    (Nat.mul_pos (by omega) (Nat.mul_pos (by omega) (by omega)))
  have hlast : ((written - 1 : Nat) : Int) ∈ cells written := mem_cells.mpr (by omega)
  rw [hwritten, ← map_colIndex] at hlast
  obtain ⟨s, hs, hcell⟩ := List.mem_map.mp hlast
  have hinside := (mem_cells.mp (h s hs).1).2
  rw [hcell] at hinside
  have hle : aT.colSize.toNat * (aH.colSize.toNat * aW.colSize.toNat) ≤
      aT.input * (aH.input * aW.input) := by
    refine Nat.le_of_mul_le_mul_left ?_ hrows
    rw [colLength] at hinside
    omega
  have houter := eq_of_mul_le hTpos (Nat.mul_pos hHpos hWpos) hT (Nat.mul_le_mul hH hW) hle
  have hinner := eq_of_mul_le hHpos hWpos hH hW houter.2.le
  exact ⟨houter.1, hinner⟩

/-- The two are adjoint and stay inside their buffers exactly if every output padding is smaller
than its stride. -/
theorem adjoint_iff (T : Type) [CommRing T] (hchannels : 0 < channels) :
    Adjoint channels aT aH aW T ↔
      aT.outPad < aT.stride ∧ aH.outPad < aH.stride ∧ aW.outPad < aW.stride := by
  rw [← aT.colSize_eq_input_iff, ← aH.colSize_eq_input_iff, ← aW.colSize_eq_input_iff]
  constructor
  · intro h
    exact h.vol2col_inside.colSize_eq hchannels
  · rintro ⟨hT, hH, hW⟩
    refine ⟨innerProduct_eq hT hH hW, ?_, staysInside_input⟩
    rw [hT, hH, hW]
    exact staysInside_input

end Spec

/-- An axis without output padding. -/
def unitAxis : CallerAxis where
  size := 1
  kernel := 1
  padding := 0
  stride := 1
  dilation := 1
  input := 1
  outPad := 0
  size_pos := Nat.one_pos
  kernel_pos := Nat.one_pos
  stride_pos := Nat.one_pos
  dilation_pos := Nat.one_pos
  input_pos := Nat.one_pos
  outPad_lt := Or.inl Nat.one_pos
  size_eq := rfl

/-- A dilation of two with an output padding of one. -/
def dilatedAxis : CallerAxis where
  size := 4
  kernel := 2
  padding := 0
  stride := 1
  dilation := 2
  input := 1
  outPad := 1
  size_pos := by decide
  kernel_pos := Nat.two_pos
  stride_pos := Nat.one_pos
  dilation_pos := Nat.two_pos
  input_pos := Nat.one_pos
  outPad_lt := Or.inr (by decide)
  size_eq := rfl

theorem adjoint_iff_unitAxis : Adjoint 1 unitAxis unitAxis unitAxis ℤ :=
  (adjoint_iff ℤ Nat.one_pos).mpr ⟨Nat.one_pos, Nat.one_pos, Nat.one_pos⟩

/-- The two are not always adjoint: an output padding that passes the check for its dilation
makes `_vol2col` write more windows than the matrix has columns. -/
theorem not_adjoint_always :
    ¬ ∀ (channels : Nat) (aT aH aW : CallerAxis), 0 < channels → Adjoint channels aT aH aW ℤ := by
  intro h
  have hadjoint := h 1 dilatedAxis unitAxis unitAxis Nat.one_pos
  have hinside := (hadjoint.vol2col_inside (1, 1, 0, 0) (by decide)).1
  exact absurd hinside (by decide)

end Convolutions
end LibND4J
