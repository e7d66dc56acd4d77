import LibND4J.Arrays.Operations
import LibND4J.Convolutions.Im2Col

/-!
# Columns of padded images

`Im2col::execSpecial` once more, with the parameters as it reads them: the padding that
`_calcPadding2D` computes can be negative, so that the first window starts inside the image.

Main results:

- Theorem `im2Col_eq_im2col`: for a padding that is no less than zero it is the routine of
  the adjunction.
- Theorem `im2col_apply`: a column holds the pixel at its place, or zero outside the image.
-/

namespace LibND4J
namespace Convolutions

open Strided Stores Shape Arrays

/-! ## The routine -/

/-- The parameters of `Im2col` along one axis. -/
structure AxisParams where
  kernel : Nat
  stride : Int
  padding : Int
  dilation : Int
deriving DecidableEq, Repr

namespace AxisParams

/-- `h_offset` and `w_offset`. -/
def offset (a : AxisParams) (col : Nat) : Int :=
  col * a.stride - a.padding

/-- `h_im` and `w_im`. -/
def place (a : AxisParams) (col i : Nat) : Int :=
  a.offset col + i * a.dilation

/-- Different windows put a tap at different places. -/
theorem place_inj {a : AxisParams} (hstride : 0 < a.stride) {col col' i : Nat} :
    a.place col i = a.place col' i ↔ col = col' := by
  refine ⟨fun h => ?_, fun h => by rw [h]⟩
  have hmul : (col : Int) * a.stride = col' * a.stride := by
    simp only [place, offset] at h
    linarith
  exact Int.ofNat_inj.mp (mul_right_cancel₀ hstride.ne' hmul)

end AxisParams

section Loops

variable {T : Type} [Zero T] (aH aW : AxisParams) (x result : ShapeInfo)

/-- The cell that a step writes. -/
def im2colCell (v : Nat × Nat × Nat) : Int :=
  let (index, i, j) := v
  let heightCol := result.shape.getD 4 0
  let widthCol := result.shape.getD 5 0
  let hIndex := index / widthCol
  let hCol := hIndex % heightCol
  let wCol := index % widthCol
  let cIm := hIndex / heightCol
  let cCol := cIm * (aW.kernel * aH.kernel)
  elementIndex result
    ((cCol * heightCol + hCol) * widthCol + wCol + (i * aW.kernel + j) * (heightCol * widthCol))

/-- The value that a step writes. -/
def im2colValue (dx : Int → T) (v : Nat × Nat × Nat) : T :=
  let (index, i, j) := v
  let heightCol := result.shape.getD 4 0
  let widthCol := result.shape.getD 5 0
  let depth := x.shape.getD 1 0
  let height := x.shape.getD 2 0
  let width := x.shape.getD 3 0
  let strideex := x.stride.getD 0 0
  let stridech := x.stride.getD 1 0
  let strideh := x.stride.getD 2 0
  let stridew := x.stride.getD 3 0
  let hIndex := index / widthCol
  let hCol := hIndex % heightCol
  let wCol := index % widthCol
  let cIm := hIndex / heightCol
  let dataIm := (cIm / depth : Nat) * strideex + (cIm % depth : Nat) * stridech +
    aH.offset hCol * strideh + aW.offset wCol * stridew
  let hIm := aH.place hCol i
  let wIm := aW.place wCol j
  if hIm ≥ 0 ∧ wIm ≥ 0 ∧ hIm < height ∧ wIm < width then
    dx (dataIm + (i * aH.dilation * strideh + j * aW.dilation * stridew))
  else 0

/-- `Im2col::execSpecial`, with the iterations of the parallel loop in the order of `schedule`. -/
def im2col (schedule : List Nat) (dx memory : Int → T) : Int → T :=
  storeAll (im2colCell aH aW result) (fun v _ => im2colValue aH aW x result dx v)
    (schedule ×ˢ List.range aH.kernel ×ˢ List.range aW.kernel) memory

end Loops

/-- The parameters of an axis whose padding is no less than zero. -/
def ImageAxis.params (a : ImageAxis) : AxisParams :=
  ⟨a.kernel, a.stride, a.padding, a.dilation⟩

/-- For a padding that is no less than zero it is the same routine. -/
theorem im2Col_eq_im2col {T : Type} [CommRing T] (aH aW : ImageAxis) (x result : ShapeInfo)
    (schedule : List Nat) (dx memory : Int → T) :
    im2Col aH aW x result schedule dx memory =
      im2col aH.params aW.params x result schedule dx memory :=
  rfl

/-! ## What it leaves -/

/-- The pixel at a place, or zero outside the image. -/
def pixelAt {T : Type} [Zero T] (x : NDArray T) (n d : Nat) (h w : Int) : T :=
  if 0 ≤ h ∧ 0 ≤ w ∧ h < x.shapeInfo.shape.getD 2 0 ∧ w < x.shapeInfo.shape.getD 3 0 then
    x.element [n, d, h.toNat, w.toNat]
  else 0

/-- The pixels of an image with one that is not zero. -/
theorem pixelAt_single {T : Type} [Zero T] {samples depth height width n₀ d₀ h₀ w₀ n d : Nat}
    (hn₀ : n₀ < samples) (hd₀ : d₀ < depth) (hh₀ : h₀ < height) (hw₀ : w₀ < width)
    (hn : n < samples) (hd : d < depth) (h w : Int) (v : T) :
    pixelAt ⟨shapeBuffer [samples, depth, height, width],
        Pi.single (encode [samples, depth, height, width] [n₀, d₀, h₀, w₀] : Int) v⟩ n d h w =
      if n = n₀ ∧ d = d₀ ∧ h = h₀ ∧ w = w₀ then v else 0 := by
  rw [pixelAt, shape_shapeBuffer]
  simp only [List.getD_cons_succ, List.getD_cons_zero]
  split
  · rename_i hinside
    obtain ⟨h, rfl⟩ := Int.eq_ofNat_of_zero_le hinside.1
    obtain ⟨w, rfl⟩ := Int.eq_ofNat_of_zero_le hinside.2.1
    have hc : InBox [samples, depth, height, width] [n, d, h, w] :=
      inBox_four.mpr ⟨n, d, h, w, rfl, hn, hd, Int.ofNat_lt.mp hinside.2.2.1,
        Int.ofNat_lt.mp hinside.2.2.2⟩
    rw [Int.toNat_natCast, Int.toNat_natCast, element_single hc
      (inBox_four.mpr ⟨n₀, d₀, h₀, w₀, rfl, hn₀, hd₀, hh₀, hw₀⟩)]
    simp only [List.cons.injEq, and_true, Nat.cast_inj]
  · rename_i houtside
    rw [if_neg]
    rintro ⟨-, -, rfl, rfl⟩
    exact houtside ⟨Int.natCast_nonneg _, Int.natCast_nonneg _, Int.ofNat_lt.mpr hh₀,
      Int.ofNat_lt.mpr hw₀⟩

section Columns

variable {T : Type} [Zero T] {aH aW : AxisParams} {x : NDArray T} {result : ShapeInfo}
  {samples depth height width heightCol widthCol : Nat}

variable {n d wCol : Nat}

/-- A step writes the cell of its coordinate. -/
theorem im2colCell_eq
    (hresult : result.shape = [samples, depth, aH.kernel, aW.kernel, heightCol, widthCol])
    {i j hCol : Nat} (hc : InBox result.shape [n, d, i, j, hCol, wCol]) :
    im2colCell aH aW result
        (encode [samples, depth, heightCol, widthCol] [n, d, hCol, wCol], i, j) =
      dot [n, d, i, j, hCol, wCol] result.stride := by
  have hv : InBox [samples, depth, heightCol, widthCol] [n, d, hCol, wCol] := by
    rw [hresult] at hc
    obtain ⟨_, _, _, _, _, _, heq, hn, hd, -, -, hh, hw⟩ := inBox_six.mp hc
    simp only [List.cons.injEq, and_true] at heq
    obtain ⟨rfl, rfl, rfl, rfl, rfl, rfl⟩ := heq
    exact inBox_four.mpr ⟨n, d, hCol, wCol, rfl, hn, hd, hh, hw⟩
  obtain ⟨hn, hd, hh, hw⟩ := divisions_encode hv
  rw [← elementIndex_encode hc]
  generalize encode [samples, depth, heightCol, widthCol] [n, d, hCol, wCol] = index at *
  have hcIm : index / widthCol / heightCol = n * depth + d := by
    rw [← hn, ← hd, Nat.div_add_mod']
  simp only [im2colCell, hresult, List.getD_cons_succ, List.getD_cons_zero]
  rw [hcIm, hh, hw]
  congr 1
  simp only [encode, List.prod_cons, List.prod_nil]
  ring

variable (hx : x.shapeInfo.shape = [samples, depth, height, width])

include hx

/-- A step writes the pixel at its place. -/
theorem im2colValue_eq
    (hresult : result.shape = [samples, depth, aH.kernel, aW.kernel, heightCol, widthCol])
    {hCol : Nat} (hv : InBox [samples, depth, heightCol, widthCol] [n, d, hCol, wCol]) (i j : Nat) :
    im2colValue aH aW x.shapeInfo result x.buffer
        (encode [samples, depth, heightCol, widthCol] [n, d, hCol, wCol], i, j) =
      pixelAt x n d (aH.place hCol i) (aW.place wCol j) := by
  obtain ⟨_, _, _, _, heq, hnlt, hdlt, -, -⟩ := inBox_four.mp hv
  simp only [List.cons.injEq, and_true] at heq
  obtain ⟨rfl, rfl, -, -⟩ := heq
  obtain ⟨hn, hd, hh, hw⟩ := divisions_encode hv
  generalize encode [samples, depth, heightCol, widthCol] [n, d, hCol, wCol] = index at *
  obtain ⟨s₀, s₁, s₂, s₃, hstride⟩ := exists_stride_four hx
  simp only [im2colValue, pixelAt, hx, hresult, List.getD_cons_succ, List.getD_cons_zero, hn, hd,
    hh, hw]
  split
  · rename_i hinside
    obtain ⟨h, hH⟩ := Int.eq_ofNat_of_zero_le hinside.1
    obtain ⟨w, hW⟩ := Int.eq_ofNat_of_zero_le hinside.2.1
    rw [hH, hW] at hinside
    have hp : InBox x.shapeInfo.shape [n, d, h, w] := by
      rw [hx]
      exact inBox_four.mpr ⟨n, d, h, w, rfl, hnlt, hdlt, Int.ofNat_lt.mp hinside.2.2.1,
        Int.ofNat_lt.mp hinside.2.2.2⟩
    rw [hH, hW, Int.toNat_natCast, Int.toNat_natCast, element_eq hp, hstride]
    simp only [dot_cons, dot_nil_left, nsmul_eq_mul, ← hH, ← hW, AxisParams.place,
      List.getD_cons_succ, List.getD_cons_zero]
    congr 1
    ring
  · rfl

/-- A column holds the pixel at its place, or zero outside the image. -/
theorem im2col_apply
    (hresult : result.shape = [samples, depth, aH.kernel, aW.kernel, heightCol, widthCol])
    (hpos : ∀ e ∈ [samples, depth, heightCol, widthCol], 0 < e) (hapart : CellsApart result)
    {schedule : List Nat}
    (hschedule : schedule.Perm (List.range (samples * depth * heightCol * widthCol)))
    (memory : Int → T) {i j hCol : Nat} (hc : InBox result.shape [n, d, i, j, hCol, wCol]) :
    im2col aH aW x.shapeInfo result schedule x.buffer memory
        (dot [n, d, i, j, hCol, wCol] result.stride) =
      pixelAt x n d (aH.place hCol i) (aW.place wCol j) := by
  have hprod : [samples, depth, heightCol, widthCol].prod =
      samples * depth * heightCol * widthCol := by
    simp only [List.prod_cons, List.prod_nil]
    ring
  rw [← hprod] at hschedule
  refine storeAll_of_agree ?_ ?_ memory
  · refine ⟨(encode [samples, depth, heightCol, widthCol] [n, d, hCol, wCol], i, j), ?_,
      im2colCell_eq hresult hc⟩
    rw [hresult] at hc
    obtain ⟨_, _, _, _, _, _, heq, hn, hd, hi, hj, hh, hw⟩ := inBox_six.mp hc
    simp only [List.cons.injEq, and_true] at heq
    obtain ⟨rfl, rfl, rfl, rfl, rfl, rfl⟩ := heq
    have hv : InBox [samples, depth, heightCol, widthCol] [n, d, hCol, wCol] :=
      inBox_four.mpr ⟨n, d, hCol, wCol, rfl, hn, hd, hh, hw⟩
    have hlt := encode_lt hv
    simp only [List.mem_product, List.mem_range, hschedule.mem_iff]
    exact ⟨hlt, hi, hj⟩
  · rintro ⟨index, i', j'⟩ hstep hcell _
    simp only [List.mem_product, List.mem_range, hschedule.mem_iff] at hstep
    have hbox := inBox_decode hpos hstep.1
    obtain ⟨n', d', hCol', wCol', hdecode, hn, hd, hh, hw⟩ := inBox_four.mp hbox
    have hindex := encode_decode hpos hstep.1
    rw [hdecode] at hbox hindex
    rw [← hindex] at hcell ⊢
    have hc' : InBox result.shape [n', d', i', j', hCol', wCol'] := by
      rw [hresult]
      exact inBox_six.mpr ⟨n', d', i', j', hCol', wCol', rfl, hn, hd, hstep.2.1, hstep.2.2, hh, hw⟩
    rw [im2colCell_eq hresult hc'] at hcell
    have hsame := hapart _ _ hc' hc hcell
    simp only [List.cons.injEq, and_true] at hsame
    obtain ⟨rfl, rfl, rfl, rfl, rfl, rfl⟩ := hsame
    exact im2colValue_eq hx hresult hbox i' j'

end Columns

end Convolutions
end LibND4J
