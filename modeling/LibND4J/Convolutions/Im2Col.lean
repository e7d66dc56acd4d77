import LibND4J.Arrays.Reshapei
import LibND4J.Library.Accumulation

/-!
# Images and columns

`Im2col` copies the windows of an image to an array with two axes for the place in the
kernel and two for the window, and `Col2Im` adds them up in the image.  The first goes from
a window to the pixels it covers, the second from a pixel to the windows that cover it, by
divisions through the stride and the dilation.  The arrays can have any strides.

Main results:

- Theorem `mem_windows_iff`: the windows found for a pixel are those that cover it.
- Theorem `loopOffset_encode`: the offset of an element from its index.
- Theorem `arrayProduct_im2Col` and `arrayProduct_col2Im`: the inner products of what
  the two leave.
- Theorem `im2Col_adjoint`: the two are adjoint.
-/

namespace LibND4J
namespace Convolutions

open Strided Stores Accumulation Shape Arrays

/-! ## Windows of one axis -/

/-- The kernel along one axis of an image. -/
structure ImageAxis where
  kernel : Nat
  stride : Nat
  padding : Nat
  dilation : Nat
  kernel_pos : 0 < kernel
  stride_pos : 0 < stride
  dilation_pos : 0 < dilation

namespace ImageAxis

/-- `h_offset` and `w_offset`. -/
def windowOffset (a : ImageAxis) (col : Nat) : Int :=
  col * a.stride - a.padding

/-- `h_im` and `w_im` of `Im2col`. -/
def imagePlace (a : ImageAxis) (col i : Nat) : Int :=
  a.windowOffset col + i * a.dilation

/-- `kEffectiveH` and `kEffectiveW`. -/
def kEffective (a : ImageAxis) : Nat :=
  a.kernel + (a.kernel - 1) * (a.dilation - 1)

/-- `h_col_start` and `w_col_start`, for the padded place of a pixel. -/
def colStart (a : ImageAxis) (im : Nat) : Nat :=
  if im < a.kEffective then 0 else (im - a.kEffective) / a.stride + 1

/-- `h_col_end` and `w_col_end`. -/
def colEnd (a : ImageAxis) (im cols : Nat) : Nat :=
  min (im / a.stride + 1) cols

/-- `h_k` and `w_k`, before they are divided. -/
def kernelOffset (a : ImageAxis) (im col : Nat) : Int :=
  im - col * a.stride

/-- The loop over `h_col` or `w_col`, with its test. -/
def windows (a : ImageAxis) (im cols : Nat) : List Nat :=
  (List.range' (a.colStart im) (a.colEnd im cols - a.colStart im)).filter
    fun col => (a.kernelOffset im col).tmod a.dilation = 0

theorem kEffective_eq (a : ImageAxis) : a.kEffective = (a.kernel - 1) * a.dilation + 1 := by
  obtain ⟨k, hk⟩ := Nat.exists_eq_add_one_of_ne_zero a.kernel_pos.ne'
  obtain ⟨d, hd⟩ := Nat.exists_eq_add_one_of_ne_zero a.dilation_pos.ne'
  rw [kEffective, hk, hd]
  simp only [Nat.add_sub_cancel]
  ring

variable {im col : Nat}

/-- The loop bounds: a window starts at or before the pixel and reaches it. -/
theorem colStart_le_iff (a : ImageAxis) :
    a.colStart im ≤ col ↔ im < col * a.stride + a.kEffective := by
  rw [colStart]
  split
  · omega
  · rw [Nat.add_one_le_iff, Nat.div_lt_iff_lt_mul a.stride_pos]
    omega

theorem lt_colEnd_iff (a : ImageAxis) {cols : Nat} :
    col < a.colEnd im cols ↔ col * a.stride ≤ im ∧ col < cols := by
  rw [colEnd, lt_min_iff, Nat.lt_succ_iff, Nat.le_div_iff_mul_le a.stride_pos]

/-- The offset in the kernel of a pixel that a window covers. -/
theorem kernelOffset_eq (a : ImageAxis) {i : Nat} (h : col * a.stride + i * a.dilation = im) :
    a.kernelOffset im col = ((i * a.dilation : Nat) : Int) := by
  rw [kernelOffset]
  push_cast [← h]
  ring

/-- The place in the kernel. -/
theorem kernelOffset_tdiv (a : ImageAxis) {i : Nat} (h : col * a.stride + i * a.dilation = im) :
    (a.kernelOffset im col).tdiv a.dilation = i := by
  rw [a.kernelOffset_eq h, ← Int.ofNat_tdiv, Nat.mul_div_cancel _ a.dilation_pos]

/-- The windows found for a pixel are those that cover it. -/
theorem mem_windows_iff (a : ImageAxis) {cols : Nat} :
    col ∈ a.windows im cols ↔
      col < cols ∧ ∃ i < a.kernel, col * a.stride + i * a.dilation = im := by
  have hrange : col ∈ List.range' (a.colStart im) (a.colEnd im cols - a.colStart im) ↔
      im < col * a.stride + a.kEffective ∧ col * a.stride ≤ im ∧ col < cols := by
    rw [← a.colStart_le_iff, ← a.lt_colEnd_iff, List.mem_range'_1]
    omega
  rw [windows, List.mem_filter, hrange, kEffective_eq, decide_eq_true_eq]
  constructor
  · rintro ⟨⟨hlt, hle, hcol⟩, hmod⟩
    refine ⟨hcol, ?_⟩
    have hoffset : a.kernelOffset im col = ((im - col * a.stride : Nat) : Int) := by
      rw [kernelOffset]
      omega
    rw [hoffset, ← Int.ofNat_tmod, Int.natCast_eq_zero] at hmod
    obtain ⟨i, hi⟩ := Nat.dvd_of_mod_eq_zero hmod
    have hbound : a.dilation * i ≤ a.dilation * (a.kernel - 1) := by
      rw [Nat.mul_comm a.dilation (a.kernel - 1)]
      omega
    have hile := Nat.le_of_mul_le_mul_left hbound a.dilation_pos
    have hkernel := a.kernel_pos
    exact ⟨i, by omega, by rw [Nat.mul_comm i]; omega⟩
  · rintro ⟨hcol, i, hi, him⟩
    have hbound : i * a.dilation ≤ (a.kernel - 1) * a.dilation :=
      Nat.mul_le_mul_right _ (by omega)
    refine ⟨⟨by omega, by omega, hcol⟩, ?_⟩
    rw [a.kernelOffset_eq him, ← Int.ofNat_tmod, Nat.mul_mod_left]
    rfl

theorem nodup_windows (a : ImageAxis) (im cols : Nat) : (a.windows im cols).Nodup :=
  List.Nodup.filter _ List.nodup_range'

end ImageAxis

/-! ## Elements -/

/-- One step of the loop that decodes `i_c` to `i_f`. -/
def decodeStep (state : Int × Nat) (a : Nat × Int) : Int × Nat :=
  (state.1 + (state.2 % a.1 : Nat) * a.2, state.2 / a.1)

/-- `i_f`: the offset of the element with an index, decoded from the last dimension on. -/
def elementIndex (info : ShapeInfo) (index : Nat) : Int :=
  (info.axes.reverse.foldl decodeStep (0, index)).1

/-- What the decoding loop has done after it went through all axes. -/
theorem decodeLoop_eq (axes : List (Nat × Int)) (offset : Int) (index : Nat) :
    axes.reverse.foldl decodeStep (offset, index) =
      (offset + offsetAt axes (index % volume axes), index / volume axes) := by
  induction axes with
  | nil => simp
  | cons a axes ih =>
      rw [List.reverse_cons, List.foldl_append, ih, List.foldl_cons, List.foldl_nil, decodeStep,
        volume_cons, offsetAt_cons, Nat.mod_mul_left_div_self, Nat.mod_mul_left_mod,
        Nat.div_div_eq_div_mul, Nat.mul_comm (volume axes)]
      simp only [nsmul_eq_mul, Prod.mk.injEq, and_true]
      ring

/-- The offset of an element from its index. -/
theorem elementIndex_encode {info : ShapeInfo} {c : List Nat} (hc : InBox info.shape c) :
    elementIndex info (encode info.shape c) = dot c info.stride := by
  have hlt : encode info.shape c < volume info.axes := by
    rw [ShapeInfo.volume_axes]
    exact encode_lt hc
  rw [elementIndex, decodeLoop_eq, Nat.mod_eq_of_lt hlt, zero_add, offsetAt_eq_dot,
    ShapeInfo.dims_axes, ShapeInfo.map_snd_axes, decode_encode hc]

/-- The coordinates of a shape. -/
def coordinates (shape : List Nat) : List (List Nat) :=
  (List.range shape.prod).map (decode shape)

theorem mem_coordinates {shape c : List Nat} (hpos : ∀ d ∈ shape, 0 < d) :
    c ∈ coordinates shape ↔ InBox shape c := by
  rw [coordinates, List.mem_map]
  constructor
  · rintro ⟨k, hk, rfl⟩
    exact inBox_decode hpos (List.mem_range.mp hk)
  · intro hc
    exact ⟨encode shape c, List.mem_range.mpr (encode_lt hc), decode_encode hc⟩

theorem nodup_coordinates {shape : List Nat} (hpos : ∀ d ∈ shape, 0 < d) :
    (coordinates shape).Nodup :=
  List.Nodup.map_on
    (fun _ hj _ hk h => (bijOn_decode hpos).injOn (List.mem_range.mp hj) (List.mem_range.mp hk) h)
    List.nodup_range

/-- The inner product of two arrays of one shape. -/
def arrayProduct {T : Type} [CommRing T] (a : Int → T) (aInfo : ShapeInfo) (b : Int → T)
    (bInfo : ShapeInfo) : T :=
  ((coordinates aInfo.shape).map fun c => a (dot c aInfo.stride) * b (dot c bInfo.stride)).sum

variable {c a b d : Nat}

theorem inBox_four {cs : List Nat} :
    InBox [a, b, c, d] cs ↔
      ∃ n e h w, cs = [n, e, h, w] ∧ n < a ∧ e < b ∧ h < c ∧ w < d := by
  constructor
  · intro h
    match cs, h with
    | [n, e, h, w], .cons hn (.cons he (.cons hh (.cons hw .nil))) =>
        exact ⟨n, e, h, w, rfl, hn, he, hh, hw⟩
  · rintro ⟨n, e, h, w, rfl, hn, he, hh, hw⟩
    exact .cons hn (.cons he (.cons hh (.cons hw .nil)))

theorem inBox_six {e f : Nat} {cs : List Nat} :
    InBox [a, b, c, d, e, f] cs ↔
      ∃ n g i j h w, cs = [n, g, i, j, h, w] ∧ n < a ∧ g < b ∧ i < c ∧ j < d ∧ h < e ∧ w < f := by
  constructor
  · intro h
    match cs, h with
    | [n, g, i, j, h, w], .cons hn (.cons hg (.cons hi (.cons hj (.cons hh (.cons hw .nil))))) =>
        exact ⟨n, g, i, j, h, w, rfl, hn, hg, hi, hj, hh, hw⟩
  · rintro ⟨n, g, i, j, h, w, rfl, hn, hg, hi, hj, hh, hw⟩
    exact .cons hn (.cons hg (.cons hi (.cons hj (.cons hh (.cons hw .nil)))))

/-! ## The loops -/

section Loops

variable {T : Type} [CommRing T] (aH aW : ImageAxis) (x result : ShapeInfo)

/-- The cell that a step of `Im2col` writes. -/
def im2ColCell (v : Nat × Nat × Nat) : Int :=
  let (index, i, j) := v
  let heightCol := result.shape.getD 4 0
  let widthCol := result.shape.getD 5 0
  let hIndex := index / widthCol
  let hCol := hIndex % heightCol
  let wCol := index % widthCol
  let cIm := hIndex / heightCol
  let cCol := cIm * (aW.kernel * aH.kernel)
  -- `i_c` grows by `height_col * width_col` with every step of the two inner loops
  elementIndex result
    ((cCol * heightCol + hCol) * widthCol + wCol + (i * aW.kernel + j) * (heightCol * widthCol))

/-- The value that a step of `Im2col` writes. -/
def im2ColValue (dx : Int → T) (v : Nat × Nat × Nat) : T :=
  let (index, i, j) := v
  let heightCol := result.shape.getD 4 0
  let widthCol := result.shape.getD 5 0
  let depth := x.shape.getD 1 0
  let height := x.shape.getD 2 0
  let width := x.shape.getD 3 0
  let strideex := x.stride.getD 0 0
  let stridech := x.stride.getD 1 0
  let strideh := x.stride.getD 2 0
  let stridew := x.stride.getD 3 0
  let hIndex := index / widthCol
  let hCol := hIndex % heightCol
  let wCol := index % widthCol
  let cIm := hIndex / heightCol
  let dataIm := (cIm / depth : Nat) * strideex + (cIm % depth : Nat) * stridech +
    aH.windowOffset hCol * strideh + aW.windowOffset wCol * stridew
  let hIm := aH.imagePlace hCol i
  let wIm := aW.imagePlace wCol j
  if hIm ≥ 0 ∧ wIm ≥ 0 ∧ hIm < height ∧ wIm < width then
    dx (dataIm + (i * aH.dilation * strideh + j * aW.dilation * stridew))
  else 0

/-- `Im2col::execSpecial`, with the iterations of the parallel loop in the order of
`schedule`. -/
def im2Col (schedule : List Nat) (dx memory : Int → T) : Int → T :=
  storeAll (im2ColCell aH aW result) (fun v _ => im2ColValue aH aW x result dx v)
    (schedule ×ˢ List.range aH.kernel ×ˢ List.range aW.kernel) memory

/-- The sum `val` that an iteration of `Col2Im` computes. -/
def col2ImValue (imgHeight imgWidth : Nat) (dx : Int → T) (i : Nat) : T :=
  let depth := result.shape.getD 1 0
  let heightCol := x.shape.getD 4 0
  let widthCol := x.shape.getD 5 0
  let wIm := i % imgWidth + aW.padding
  let hIm := i / imgWidth % imgHeight + aH.padding
  let cIm := i / (imgWidth * imgHeight)
  let dataCol (hCol wCol : Nat) : Int :=
    (cIm / depth : Nat) * x.stride.getD 0 0 + (cIm % depth : Nat) * x.stride.getD 1 0 +
      (aH.kernelOffset hIm hCol).tdiv aH.dilation * x.stride.getD 2 0 +
      (aW.kernelOffset wIm wCol).tdiv aW.dilation * x.stride.getD 3 0 +
      hCol * x.stride.getD 4 0 + wCol * x.stride.getD 5 0
  ((aH.windows hIm heightCol ×ˢ aW.windows wIm widthCol).map
    fun window => dx (dataCol window.1 window.2)).sum

/-- `Col2Im::execSpecial`, with the iterations of the parallel loop in the order of
`schedule`. -/
def col2Im (imgHeight imgWidth : Nat) (schedule : List Nat) (dx memory : Int → T) : Int → T :=
  addAll (elementIndex result) (col2ImValue aH aW x result imgHeight imgWidth dx) schedule memory

end Loops

/-! ## The calls -/

/-- The sizes of a convolution. -/
structure ConvGeometry where
  samples : Nat
  depth : Nat
  height : Nat
  width : Nat
  heightCol : Nat
  widthCol : Nat
  aH : ImageAxis
  aW : ImageAxis
  samples_pos : 0 < samples
  depth_pos : 0 < depth
  height_pos : 0 < height
  width_pos : 0 < width
  heightCol_pos : 0 < heightCol
  widthCol_pos : 0 < widthCol

namespace ConvGeometry

variable (g : ConvGeometry)

/-- The shape of the images. -/
def imageShape : List Nat :=
  [g.samples, g.depth, g.height, g.width]

/-- The shape of the columns. -/
def colShape : List Nat :=
  [g.samples, g.depth, g.aH.kernel, g.aW.kernel, g.heightCol, g.widthCol]

theorem imageShape_pos : ∀ d ∈ g.imageShape, 0 < d := by
  simp [imageShape, g.samples_pos, g.depth_pos, g.height_pos, g.width_pos]

theorem colShape_pos : ∀ d ∈ g.colShape, 0 < d := by
  simp [colShape, g.samples_pos, g.depth_pos, g.aH.kernel_pos, g.aW.kernel_pos, g.heightCol_pos,
    g.widthCol_pos]

/-- The pixel that a column copies: the place in the kernel, moved by the window. -/
def covers : List Nat → List Nat → Bool
  | [n, d, i, j, hCol, wCol], [n', d', h, w] =>
    n = n' ∧ d = d' ∧ hCol * g.aH.stride + i * g.aH.dilation = h + g.aH.padding ∧
      wCol * g.aW.stride + j * g.aW.dilation = w + g.aW.padding
  | _, _ => false

end ConvGeometry

/-! ## The elements that the loops leave -/

/-- The coordinate of an index by divisions. -/
theorem decode_four (a b c d index : Nat) :
    decode [a, b, c, d] index =
      [index / d / c / b, index / d / c % b, index / d % c, index % d] := by
  simp only [decode_cons, decode_nil, List.prod_cons, List.prod_nil, Nat.mul_one, Nat.div_one,
    Nat.mod_mul_left_div_self, Nat.mod_mul_left_mod]
  have houter : b * (c * d) = d * c * b := by ring
  rw [houter, Nat.mul_comm c d]
  simp only [Nat.div_div_eq_div_mul]

/-- The divisions recover the coordinate of an element. -/
theorem divisions_encode {n e h w : Nat} (hbox : InBox [a, b, c, d] [n, e, h, w]) :
    let index := encode [a, b, c, d] [n, e, h, w]
    index / d / c / b = n ∧ index / d / c % b = e ∧ index / d % c = h ∧ index % d = w := by
  have hdecode := decode_encode hbox
  rw [decode_four] at hdecode
  simpa using hdecode

section Elements

variable {T : Type} [CommRing T] {g : ConvGeometry} {x result : ShapeInfo} {schedule : List Nat}

/-- The windows of all channels. -/
def ConvGeometry.windowShape (g : ConvGeometry) : List Nat :=
  [g.samples, g.depth, g.heightCol, g.widthCol]

theorem ConvGeometry.windowShape_pos (g : ConvGeometry) : ∀ d ∈ g.windowShape, 0 < d := by
  simp [windowShape, g.samples_pos, g.depth_pos, g.heightCol_pos, g.widthCol_pos]

variable {n d i j wCol w : Nat}

/-- A step of `Im2col` writes the cell of its coordinate. -/
theorem im2ColCell_eq (hresult : result.shape = g.colShape) {hCol : Nat}
    (hc : InBox g.colShape [n, d, i, j, hCol, wCol]) (hv : InBox g.windowShape [n, d, hCol, wCol]) :
    im2ColCell g.aH g.aW result (encode g.windowShape [n, d, hCol, wCol], i, j) =
      dot [n, d, i, j, hCol, wCol] result.stride := by
  have hsplit := divisions_encode hv
  rw [← ConvGeometry.windowShape] at hsplit
  rw [← elementIndex_encode (by rwa [hresult])]
  generalize encode g.windowShape [n, d, hCol, wCol] = index at *
  obtain ⟨hn, hd, hh, hw⟩ := hsplit
  have hcIm : index / g.widthCol / g.heightCol = n * g.depth + d := by
    rw [← hn, ← hd, Nat.div_add_mod']
  simp only [im2ColCell, hresult, ConvGeometry.colShape, List.getD_cons_succ, List.getD_cons_zero]
  rw [hcIm, hh, hw]
  congr 1
  simp only [encode, List.prod_cons, List.prod_nil]
  ring

theorem ImageAxis.imagePlace_eq_iff (a : ImageAxis) {col p : Nat} :
    a.imagePlace col i = p ↔ col * a.stride + i * a.dilation = p + a.padding := by
  rw [imagePlace, windowOffset]
  constructor
  · intro h
    have : ((col * a.stride + i * a.dilation : Nat) : Int) = ((p + a.padding : Nat) : Int) := by
      push_cast
      omega
    exact_mod_cast this
  · intro h
    have := congrArg (fun k : Nat => (k : Int)) h
    push_cast at this
    omega

/-- The offset of an element of rank four. -/
theorem exists_stride_four {info : ShapeInfo} {a b c : Nat} (h : info.shape = [a, b, c, d]) :
    ∃ s₀ s₁ s₂ s₃, info.stride = [s₀, s₁, s₂, s₃] := by
  have hlength := info.stride_length
  rw [h] at hlength
  match hs : info.stride, hlength with
  | [s₀, s₁, s₂, s₃], _ => exact ⟨s₀, s₁, s₂, s₃, rfl⟩

/-- The pixel that a column copies, by its place. -/
theorem covers_iff {hCol n' d' h : Nat} :
    g.covers [n, d, i, j, hCol, wCol] [n', d', h, w] = true ↔
      n = n' ∧ d = d' ∧ g.aH.imagePlace hCol i = h ∧ g.aW.imagePlace wCol j = w := by
  rw [ConvGeometry.covers, decide_eq_true_eq, g.aH.imagePlace_eq_iff, g.aW.imagePlace_eq_iff]

/-- A column gathers the pixel at its place. -/
theorem gather_inside {hCol h : Nat} (hbox : InBox g.imageShape [n, d, h, w])
    (hH : g.aH.imagePlace hCol i = h) (hW : g.aW.imagePlace wCol j = w) (f : List Nat → T) :
    ((coordinates g.imageShape).map fun p =>
      if g.covers [n, d, i, j, hCol, wCol] p then f p else 0).sum = f [n, d, h, w] := by
  rw [sum_map_ite_eq (nodup_coordinates g.imageShape_pos) (List.nodup_singleton [n, d, h, w])]
  · simp
  · intro p
    rw [List.mem_singleton, mem_coordinates g.imageShape_pos]
    constructor
    · rintro rfl
      exact ⟨hbox, covers_iff.mpr ⟨rfl, rfl, hH, hW⟩⟩
    · rintro ⟨hp, hcovers⟩
      obtain ⟨n', d', h', w', rfl, -, -, -, -⟩ := inBox_four.mp hp
      obtain ⟨rfl, rfl, hH', hW'⟩ := covers_iff.mp hcovers
      rw [hH, Nat.cast_inj] at hH'
      rw [hW, Nat.cast_inj] at hW'
      rw [hH', hW']

/-- A column with a place outside the image gathers nothing. -/
theorem gather_outside {hCol : Nat}
    (houtside : ¬ (g.aH.imagePlace hCol i ≥ 0 ∧ g.aW.imagePlace wCol j ≥ 0 ∧
      g.aH.imagePlace hCol i < g.height ∧ g.aW.imagePlace wCol j < g.width)) (f : List Nat → T) :
    ((coordinates g.imageShape).map fun p =>
      if g.covers [n, d, i, j, hCol, wCol] p then f p else 0).sum = 0 := by
  rw [sum_map_ite_eq (nodup_coordinates g.imageShape_pos) List.nodup_nil]
  · rfl
  · intro p
    rw [mem_coordinates g.imageShape_pos]
    constructor
    · intro hp
      exact absurd hp List.not_mem_nil
    · rintro ⟨hp, hcovers⟩
      obtain ⟨n', d', h', w', rfl, -, -, hh, hw⟩ := inBox_four.mp hp
      obtain ⟨-, -, hH, hW⟩ := covers_iff.mp hcovers
      rw [hH, hW] at houtside
      exact absurd ⟨Int.natCast_nonneg h', Int.natCast_nonneg w', Int.ofNat_lt.mpr hh,
        Int.ofNat_lt.mpr hw⟩ houtside

/-- A step of `Im2col` writes the pixel that its coordinate copies, if there is one. -/
theorem im2ColValue_eq (hx : x.shape = g.imageShape) (hresult : result.shape = g.colShape)
    (dx : Int → T) {hCol : Nat} (hv : InBox g.windowShape [n, d, hCol, wCol]) :
    im2ColValue g.aH g.aW x result dx (encode g.windowShape [n, d, hCol, wCol], i, j) =
      ((coordinates g.imageShape).map fun p =>
        if g.covers [n, d, i, j, hCol, wCol] p then dx (dot p x.stride) else 0).sum := by
  have hsplit := divisions_encode hv
  rw [← ConvGeometry.windowShape] at hsplit
  generalize encode g.windowShape [n, d, hCol, wCol] = index at *
  obtain ⟨hn, hd, hh, hw⟩ := hsplit
  obtain ⟨_, _, _, _, hbox, hnlt, hdlt, -, -⟩ := inBox_four.mp hv
  simp only [List.cons.injEq, and_true] at hbox
  obtain ⟨rfl, rfl, -, -⟩ := hbox
  obtain ⟨s₀, s₁, s₂, s₃, hstride⟩ := exists_stride_four hx
  have hheight : x.shape.getD 2 0 = g.height := by rw [hx]; rfl
  have hwidth : x.shape.getD 3 0 = g.width := by rw [hx]; rfl
  have hdepth : x.shape.getD 1 0 = g.depth := by rw [hx]; rfl
  have hheightCol : result.shape.getD 4 0 = g.heightCol := by rw [hresult]; rfl
  have hwidthCol : result.shape.getD 5 0 = g.widthCol := by rw [hresult]; rfl
  simp only [im2ColValue, hheight, hwidth, hdepth, hheightCol, hwidthCol, hn, hd, hh, hw]
  split
  · rename_i hinside
    obtain ⟨hh0, hw0, hhlt, hwlt⟩ := hinside
    obtain ⟨h, hH⟩ := Int.eq_ofNat_of_zero_le hh0
    obtain ⟨w, hW⟩ := Int.eq_ofNat_of_zero_le hw0
    rw [hH] at hhlt
    rw [hW] at hwlt
    have hp : InBox g.imageShape [n, d, h, w] :=
      inBox_four.mpr ⟨n, d, h, w, rfl, hnlt, hdlt, Int.ofNat_lt.mp hhlt, Int.ofNat_lt.mp hwlt⟩
    rw [gather_inside hp hH hW, hstride]
    simp only [dot_cons, dot_nil_left, nsmul_eq_mul, ← hH, ← hW, ImageAxis.imagePlace,
      List.getD_cons_succ, List.getD_cons_zero]
    congr 1
    ring
  · rename_i houtside
    rw [gather_outside houtside]

/-- The steps of `Im2col`, by the windows of their indices. -/
theorem exists_window (hschedule : schedule.Perm (List.range g.windowShape.prod)) {index : Nat}
    (hindex : index ∈ schedule) :
    ∃ n d hCol wCol, InBox g.windowShape [n, d, hCol, wCol] ∧
      index = encode g.windowShape [n, d, hCol, wCol] := by
  have hlt := List.mem_range.mp (hschedule.subset hindex)
  have hbox := inBox_decode g.windowShape_pos hlt
  obtain ⟨n, d, hCol, wCol, hdecode, -⟩ := inBox_four.mp hbox
  rw [hdecode] at hbox
  exact ⟨n, d, hCol, wCol, hbox, by rw [← hdecode, encode_decode g.windowShape_pos hlt]⟩

/-- What `Im2col` leaves: each column holds the pixel that it copies. -/
theorem im2Col_apply (hx : x.shape = g.imageShape) (hresult : result.shape = g.colShape)
    (hapart : CellsApart result) (hschedule : schedule.Perm (List.range g.windowShape.prod))
    (dx memory : Int → T) {c : List Nat} (hc : InBox g.colShape c) :
    im2Col g.aH g.aW x result schedule dx memory (dot c result.stride) =
      ((coordinates g.imageShape).map fun p =>
        if g.covers c p then dx (dot p x.stride) else 0).sum := by
  refine storeAll_of_agree ?_ ?_ memory
  · obtain ⟨n, d, i, j, hCol, wCol, rfl, hn, hd, hi, hj, hh, hw⟩ := inBox_six.mp hc
    have hv : InBox g.windowShape [n, d, hCol, wCol] :=
      inBox_four.mpr ⟨n, d, hCol, wCol, rfl, hn, hd, hh, hw⟩
    refine ⟨(encode g.windowShape [n, d, hCol, wCol], i, j), ?_, im2ColCell_eq hresult hc hv⟩
    simp [hschedule.mem_iff, encode_lt hv, hi, hj]
  · rintro ⟨index, i, j⟩ hstep hcell _
    simp only [List.mem_product, List.mem_range] at hstep
    obtain ⟨n, d, hCol, wCol, hv, rfl⟩ := exists_window hschedule hstep.1
    obtain ⟨_, _, _, _, hbox, hn, hd, hh, hw⟩ := inBox_four.mp hv
    simp only [List.cons.injEq, and_true] at hbox
    obtain ⟨rfl, rfl, rfl, rfl⟩ := hbox
    have hc' : InBox g.colShape [n, d, i, j, hCol, wCol] :=
      inBox_six.mpr ⟨n, d, i, j, hCol, wCol, rfl, hn, hd, hstep.2.1, hstep.2.2, hh, hw⟩
    rw [im2ColCell_eq hresult hc' hv] at hcell
    have hsame := hapart _ _ (hresult ▸ hc') (hresult ▸ hc) hcell
    rw [← hsame]
    exact im2ColValue_eq hx hresult dx hv

theorem exists_stride_six {info : ShapeInfo} {a b c e f : Nat}
    (h : info.shape = [a, b, c, d, e, f]) :
    ∃ s₀ s₁ s₂ s₃ s₄ s₅, info.stride = [s₀, s₁, s₂, s₃, s₄, s₅] := by
  have hlength := info.stride_length
  rw [h] at hlength
  match hs : info.stride, hlength with
  | [s₀, s₁, s₂, s₃, s₄, s₅], _ => exact ⟨s₀, s₁, s₂, s₃, s₄, s₅, rfl⟩

/-- The column that a window found for a pixel contributes. -/
def columnOf (g : ConvGeometry) (n d h w : Nat) (window : Nat × Nat) : List Nat :=
  [n, d, ((g.aH.kernelOffset (h + g.aH.padding) window.1).tdiv g.aH.dilation).toNat,
    ((g.aW.kernelOffset (w + g.aW.padding) window.2).tdiv g.aW.dilation).toNat, window.1, window.2]

/-- The windows that the loops of `Col2Im` find for a pixel. -/
def windowsOf (g : ConvGeometry) (h w : Nat) : List (Nat × Nat) :=
  g.aH.windows (h + g.aH.padding) g.heightCol ×ˢ g.aW.windows (w + g.aW.padding) g.widthCol

/-- The columns found for a pixel are those that copy it. -/
theorem mem_map_columnOf {h : Nat} (hp : InBox g.imageShape [n, d, h, w]) {c : List Nat} :
    c ∈ (windowsOf g h w).map (columnOf g n d h w) ↔
      c ∈ coordinates g.colShape ∧ g.covers c [n, d, h, w] = true := by
  obtain ⟨_, _, _, _, hbox, hn, hd, -, -⟩ := inBox_four.mp hp
  simp only [List.cons.injEq, and_true] at hbox
  obtain ⟨rfl, rfl, -, -⟩ := hbox
  rw [List.mem_map, mem_coordinates g.colShape_pos]
  constructor
  · rintro ⟨⟨hCol, wCol⟩, hwindow, rfl⟩
    obtain ⟨hwindowH, hwindowW⟩ := List.mem_product.mp hwindow
    obtain ⟨hh, i, hi, hplaceH⟩ := g.aH.mem_windows_iff.mp hwindowH
    obtain ⟨hw, j, hj, hplaceW⟩ := g.aW.mem_windows_iff.mp hwindowW
    have hcolumn : columnOf g n d h w (hCol, wCol) = [n, d, i, j, hCol, wCol] := by
      rw [columnOf, g.aH.kernelOffset_tdiv hplaceH, g.aW.kernelOffset_tdiv hplaceW]
      rfl
    rw [hcolumn]
    refine ⟨inBox_six.mpr ⟨n, d, i, j, hCol, wCol, rfl, hn, hd, hi, hj, hh, hw⟩, ?_⟩
    rw [ConvGeometry.covers, decide_eq_true_eq]
    exact ⟨rfl, rfl, hplaceH, hplaceW⟩
  · rintro ⟨hc, hcovers⟩
    obtain ⟨n', d', i, j, hCol, wCol, rfl, -, -, hi, hj, hh, hw⟩ := inBox_six.mp hc
    rw [ConvGeometry.covers, decide_eq_true_eq] at hcovers
    obtain ⟨rfl, rfl, hplaceH, hplaceW⟩ := hcovers
    refine ⟨(hCol, wCol), List.mem_product.mpr ⟨?_, ?_⟩, ?_⟩
    · exact g.aH.mem_windows_iff.mpr ⟨hh, i, hi, hplaceH⟩
    · exact g.aW.mem_windows_iff.mpr ⟨hw, j, hj, hplaceW⟩
    · rw [columnOf, g.aH.kernelOffset_tdiv hplaceH, g.aW.kernelOffset_tdiv hplaceW]
      rfl

theorem nodup_map_columnOf (n d h w : Nat) :
    ((windowsOf g h w).map (columnOf g n d h w)).Nodup := by
  refine List.Nodup.map_on ?_ ((g.aH.nodup_windows _ _).product (g.aW.nodup_windows _ _))
  rintro ⟨hCol, wCol⟩ - ⟨hCol', wCol'⟩ - heq
  simp only [columnOf, List.cons.injEq, and_true] at heq
  rw [heq.2.2.2.2.1, heq.2.2.2.2.2]

/-- An iteration of `Col2Im` adds the columns that copy its pixel. -/
theorem col2ImValue_eq (hx : x.shape = g.colShape) (hresult : result.shape = g.imageShape)
    (dx : Int → T) {h : Nat} (hp : InBox g.imageShape [n, d, h, w]) :
    col2ImValue g.aH g.aW x result g.height g.width dx (encode g.imageShape [n, d, h, w]) =
      ((coordinates g.colShape).map fun c =>
        if g.covers c [n, d, h, w] then dx (dot c x.stride) else 0).sum := by
  have hsplit := divisions_encode hp
  rw [← ConvGeometry.imageShape] at hsplit
  generalize encode g.imageShape [n, d, h, w] = index at *
  obtain ⟨hn, hd, hh, hw⟩ := hsplit
  have hcIm : index / (g.width * g.height) = index / g.width / g.height :=
    (Nat.div_div_eq_div_mul index g.width g.height).symm
  obtain ⟨s₀, s₁, s₂, s₃, s₄, s₅, hstride⟩ := exists_stride_six hx
  have hdepth : result.shape.getD 1 0 = g.depth := by rw [hresult]; rfl
  have hheightCol : x.shape.getD 4 0 = g.heightCol := by rw [hx]; rfl
  have hwidthCol : x.shape.getD 5 0 = g.widthCol := by rw [hx]; rfl
  rw [sum_map_ite_eq (nodup_coordinates g.colShape_pos) (nodup_map_columnOf n d h w)
    fun c => mem_map_columnOf hp]
  simp only [col2ImValue, hdepth, hheightCol, hwidthCol, hcIm, hn, hd, hh, hw]
  rw [List.map_map]
  refine congrArg List.sum (List.map_congr_left fun window hwindow => ?_)
  obtain ⟨hwindowH, hwindowW⟩ := List.mem_product.mp hwindow
  obtain ⟨-, i, -, hplaceH⟩ := g.aH.mem_windows_iff.mp hwindowH
  obtain ⟨-, j, -, hplaceW⟩ := g.aW.mem_windows_iff.mp hwindowW
  simp only [Function.comp_apply, columnOf, g.aH.kernelOffset_tdiv hplaceH,
    g.aW.kernelOffset_tdiv hplaceW, hstride, dot_cons, dot_nil_left, nsmul_eq_mul,
    List.getD_cons_succ, List.getD_cons_zero, Int.toNat_natCast]
  congr 1
  ring

/-- The iterations of `Col2Im`, by their pixels. -/
theorem exists_pixel (hschedule : schedule.Perm (List.range g.imageShape.prod)) {index : Nat}
    (hindex : index ∈ schedule) :
    InBox g.imageShape (decode g.imageShape index) ∧
      encode g.imageShape (decode g.imageShape index) = index := by
  have hlt := List.mem_range.mp (hschedule.subset hindex)
  exact ⟨inBox_decode g.imageShape_pos hlt, encode_decode g.imageShape_pos hlt⟩

/-- What `Col2Im` leaves: each pixel has received the columns that copy it. -/
theorem col2Im_apply (hx : x.shape = g.colShape) (hresult : result.shape = g.imageShape)
    (hapart : CellsApart result) (hschedule : schedule.Perm (List.range g.imageShape.prod))
    (dx memory : Int → T) {p : List Nat} (hp : InBox g.imageShape p) :
    col2Im g.aH g.aW x result g.height g.width schedule dx memory (dot p result.stride) =
      memory (dot p result.stride) +
        ((coordinates g.colShape).map fun c =>
          if g.covers c p then dx (dot c x.stride) else 0).sum := by
  have hcell : ∀ index ∈ schedule,
      elementIndex result index = dot (decode g.imageShape index) result.stride := by
    intro index hindex
    obtain ⟨hbox, hencode⟩ := exists_pixel hschedule hindex
    rw [← elementIndex_encode (by rwa [hresult]), hresult, hencode]
  have hnodup : (schedule.map (elementIndex result)).Nodup := by
    refine List.Nodup.map_on ?_ (hschedule.nodup_iff.mpr List.nodup_range)
    intro j hj k hk heq
    rw [hcell j hj, hcell k hk] at heq
    obtain ⟨hboxj, hencodej⟩ := exists_pixel hschedule hj
    obtain ⟨hboxk, hencodek⟩ := exists_pixel hschedule hk
    rw [← hencodej, ← hencodek, hapart _ _ (hresult ▸ hboxj) (hresult ▸ hboxk) heq]
  have hmem : encode g.imageShape p ∈ schedule :=
    hschedule.mem_iff.mpr (List.mem_range.mpr (encode_lt hp))
  have hadded := addAll_of_nodup hnodup
    (col2ImValue g.aH g.aW x result g.height g.width dx) memory hmem
  rw [hcell _ hmem, decode_encode hp] at hadded
  obtain ⟨n, d, h, w, rfl, -⟩ := inBox_four.mp hp
  rw [col2ImValue_eq hx hresult dx hp] at hadded
  exact hadded

end Elements

/-! ## The adjunction -/

/-- `Col2Im` into zeros is the adjoint of `Im2col`, whatever the strides of the arrays are and
in whatever order the iterations run. -/
theorem im2Col_adjoint {T : Type} [CommRing T] (g : ConvGeometry) {x y columns image : ShapeInfo}
    (hx : x.shape = g.imageShape) (hy : y.shape = g.colShape)
    (hcolumns : columns.shape = g.colShape) (himage : image.shape = g.imageShape)
    (hcolumnsApart : CellsApart columns) (himageApart : CellsApart image)
    {columnSchedule imageSchedule : List Nat}
    (hcolumnSchedule : columnSchedule.Perm (List.range g.windowShape.prod))
    (himageSchedule : imageSchedule.Perm (List.range g.imageShape.prod))
    (dx dy newColumns newImage : Int → T)
    (hzero : ∀ p, InBox g.imageShape p → newImage (dot p image.stride) = 0) :
    arrayProduct (im2Col g.aH g.aW x columns columnSchedule dx newColumns) columns dy y =
      arrayProduct dx x
        (col2Im g.aH g.aW y image g.height g.width imageSchedule dy newImage) image := by
  have hgather : ∀ c ∈ coordinates g.colShape,
      im2Col g.aH g.aW x columns columnSchedule dx newColumns (dot c columns.stride) *
          dy (dot c y.stride) =
        ((coordinates g.imageShape).map fun p =>
          if g.covers c p then dx (dot p x.stride) else 0).sum * dy (dot c y.stride) := by
    intro c hc
    rw [mem_coordinates g.colShape_pos] at hc
    rw [im2Col_apply hx hcolumns hcolumnsApart hcolumnSchedule dx newColumns hc]
  have hscatter : ∀ p ∈ coordinates g.imageShape,
      dx (dot p x.stride) * col2Im g.aH g.aW y image g.height g.width imageSchedule dy newImage
          (dot p image.stride) =
        dx (dot p x.stride) * ((coordinates g.colShape).map fun c =>
          if g.covers c p then dy (dot c y.stride) else 0).sum := by
    intro p hp
    rw [mem_coordinates g.imageShape_pos] at hp
    rw [col2Im_apply hy himage himageApart himageSchedule dy newImage hp, hzero p hp, zero_add]
  rw [arrayProduct, arrayProduct, hcolumns, hx, List.map_congr_left hgather,
    List.map_congr_left hscatter]
  exact sum_gather_eq_sum_scatter g.covers _ _ (fun p => dx (dot p x.stride))
    fun c => dy (dot c y.stride)

theorem three_pos : 0 < 3 :=
  Nat.succ_pos 2

/-- A padded column of two pixels, with a kernel of two. -/
def twoPixels : ConvGeometry where
  samples := 1
  depth := 1
  height := 2
  width := 1
  heightCol := 3
  widthCol := 1
  aH := ⟨2, 1, 1, 1, Nat.two_pos, Nat.one_pos, Nat.one_pos⟩
  aW := ⟨1, 1, 0, 1, Nat.one_pos, Nat.one_pos, Nat.one_pos⟩
  samples_pos := Nat.one_pos
  depth_pos := Nat.one_pos
  height_pos := Nat.two_pos
  width_pos := Nat.one_pos
  heightCol_pos := three_pos
  widthCol_pos := Nat.one_pos

/-- The two pixels, the second before the first. -/
def pixelInfo : ShapeInfo where
  shape := [1, 1, 2, 1]
  stride := [2, 2, -1, 1]
  offset := 0
  elementWiseStride := 0
  order := 'c'
  stride_length := rfl

/-- The columns of the two pixels. -/
def pixelColumns : ShapeInfo where
  shape := [1, 1, 2, 1, 3, 1]
  stride := [6, 6, 1, 1, 2, 6]
  offset := 0
  elementWiseStride := 0
  order := 'c'
  stride_length := rfl

theorem cellsApart_pixelInfo : CellsApart pixelInfo := by
  intro c c' hc hc' h
  obtain ⟨n, d, i, j, rfl, hn, hd, hi, hj⟩ := inBox_four.mp hc
  obtain ⟨n', d', i', j', rfl, hn', hd', hi', hj'⟩ := inBox_four.mp hc'
  simp only [pixelInfo, dot_cons, dot_nil_left, nsmul_eq_mul] at h
  simp only [List.cons.injEq, and_true]
  omega

theorem cellsApart_pixelColumns : CellsApart pixelColumns := by
  intro c c' hc hc' h
  obtain ⟨n, d, i, j, a, b, rfl, hn, hd, hi, hj, ha, hb⟩ := inBox_six.mp hc
  obtain ⟨n', d', i', j', a', b', rfl, hn', hd', hi', hj', ha', hb'⟩ := inBox_six.mp hc'
  simp only [pixelColumns, dot_cons, dot_nil_left, nsmul_eq_mul] at h
  simp only [List.cons.injEq, and_true]
  omega

theorem im2Col_adjoint_twoPixels :
    arrayProduct (im2Col twoPixels.aH twoPixels.aW pixelInfo pixelColumns [2, 0, 1]
        (fun i => 5 * i) fun _ => 0) pixelColumns (fun i => i + 1) pixelColumns =
      arrayProduct (fun i : Int => 5 * i) pixelInfo
        (col2Im twoPixels.aH twoPixels.aW pixelColumns pixelInfo 2 1 [1, 0] (fun i => i + 1)
          fun _ => 0) pixelInfo :=
  im2Col_adjoint twoPixels rfl rfl rfl rfl cellsApart_pixelColumns cellsApart_pixelInfo
    (by decide) (by decide) _ _ _ _ fun _ _ => rfl

end Convolutions
end LibND4J
