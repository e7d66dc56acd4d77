import LibND4J.Arrays.Targets
import LibND4J.Convolutions.Deconv2D

/-!
# Upsampling of images

`upsampling2d` repeats every pixel in a square block of its output, and `upsampling2d_bp`
adds the gradients of the block to the pixel's, after a scalar operation has zeroed them.

Main results:

- Theorem `element_upsampling2d`: a pixel of the output is that of its block.
- Theorem `upsampling2d_bp_spec`: a gradient is the sum over its block.
- Theorem `upsamples_adjoint`: the two are adjoint.
-/

namespace LibND4J
namespace Convolutions

open Strided Shape Arrays Stores Accumulation

section Operations

variable {T : Type}

/-- `upsampling2d`; the input has four axes. -/
def upsampling2d (input output : NDArray T) (scale_factor : Nat) : NDArray T :=
  let xDim := input.shapeInfo.rank - 2
  let yDim := input.shapeInfo.rank - 1
  ⟨output.shapeInfo, storeAll (fun iout => dot iout output.shapeInfo.stride)
    (fun iout _ =>
      let iin := (iout.set xDim (iout.getD xDim 0 / scale_factor)).set yDim
        (iout.getD yDim 0 / scale_factor)
      input.buffer (dot iin input.shapeInfo.stride))
    (coordinates output.shapeInfo.shape) output.buffer⟩

variable [Zero T] [Add T]

/-- `upsampling2d_bp`; the output has at most four axes. -/
def upsampling2d_bp (run : Runtime T) (gradientNext output : NDArray T) (scale_factor : Nat) :
    Except Failure (NDArray T) := do
  let output ← output.scalarInto (fun _ d2 => d2) run 0
  let xDim := output.shapeInfo.rank - 2
  let yDim := output.shapeInfo.rank - 1
  .ok ⟨output.shapeInfo, storeAll (fun iin => dot iin output.shapeInfo.stride)
    (fun iin memory =>
      (List.range scale_factor ×ˢ List.range scale_factor).foldl (fun sum (y, x) =>
        let iout := (iin.set xDim (scale_factor * iin.getD xDim 0 + x)).set yDim
          (scale_factor * iin.getD yDim 0 + y)
        sum + gradientNext.buffer (dot iout gradientNext.shapeInfo.stride))
        (memory (dot iin output.shapeInfo.stride)))
    (coordinates output.shapeInfo.shape) output.buffer⟩

end Operations

section Images

variable {T : Type} [CommRing T] {B C H W s : Nat}

omit [CommRing T] in
/-- What a loop over the coordinates stores: each cell receives its own value. -/
theorem element_storeAll {info : ShapeInfo} (hpos : info.Positive) (hcells : CellsApart info)
    {value : List Nat → (Int → T) → T}
    (hreads : ∀ c c', dot c info.stride ≠ dot c' info.stride → Ignores (value c) (dot c' info.stride))
    (buffer : Int → T) {c : List Nat} (hc : InBox info.shape c) :
    (NDArray.mk info (storeAll (fun c => dot c info.stride) value (coordinates info.shape)
      buffer)).element c = value c buffer := by
  have hnodup : ((coordinates info.shape).map fun c => dot c info.stride).Nodup :=
    (nodup_coordinates hpos).map_on fun c hc c' hc' heq =>
      hcells c c' ((mem_coordinates hpos).mp hc) ((mem_coordinates hpos).mp hc') heq
  have helement : ∀ memory : Int → T, (NDArray.mk info memory).element c =
      memory (dot c info.stride) := fun memory => element_eq hc
  rw [helement]
  exact storeAll_of_independent hnodup (fun c _ c' _ => hreads c c') buffer
    ((mem_coordinates hpos).mpr hc)

omit [CommRing T] in
theorem positive_images {info : ShapeInfo} (hshape : info.shape = [B, C, H, W])
    {b c y x : Nat} (hc : InBox [B, C, H, W] [b, c, y, x]) : info.Positive := by
  obtain ⟨b', c', y', x', heq, hb, hc, hy, hx⟩ := inBox_four.mp hc
  intro d hd
  rw [hshape] at hd
  simp only [List.mem_cons, List.not_mem_nil, or_false] at hd
  omega

omit [CommRing T] in
/-- A pixel of the output is that of its block. -/
theorem element_upsampling2d {input output : NDArray T}
    (hinput : input.shapeInfo.shape = [B, C, H, W])
    (houtput : output.shapeInfo.shape = [B, C, H * s, W * s]) (hcells : CellsApart output.shapeInfo)
    {b c y x : Nat} (hb : b < B) (hc : c < C) (hy : y < H * s) (hx : x < W * s) :
    (upsampling2d input output s).element [b, c, y, x] = input.element [b, c, y / s, x / s] := by
  have hbox : InBox [B, C, H * s, W * s] [b, c, y, x] :=
    inBox_four.mpr ⟨b, c, y, x, rfl, hb, hc, hy, hx⟩
  have hsource : InBox input.shapeInfo.shape [b, c, y / s, x / s] := by
    rw [hinput]
    exact inBox_four.mpr ⟨b, c, _, _, rfl, hb, hc, Nat.div_lt_of_lt_mul (by rwa [mul_comm] at hy),
      Nat.div_lt_of_lt_mul (by rwa [mul_comm] at hx)⟩
  rw [upsampling2d, element_storeAll (positive_images houtput hbox) hcells
    (fun _ _ _ _ _ => rfl) output.buffer (houtput ▸ hbox), element_eq hsource]
  simp [ShapeInfo.rank, hinput]

/-- The gradient of a pixel is the sum over its block. -/
theorem upsampling2d_bp_spec (run : Runtime T) {gradientNext output : NDArray T}
    (hnext : gradientNext.shapeInfo.shape = [B, C, H * s, W * s])
    (houtput : output.shapeInfo.shape = [B, C, H, W]) (hpos : output.shapeInfo.Positive)
    (hews : output.shapeInfo.HonestEws) (hcells : CellsApart output.shapeInfo)
    (hoffset : output.shapeInfo.offset = 0) :
    ∃ buffer, upsampling2d_bp run gradientNext output s = .ok ⟨output.shapeInfo, buffer⟩ ∧
      ∀ b < B, ∀ c < C, ∀ h < H, ∀ w < W,
        (NDArray.mk output.shapeInfo buffer).element [b, c, h, w] =
          ∑ y ∈ Finset.range s, ∑ x ∈ Finset.range s,
            gradientNext.element [b, c, h * s + x, w * s + y] := by
  obtain ⟨zeros, hzeros, hzero⟩ :=
    scalarInto_spec (fun _ d2 : T => d2) run 0 hpos hews hcells hoffset
  refine ⟨_, by rw [upsampling2d_bp, hzeros]; rfl, fun b hb c hc h hh w hw => ?_⟩
  have hbox : InBox output.shapeInfo.shape [b, c, h, w] :=
    houtput ▸ inBox_four.mpr ⟨b, c, h, w, rfl, hb, hc, hh, hw⟩
  have hplace : (NDArray.mk output.shapeInfo zeros).element [b, c, h, w] =
      zeros (dot [b, c, h, w] output.shapeInfo.stride) := element_eq hbox
  have hzeroed : zeros (dot [b, c, h, w] output.shapeInfo.stride) = 0 :=
    hplace.symm.trans (hzero _ hbox)
  have hblock : ∀ p ∈ List.range s ×ˢ List.range s,
      gradientNext.buffer (dot (([b, c, h, w].set (output.shapeInfo.rank - 2)
        (s * [b, c, h, w].getD (output.shapeInfo.rank - 2) 0 + p.2)).set (output.shapeInfo.rank - 1)
        (s * [b, c, h, w].getD (output.shapeInfo.rank - 1) 0 + p.1)) gradientNext.shapeInfo.stride) =
      gradientNext.element [b, c, h * s + p.2, w * s + p.1] := by
    intro p hp
    obtain ⟨hy, hx⟩ := List.mem_product.mp hp
    have hplace : InBox gradientNext.shapeInfo.shape [b, c, h * s + p.2, w * s + p.1] := by
      rw [hnext]
      exact inBox_four.mpr ⟨b, c, _, _, rfl, hb, hc, mul_add_lt hh (List.mem_range.mp hx),
        mul_add_lt hw (List.mem_range.mp hy)⟩
    rw [element_eq hplace]
    simp [ShapeInfo.rank, houtput, mul_comm s]
  have hcell := @element_storeAll T output.shapeInfo hpos hcells (fun iin memory =>
    (List.range s ×ˢ List.range s).foldl (fun sum p => sum + gradientNext.buffer
      (dot ((iin.set (output.shapeInfo.rank - 2)
        (s * iin.getD (output.shapeInfo.rank - 2) 0 + p.2)).set (output.shapeInfo.rank - 1)
        (s * iin.getD (output.shapeInfo.rank - 1) 0 + p.1)) gradientNext.shapeInfo.stride))
      (memory (dot iin output.shapeInfo.stride)))
    (fun c c' hne memory value => by simp only [Function.update_of_ne hne]) zeros
    [b, c, h, w] hbox
  refine hcell.trans ?_
  rw [foldl_add_eq, hzeroed, zero_add, List.map_congr_left hblock, sum_product]
  rfl

/-- Repeating pixels and adding up blocks are adjoint, whatever the layouts and the outputs' contents
before. -/
theorem upsamples_adjoint (run : Runtime T) {input output gradientNext gradient : NDArray T}
    (hinput : input.shapeInfo.shape = [B, C, H, W])
    (houtput : output.shapeInfo.shape = [B, C, H * s, W * s]) (hcells : CellsApart output.shapeInfo)
    (hnext : gradientNext.shapeInfo.shape = [B, C, H * s, W * s])
    (hgradient : gradient.shapeInfo.shape = [B, C, H, W]) (hpos : gradient.shapeInfo.Positive)
    (hews : gradient.shapeInfo.HonestEws) (happart : CellsApart gradient.shapeInfo)
    (hoffset : gradient.shapeInfo.offset = 0) :
    (∀ b < B, ∀ c < C, ∀ y < H * s, ∀ x < W * s,
      (upsampling2d input output s).element [b, c, y, x] = input.element [b, c, y / s, x / s]) ∧
    ∃ buffer, upsampling2d_bp run gradientNext gradient s = .ok ⟨gradient.shapeInfo, buffer⟩ ∧
      pairing [B, C, H * s, W * s] (upsampling2d input output s).element gradientNext.element =
        pairing [B, C, H, W] input.element (NDArray.mk gradient.shapeInfo buffer).element := by
  have hforward : ∀ b < B, ∀ c < C, ∀ y < H * s, ∀ x < W * s,
      (upsampling2d input output s).element [b, c, y, x] = input.element [b, c, y / s, x / s] :=
    fun b hb c hc y hy x hx => element_upsampling2d hinput houtput hcells hb hc hy hx
  obtain ⟨buffer, hrun, hblocks⟩ :=
    upsampling2d_bp_spec run hnext hgradient hpos hews happart hoffset
  refine ⟨hforward, buffer, hrun, ?_⟩
  have hempty : coordinates [] = [[]] := rfl
  simp only [pairing, sum_coordinates_cons, hempty, List.map_singleton, List.sum_singleton]
  refine Finset.sum_congr rfl fun b hb => Finset.sum_congr rfl fun c hc => ?_
  have hb := Finset.mem_range.mp hb
  have hc := Finset.mem_range.mp hc
  rw [sum_range_mul]
  refine Finset.sum_congr rfl fun h hh => ?_
  have hh := Finset.mem_range.mp hh
  simp only [sum_range_mul W s]
  rw [Finset.sum_comm]
  refine Finset.sum_congr rfl fun w hw => ?_
  have hw := Finset.mem_range.mp hw
  rw [hblocks b hb c hc h hh w hw, Finset.sum_comm, Finset.mul_sum]
  refine Finset.sum_congr rfl fun y hy => ?_
  have hy := Finset.mem_range.mp hy
  rw [Finset.mul_sum]
  refine Finset.sum_congr rfl fun x hx => ?_
  have hx := Finset.mem_range.mp hx
  rw [hforward b hb c hc _ (mul_add_lt hh hx) _ (mul_add_lt hw hy), mul_add_div_of_lt hx,
    mul_add_div_of_lt hy]

end Images

theorem upsamples_adjoint_row :
    ∃ buffer, upsampling2d_bp (oneThread fun _ => 0) ⟨newShapeInfo 'f' [1, 1, 2, 4], fun i => i⟩
        ⟨newShapeInfo 'c' [1, 1, 1, 2], fun _ => 7⟩ 2 = .ok ⟨newShapeInfo 'c' [1, 1, 1, 2], buffer⟩ ∧
      pairing [1, 1, 1 * 2, 2 * 2]
          (upsampling2d ⟨newShapeInfo 'f' [1, 1, 1, 2], fun i => i⟩
            ⟨newShapeInfo 'c' [1, 1, 2, 4], fun _ => 5⟩ 2).element
          (NDArray.mk (newShapeInfo 'f' [1, 1, 2, 4]) fun i => i).element =
        pairing [1, 1, 1, 2] (NDArray.mk (newShapeInfo 'f' [1, 1, 1, 2]) fun i => i).element
          (NDArray.mk (newShapeInfo 'c' [1, 1, 1, 2]) buffer).element :=
  (upsamples_adjoint (oneThread fun _ => 0)
    (shape_newShapeInfo 'f' [1, 1, 1, 2]) (shape_newShapeInfo 'c' [1, 1, 2, 4])
    (cellsApart_newShapeInfo (.inl rfl) (by decide)) (shape_newShapeInfo 'f' [1, 1, 2, 4])
    (shape_newShapeInfo 'c' [1, 1, 1, 2]) (positive_newShapeInfo (by decide) 'c')
    (honestEws_newShapeInfo (.inl rfl) (by decide))
    (cellsApart_newShapeInfo (.inl rfl) (by decide)) rfl).2

end Convolutions
end LibND4J
