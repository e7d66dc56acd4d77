import LibND4J.Arrays.InPlace

/-!
# Parts of an array

`NDArray::subarray` takes the indices of one list along each dimension.  A part has the strides
of the array and starts at another cell.  A list of no indices has no first one, and reading it
throws.

Main results:

- Theorem `subarray_channels` and `subarray_of_empty`: parts of an image with some of its
  channels.
- Theorem `addPart_channels`: channels of one image are added to channels of another one.
-/

namespace LibND4J
namespace Arrays

open Strided Shape

/-! ## The routines -/

/-- The first index, which a list of no indices does not have. -/
def NDIndex.first (index : NDIndex) : Int :=
  index.indices.headD 0

/-- Where a part starts. -/
def subarrayStart (stride : List Int) (idx : List NDIndex) : Int :=
  (List.zipWith (fun index s => if index.isAll then 0 else index.first * s) idx stride).sum

/-- `NDArray::subarray`: the shape information of the part, and where it starts. -/
def subarray (info : ShapeInfo) (idx : List NDIndex) : Except Failure (ShapeInfo × Int) :=
  if idx.length ≠ info.rank then .error (.thrown "Number of indices should match")
  else if ∃ index ∈ idx, index.indices = [] then .error (.thrown "std::out_of_range")
  else .ok (subarrayShapeInfo info idx, subarrayStart info.stride idx)

/-- Some of the channels of an image. -/
def channels (start stop : Int) : List NDIndex :=
  [.all, .interval start stop, .all, .all]

/-- A part of an array is added to a part of another one. -/
def addPart {T : Type} [Add T] (run : Runtime T) (array other : NDArray T)
    (indices otherIndices : List NDIndex) : Except Failure (NDArray T) := do
  let tmp ← subarray array.shapeInfo indices
  let addVal ← subarray other.shapeInfo otherIndices
  let buffer ← pairwiseInto (fun d1 d2 => d1 + d2) run tmp.1 tmp.2 addVal.1 addVal.2 other.buffer
    array.buffer
  return ⟨array.shapeInfo, buffer⟩

/-! ## Parts -/

section Parts

variable {info : ShapeInfo} {B C H W : Nat}

theorem interval_empty (n : Int) : (NDIndex.interval n n).indices = [] := by
  simp [NDIndex.interval]

/-- An interval begins with its start. -/
theorem interval_cons (start n : Nat) :
    ∃ rest, (NDIndex.interval start ((start + (n + 1) : Nat) : Int)).indices =
      (start : Int) :: rest ∧ rest.length = n := by
  have hsize : (((start + (n + 1) : Nat) : Int) - start).toNat = n + 1 := by omega
  rw [NDIndex.interval, hsize, List.range_succ_eq_map]
  exact ⟨_, by simp; rfl, by simp [Function.comp_def]⟩

variable (hshape : info.shape = [B, C, H, W])

include hshape

/-- An array of images. -/
theorem exists_strides : ∃ s₀ s₁ s₂ s₃, info.stride = [s₀, s₁, s₂, s₃] := by
  have hlength : info.stride.length = 4 := by rw [info.stride_length, hshape]; rfl
  match hstride : info.stride, hlength with
  | [s₀, s₁, s₂, s₃], _ => exact ⟨s₀, s₁, s₂, s₃, rfl⟩

/-- A part of an image that keeps all its other dimensions. -/
theorem subarray_of_channels {index : NDIndex} {start : Int} {rest : List Int}
    (hindices : index.indices = start :: rest) (hstart : 0 ≤ start) :
    ∃ part, subarray info [.all, index, .all, .all] =
        .ok (part, start * info.stride.getD 1 0) ∧
      part.shape = [B, rest.length + 1, H, W] ∧ part.elementWiseStride = -1 ∧
      part.stride = info.stride := by
  obtain ⟨s₀, s₁, s₂, s₃, hstride⟩ := exists_strides hshape
  have hrank : info.rank = 4 := by rw [ShapeInfo.rank, hshape]; rfl
  have haxes : info.axes = [(B, s₀), (C, s₁), (H, s₂), (W, s₃)] := by
    rw [ShapeInfo.axes, hshape, hstride]
    rfl
  have hall : index.isAll = false := by
    rw [NDIndex.isAll, hindices, decide_eq_false_iff_not]
    intro heq
    have hfirst := (List.cons.inj heq).1
    omega
  have hnone : ¬ ∃ i ∈ [NDIndex.all, index, .all, .all], i.indices = [] := by
    simp [NDIndex.all, hindices]
  have hplace : subarrayStart info.stride [.all, index, .all, .all] =
      start * info.stride.getD 1 0 := by
    have hkeeps : NDIndex.all.isAll = true := rfl
    simp [subarrayStart, hstride, hall, hkeeps, NDIndex.first, hindices]
  have hpart : subarrayShapeInfo info [.all, index, .all, .all] =
      ShapeInfo.ofAxes [(B, s₀), (rest.length + 1, s₁), (H, s₂), (W, s₃)] info.offset (-1)
        info.order := by
    have hindex : index.axis (C, s₁) = (rest.length + 1, s₁) := by
      rw [NDIndex.axis, hall, if_neg Bool.false_ne_true, hindices, List.length_cons]
    rw [subarrayShapeInfo, haxes]
    simp only [List.zipWith_cons_cons, List.zipWith_nil_left, hindex]
    rfl
  refine ⟨subarrayShapeInfo info [.all, index, .all, .all], ?_, congrArg ShapeInfo.shape hpart,
    congrArg ShapeInfo.elementWiseStride hpart, ?_⟩
  · have hsize : ¬ [NDIndex.all, index, .all, .all].length ≠ info.rank := not_not.mpr hrank.symm
    rw [subarray, if_neg hsize, if_neg hnone, hplace]
  · rw [hpart, hstride]
    rfl

/-- A part of an image with some of its channels. -/
theorem subarray_channels (start : Nat) {n : Nat} (hn : 0 < n) :
    ∃ part place, subarray info (channels start ((start + n : Nat) : Int)) = .ok (part, place) ∧
      part.shape = [B, n, H, W] ∧ part.elementWiseStride = -1 ∧
      ∀ b c y x, place + dot [b, c, y, x] part.stride =
        dot [b, start + c, y, x] info.stride := by
  obtain ⟨n, rfl⟩ : ∃ m, n = m + 1 := ⟨n - 1, by omega⟩
  obtain ⟨rest, hindices, rfl⟩ := interval_cons start n
  obtain ⟨part, hpart, hpartShape, hews, hstrides⟩ :=
    subarray_of_channels hshape hindices (Int.natCast_nonneg start)
  refine ⟨part, _, hpart, hpartShape, hews, fun b c y x => ?_⟩
  obtain ⟨s₀, s₁, s₂, s₃, hstride⟩ := exists_strides hshape
  rw [hstrides, hstride]
  simp only [List.getD_cons_succ, List.getD_cons_zero, dot_cons, dot_nil_left, nsmul_eq_mul]
  push_cast
  ring

omit hshape

/-- A part without channels cannot be taken. -/
theorem subarray_of_empty (info : ShapeInfo) (n : Int) :
    ∃ e, subarray info (channels n n) = .error e := by
  unfold subarray
  split
  · exact ⟨_, rfl⟩
  · have hempty : ∃ index ∈ channels n n, index.indices = [] :=
      ⟨_, List.mem_cons_of_mem _ List.mem_cons_self, interval_empty n⟩
    exact ⟨_, if_pos hempty⟩

end Parts

/-! ## Sums of parts -/

section Sums

variable {T : Type} [AddMonoid T] {array other : NDArray T} {B C H W : Nat}

theorem inBox_image {b c y x : Nat} : InBox [B, C, H, W] [b, c, y, x] ↔
    b < B ∧ c < C ∧ y < H ∧ x < W := by
  simp [InBox]

theorem exists_of_inBox_image {coords : List Nat} (h : InBox [B, C, H, W] coords) :
    ∃ b c y x, coords = [b, c, y, x] := by
  rcases h with - | ⟨-, - | ⟨-, - | ⟨-, - | ⟨-, - | -⟩⟩⟩⟩
  exact ⟨_, _, _, _, rfl⟩

/-- Channels of one image are added to channels of another one. -/
theorem addPart_channels (run : Runtime T) (start otherStart : Nat) (hshape : array.shapeInfo.shape = [B, C, H, W])
    (hcells : CellsApart array.shapeInfo) (hother : other.shapeInfo.shape = [B, C, H, W])
    (hB : 0 < B) (hH : 0 < H) (hW : 0 < W) {n : Nat} (hn : 0 < n)
    (hfits : start + n ≤ C) (hotherFits : otherStart + n ≤ C)
    (hspan : SpanFits run.settings (B * n * H * W)) :
    ∃ buffer, addPart run array other (channels start ((start + n : Nat) : Int))
        (channels otherStart ((otherStart + n : Nat) : Int)) = .ok ⟨array.shapeInfo, buffer⟩ ∧
      ∀ b < B, ∀ c < C, ∀ y < H, ∀ x < W,
        (NDArray.mk array.shapeInfo buffer).element [b, c, y, x] =
          array.element [b, c, y, x] +
            if start ≤ c ∧ c < start + n then other.element [b, otherStart + (c - start), y, x]
            else 0 := by
  obtain ⟨part, place, hpart, hpartShape, hpartEws, hplace⟩ := subarray_channels hshape start hn
  obtain ⟨otherPart, otherPlace, hotherPart, hotherShape, hotherEws, hotherPlace⟩ :=
    subarray_channels hother otherStart hn
  have hpos : part.Positive := by
    rw [ShapeInfo.Positive, hpartShape]
    simp [hB, hn, hH, hW]
  have hpartCells : CellsApart part := by
    intro c c' hc hc' heq
    rw [hpartShape] at hc hc'
    obtain ⟨b, c, y, x, rfl⟩ := exists_of_inBox_image hc
    obtain ⟨b', c', y', x', rfl⟩ := exists_of_inBox_image hc'
    obtain ⟨hb, hc, hy, hx⟩ := inBox_image.mp hc
    obtain ⟨hb', hc', hy', hx'⟩ := inBox_image.mp hc'
    have hsame := hcells [b, start + c, y, x] [b', start + c', y', x']
      (hshape ▸ inBox_image.mpr ⟨hb, by omega, hy, hx⟩)
      (hshape ▸ inBox_image.mpr ⟨hb', by omega, hy', hx'⟩)
      (by rw [← hplace, ← hplace, heq])
    simp only [List.cons.injEq, and_true, Nat.add_left_cancel_iff] at hsame
    simp only [hsame]
  have hlength : part.length = B * n * H * W := by
    simp [ShapeInfo.length, hpartShape, mul_assoc]
  obtain ⟨buffer, hrun, hvalue, hframe⟩ := pairwiseInto_coordinates (fun d1 d2 : T => d1 + d2) run
    place otherPlace hpos (fun h => absurd h (by rw [hpartEws]; decide)) hpartCells
    (fun h => absurd h (by rw [hotherEws]; decide)) (hotherShape.trans hpartShape.symm)
    (by rw [hpartShape]; exact List.cons_ne_nil _ _) (hlength ▸ hspan) other.buffer array.buffer
  refine ⟨buffer, ?_, fun b hb c hc y hy x hx => ?_⟩
  · rw [addPart, hpart, hotherPart]
    simp only [bind, Except.bind, hrun, pure, Except.pure]
  have hbox : InBox array.shapeInfo.shape [b, c, y, x] := hshape ▸ inBox_image.mpr ⟨hb, hc, hy, hx⟩
  have hcell : ∀ buffer : Int → T, (NDArray.mk array.shapeInfo buffer).element [b, c, y, x] =
      buffer (dot [b, c, y, x] array.shapeInfo.stride) := fun buffer => element_eq hbox
  rw [hcell, element_eq hbox]
  by_cases hin : start ≤ c ∧ c < start + n
  · obtain ⟨k, rfl⟩ := Nat.exists_eq_add_of_le hin.1
    have hk := hvalue [b, k, y, x] (hpartShape ▸ inBox_image.mpr ⟨hb, by omega, hy, hx⟩)
    rw [hplace, hotherPlace] at hk
    rw [if_pos hin, hk, Nat.add_sub_cancel_left,
      element_eq (hother ▸ inBox_image.mpr ⟨hb, by omega, hy, hx⟩)]
  · rw [if_neg hin, add_zero]
    refine hframe _ fun coords hcoords heq => hin ?_
    rw [hpartShape] at hcoords
    obtain ⟨b', c', y', x', rfl⟩ := exists_of_inBox_image hcoords
    obtain ⟨hb', hc', hy', hx'⟩ := inBox_image.mp hcoords
    rw [hplace] at heq
    have hsame := hcells _ _ hbox (hshape ▸ inBox_image.mpr ⟨hb', by omega, hy', hx'⟩) heq
    simp only [List.cons.injEq, and_true] at hsame
    omega

end Sums

end Arrays
end LibND4J
