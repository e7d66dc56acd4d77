import LibND4J.Shape.Tad

/-!
# What a tensor number stands for

Reductions, broadcasts and concatenations name the tensors along dimensions by their
numbers.  The number of a tensor is meant to be the row-major index of its left-over
coordinate, whatever the layout of the array.  The offset of a tensor is computed from
the number in two ways: by decoding it, or, on the shortcut for whole arrays, by taking
it as it is.

Main results:

- Theorem `dot_start`: the decoded coordinate lies at the base of its tensor.
- Theorem `numbersTensors_iff`: the numbers mean what they should exactly if the
  shortcut does not meet an F order and no offset falls to the error marker.
-/

namespace LibND4J
namespace Shape

open Strided

/-- The coordinate that tensor number `t` stands for: the left-over axes are decoded in C
order, the dimensions are zero. -/
def Dimensions.start {rank : Nat} (dimension : Dimensions rank) (shape : List Nat) (t : Nat) :
    List Nat :=
  dimension.coordinate (decode (dimension.leftOver shape) t)
    (List.replicate dimension.toList.length 0)

/-- Each tensor number has the offset of the coordinate it stands for. -/
def StartsAtCoordinates (info : ShapeInfo) (dimension : Dimensions info.rank) : Prop :=
  ∀ t < (TAD.init info dimension).numTads,
    (TAD.init info dimension).tadOffset t = dot (dimension.start info.shape t) info.stride

/-- The tensor numbers mean the same for every array of the shape: they start at the
coordinates they stand for, the shortcut agrees with the decoding, and any other layout
that starts at the coordinates has the same tensors under the same numbers. -/
structure NumbersTensors (info : ShapeInfo) (dimension : Dimensions info.rank) : Prop where
  starts : StartsAtCoordinates info dimension
  shortcut : (TAD.init info dimension).wholeThing = true →
    ∀ t < (TAD.init info dimension).numTads, (TAD.init info dimension).tadOffset t =
      getOffset 0 info.shape info.stride ((TAD.init info dimension).tad2Sub t)
  layoutFree : ∀ (stride : List Int) (offset elementWiseStride : Int) (order : Char)
    (hlength : stride.length = info.shape.length),
    StartsAtCoordinates ⟨info.shape, stride, offset, elementWiseStride, order, hlength⟩ dimension →
    ∀ t < (TAD.init info dimension).numTads, ∃ c, InBox info.shape c ∧
      (TAD.init info dimension).tadOffset t = dot c info.stride ∧
      (TAD.init ⟨info.shape, stride, offset, elementWiseStride, order, hlength⟩
        dimension).tadOffset t = dot c stride

section Numbers

variable {info : ShapeInfo} {dimension : Dimensions info.rank}

theorem start_eq (dimension : Dimensions info.rank) (t : Nat) :
    dimension.start info.shape t = dimension.coordinate
      (decode (dimension.leftOver info.shape) t) (decode (dimension.kept info.shape) 0) := by
  rw [Dimensions.start, decode_zero, length_kept dimension rfl]

variable (hpos : info.Positive)

include hpos

theorem inBox_start {t : Nat} (ht : t < volume (TAD.init info dimension).leftOver) :
    InBox info.shape (dimension.start info.shape t) := by
  have hu : InBox (dimension.leftOver info.shape) (decode (dimension.leftOver info.shape) t) :=
    TAD.inBox_leftOver hpos ht
  have hv : InBox (dimension.kept info.shape) (decode (dimension.kept info.shape) 0) :=
    @TAD.inBox_kept (TAD.init info dimension) hpos 0 (TAD.volume_kept_pos hpos)
  rw [start_eq]
  exact (bijOn_coordinate dimension rfl).mapsTo (show (_, _) ∈ _ from ⟨hu, hv⟩)

/-- The coordinate of a number lies at the base of its tensor. -/
theorem dot_start {t : Nat} (ht : t < volume (TAD.init info dimension).leftOver) :
    dot (dimension.start info.shape t) info.stride =
      (TAD.init info dimension).base (decode (dimension.leftOver info.shape) t) := by
  have hu : InBox (dimension.leftOver info.shape) (decode (dimension.leftOver info.shape) t) :=
    TAD.inBox_leftOver hpos ht
  have hdot := @TAD.dot_coordinate (TAD.init info dimension) hpos _ hu 0 (TAD.volume_kept_pos hpos)
  rw [offsetAt_zero, add_zero] at hdot
  rw [start_eq]
  exact hdot

/-- The first tensor starts at offset zero, which is its coordinate's. -/
theorem tadOffset_zero :
    (TAD.init info dimension).tadOffset 0 =
      (TAD.init info dimension).base (decode (dimension.leftOver info.shape) 0) := by
  have hbase : (TAD.init info dimension).base (decode (dimension.leftOver info.shape) 0) = 0 := by
    have hoffset := (TAD.init info dimension).offsetAt_leftOver 0
    rw [offsetAt_zero] at hoffset
    exact hoffset.symm
  rw [hbase]
  cases hwhole : (TAD.init info dimension).wholeThing with
  | true => rw [TAD.tadOffset, if_pos hwhole, Nat.cast_zero]
  | false =>
      have hoffset := tadOffset_of_not_wholeThing hpos hwhole
        (@TAD.volume_leftOver_pos (TAD.init info dimension) hpos)
      rw [show (TAD.init info dimension).base
        (decode ((TAD.init info dimension).dimension.leftOver
          (TAD.init info dimension).shapeInfo.shape) 0) = 0 from hbase] at hoffset
      rw [hoffset]
      split
      · rfl
      · rfl

/-- A single tensor starts at its coordinate. -/
theorem startsAtCoordinates_of_one (hone : volume (TAD.init info dimension).leftOver = 1) :
    StartsAtCoordinates info dimension := by
  intro t ht
  rw [numTads_init hpos] at ht
  have hzero : t = 0 := by omega
  subst hzero
  rw [dot_start hpos ht]
  exact tadOffset_zero hpos

/-- Starting at the coordinates is the whole of it: the rest follows. -/
theorem numbersTensors_of_starts (h : StartsAtCoordinates info dimension) :
    NumbersTensors info dimension where
  starts := h
  shortcut := by
    intro _ t ht
    have ht' : t < volume (TAD.init info dimension).leftOver := numTads_init hpos ▸ ht
    rw [h t ht, dot_start hpos ht']
    exact (getOffset_tad2Sub hpos ht').symm
  layoutFree := by
    intro stride offset elementWiseStride order hlength hother t ht
    exact ⟨_, inBox_start hpos (numTads_init hpos ▸ ht), h t ht, hother t ht⟩

/-- The tensors start at the coordinates of their numbers exactly if there is one tensor, or the
shortcut does not meet an F order and no offset falls to the error marker. -/
theorem startsAtCoordinates_iff (hews : info.HonestEws)
    (hproper : dimension.toList.length < info.rank) :
    StartsAtCoordinates info dimension ↔
      (dimension.leftOver info.shape).prod = 1 ∨
        (2 < info.rank → (dimension.kept info.shape).prod = 1 → info.elementWiseStride = 1 →
          info.isFOrder = false ∨ (squeeze (dimension.leftOver info.axes)).length ≤ 1) ∧
        (dimension.toList.length = 1 ∨ ∀ c, InBox (dimension.leftOver info.shape) c →
          -1 ≤ dot c (dimension.leftOver info.stride)) := by
  have hvolume : volume (TAD.init info dimension).leftOver =
      (dimension.leftOver info.shape).prod := by
    rw [volume, TAD.dims_leftOver]
    rfl
  have hkept : volume (TAD.init info dimension).kept = (dimension.kept info.shape).prod := by
    rw [volume, TAD.dims_kept]
    rfl
  by_cases hone : (dimension.leftOver info.shape).prod = 1
  · exact ⟨fun _ => Or.inl hone, fun _ => startsAtCoordinates_of_one hpos (hvolume.trans hone)⟩
  · have hiff := tadOffset_eq_base_iff hpos hews hproper (hvolume ▸ hone)
    have hbase : StartsAtCoordinates info dimension ↔
        ∀ t < volume (TAD.init info dimension).leftOver, (TAD.init info dimension).tadOffset t =
          (TAD.init info dimension).base (decode (dimension.leftOver info.shape) t) := by
      rw [StartsAtCoordinates, numTads_init hpos]
      refine forall_congr' fun t => forall_congr' fun ht => ?_
      rw [dot_start hpos ht]
    rw [hbase, hiff, hkept, or_iff_right hone]
    rfl

omit hpos

/-- Tensor numbers mean the same for every layout exactly if there is one tensor, or the
shortcut does not meet an F order and no offset falls to the error marker. -/
theorem numbersTensors_iff (hpos : info.Positive) (hews : info.HonestEws)
    (hproper : dimension.toList.length < info.rank) :
    NumbersTensors info dimension ↔
      (dimension.leftOver info.shape).prod = 1 ∨
        (2 < info.rank → (dimension.kept info.shape).prod = 1 → info.elementWiseStride = 1 →
          info.isFOrder = false ∨ (squeeze (dimension.leftOver info.axes)).length ≤ 1) ∧
        (dimension.toList.length = 1 ∨ ∀ c, InBox (dimension.leftOver info.shape) c →
          -1 ≤ dot c (dimension.leftOver info.stride)) := by
  rw [← startsAtCoordinates_iff hpos hews hproper]
  exact ⟨fun h => h.starts, numbersTensors_of_starts hpos⟩

end Numbers

/-- A matrix in F order with a middle axis of extent one. -/
def fortranSandwich : ShapeInfo where
  shape := [2, 1, 3]
  stride := [1, 2, 2]
  offset := 0
  elementWiseStride := 1
  order := 'f'
  stride_length := rfl

def middleAxis : Dimensions fortranSandwich.rank where
  toList := [1]
  ne_nil := one_ne_nil
  sorted := pairwise_one
  lt_rank := by decide

theorem numbersTensors_iff_fortranSandwich :
    NumbersTensors fortranSandwich middleAxis ↔
      (middleAxis.leftOver fortranSandwich.shape).prod = 1 ∨
        (2 < fortranSandwich.rank → (middleAxis.kept fortranSandwich.shape).prod = 1 →
          fortranSandwich.elementWiseStride = 1 → fortranSandwich.isFOrder = false ∨
            (squeeze (middleAxis.leftOver fortranSandwich.axes)).length ≤ 1) ∧
        (middleAxis.toList.length = 1 ∨ ∀ c, InBox (middleAxis.leftOver fortranSandwich.shape) c →
          -1 ≤ dot c (middleAxis.leftOver fortranSandwich.stride)) :=
  numbersTensors_iff (by decide) (by decide) (by decide)

/-- Tensor number one of the matrix is said to start one cell on, which is where number
three belongs. -/
theorem not_numbersTensors_always :
    ¬ ∀ (info : ShapeInfo) (dimension : Dimensions info.rank), info.Positive → info.HonestEws →
      dimension.toList.length < info.rank → NumbersTensors info dimension := by
  intro h
  have hnumbers := h fortranSandwich middleAxis (by decide) (by decide) (by decide)
  exact absurd (hnumbers.starts 1 (by decide)) (by decide)

end Shape
end LibND4J
