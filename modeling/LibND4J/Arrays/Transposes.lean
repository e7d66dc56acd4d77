import LibND4J.Arrays.Copies

/-!
# Three ways to transpose

`transpose` copies the first cells of the buffer, `transposei` permutes the shape
information in place, and `permute` shares the buffer.

Main results:

- Theorem `transposed_iff`: an array with the axes in reverse order is transposed if it shows
  the same cells.
- Theorem `transpose_spec`: `transpose` of an array whose elements lie in the cells that
  are copied, once and twice.
- Theorem `transposesRight_iff`: when all three agree.
- Theorem `not_transposesRight_always`: the first column of a matrix.
-/

namespace LibND4J
namespace Arrays

open HeapBlocks Shape Strided

section Operations

variable {T : Type}

/-- `NDArray::transpose`: a raw copy under permuted shape information. -/
def transpose (heap : Heap T) (array : HeapArray) : Option (Heap T × HeapArray) :=
  (copyCells array.hasWorkspace heap array).map fun out =>
    (out.1, { out.2 with shapeInfo := transposeShapeInfo array.shapeInfo })

/-- `NDArray::transposei`: without a buffer of its own the array gets one, but the shape buffer
that is permuted then is not set. -/
def transposei (heap : Heap T) (array : HeapArray) : Option (Heap T × HeapArray) :=
  if ¬ array.isBuffAlloc then none
  else
    some (heap,
      { array with shapeInfo := transposeShapeInfo array.shapeInfo, isShapeAlloc := true })

/-- `NDArray::permute`: a view. -/
def permute (dimensions : List Nat) (heap : Heap T) (array : HeapArray) :
    Option (Heap T × HeapArray) :=
  if dimensions.length ≠ array.shapeInfo.rank then none
  else
    some (heap, ⟨permuteShapeBuffer array.shapeInfo dimensions, array.buffer, false, true,
      array.hasWorkspace⟩)

/-- The permutation with the axes in reverse order. -/
def permuteReversed (heap : Heap T) (array : HeapArray) : Option (Heap T × HeapArray) :=
  permute (List.range array.shapeInfo.rank).reverse heap array

/-- The element at a coordinate is that of the array at the reversed one. -/
structure Transposed (heap heap' : Heap T) (array result : HeapArray) : Prop where
  shape : result.shapeInfo.shape = array.shapeInfo.shape.reverse
  element : ∀ c, InBox result.shapeInfo.shape c →
    result.element heap' c = array.element heap c.reverse

/-- The content is that of the array. -/
structure Restored (heap heap' : Heap T) (array result : HeapArray) : Prop where
  shape : result.shapeInfo.shape = array.shapeInfo.shape
  element : ∀ c, InBox result.shapeInfo.shape c → result.element heap' c = array.element heap c

/-- An operation transposes an array, and twice it restores the content. -/
def TransposesBy (operation : Heap T → HeapArray → Option (Heap T × HeapArray)) (heap : Heap T)
    (array : HeapArray) : Prop :=
  ∃ once, operation heap array = some once ∧ Transposed heap once.1 array once.2 ∧
    ∃ twice, operation once.1 once.2 = some twice ∧ Restored heap twice.1 array twice.2

end Operations

/-- All three ways transpose an array, and the first one leaves what memory held. -/
structure TransposesRight (sizes : List Nat) (array : HeapArray) : Prop where
  transpose : ∀ {T : Type} (heap : Heap T), Filled heap sizes → TransposesBy transpose heap array
  transposei : ∀ {T : Type} (heap : Heap T), Filled heap sizes → TransposesBy transposei heap array
  permute : ∀ {T : Type} (heap : Heap T), Filled heap sizes →
    TransposesBy permuteReversed heap array
  unchanged : ∀ {T : Type} (heap : Heap T), Filled heap sizes → ∀ out,
    Arrays.transpose heap array = some out →
      ∀ p : Place, p.block < sizes.length → read out.1 p = read heap p

/-! ## Reversed axes -/

section Reversed

variable {T : Type} {heap heap' heap'' : Heap T} {array result again : HeapArray}

theorem shape_of_axes {info target : ShapeInfo} (haxes : target.axes = info.axes.reverse) :
    target.shape = info.shape.reverse := by
  rw [← target.dims_axes, haxes, dims_reverse, info.dims_axes]

theorem stride_of_axes {info target : ShapeInfo} (haxes : target.axes = info.axes.reverse) :
    target.stride = info.stride.reverse := by
  rw [← target.map_snd_axes, haxes, List.map_reverse, info.map_snd_axes]

variable (haxes : result.shapeInfo.axes = array.shapeInfo.axes.reverse)

include haxes

/-- Reversed coordinates reach the same cells under reversed axes. -/
theorem place_of_axes {c : List Nat} (hc : InBox result.shapeInfo.shape c) :
    result.place c = result.buffer.add (dot c.reverse array.shapeInfo.stride) := by
  have hlength : c.reverse.length = array.shapeInfo.stride.length := by
    rw [List.length_reverse, ← hc.length_eq, shape_of_axes haxes, List.length_reverse,
      array.shapeInfo.stride_length]
  have hdot := dot_reverse hlength
  rw [List.reverse_reverse] at hdot
  rw [place_eq hc, stride_of_axes haxes, hdot]

theorem inBox_of_axes {c : List Nat} (hc : InBox result.shapeInfo.shape c) :
    InBox array.shapeInfo.shape c.reverse := by
  rw [shape_of_axes haxes] at hc
  rwa [← inBox_reverse_iff, List.reverse_reverse]

/-- An array with the axes in reverse order is transposed exactly if it shows the same cells. -/
theorem transposed_iff :
    Transposed heap heap' array result ↔ ∀ c, InBox array.shapeInfo.shape c →
      read heap' (result.buffer.add (dot c array.shapeInfo.stride)) = array.element heap c := by
  have hshape := shape_of_axes haxes
  constructor
  · intro h c hc
    have hbox : InBox result.shapeInfo.shape c.reverse := hshape ▸ inBox_reverse_iff.mpr hc
    have hvalue := h.element c.reverse hbox
    rwa [HeapArray.element, place_of_axes haxes hbox, List.reverse_reverse] at hvalue
  · intro h
    refine ⟨hshape, fun c hc => ?_⟩
    rw [HeapArray.element, place_of_axes haxes hc]
    exact h c.reverse (inBox_of_axes haxes hc)

omit haxes

/-- Transposing twice restores the content. -/
theorem Transposed.restored (h : Transposed heap heap' array result)
    (h' : Transposed heap' heap'' result again) : Restored heap heap'' array again := by
  have hshape : again.shapeInfo.shape = array.shapeInfo.shape := by
    rw [h'.shape, h.shape, List.reverse_reverse]
  refine ⟨hshape, fun c hc => ?_⟩
  have hbox : InBox result.shapeInfo.shape c.reverse := by
    rw [h.shape, inBox_reverse_iff, ← hshape]
    exact hc
  rw [h'.element c hc, h.element _ hbox, List.reverse_reverse]

end Reversed

/-! ## The three ways -/

section Ways

variable {T : Type} {heap : Heap T} {sizes : List Nat} {array : HeapArray}

theorem axes_transposeShapeInfo (info : ShapeInfo) :
    (transposeShapeInfo info).axes = info.axes.reverse :=
  axes_reverseAxes info

@[simp]
theorem length_transposeShapeInfo (info : ShapeInfo) :
    (transposeShapeInfo info).length = info.length := by
  rw [← ShapeInfo.volume_axes, axes_transposeShapeInfo, volume_reverse, ShapeInfo.volume_axes]

theorem liesInLength_transposeShapeInfo {info : ShapeInfo} (hlies : LiesInLength info) :
    LiesInLength (transposeShapeInfo info) := by
  have haxes := axes_transposeShapeInfo info
  intro c hc
  have hbox : InBox info.shape c.reverse := by
    rw [shape_of_axes haxes] at hc
    rwa [← inBox_reverse_iff, List.reverse_reverse]
  have hdot : dot c (transposeShapeInfo info).stride = dot c.reverse info.stride := by
    have hreverse := @dot_reverse Int _ c.reverse info.stride
      (by rw [info.stride_length, hbox.length_eq])
    rwa [List.reverse_reverse, ← stride_of_axes haxes] at hreverse
  rw [hdot, length_transposeShapeInfo]
  exact hlies _ hbox

/-- A copy whose elements lie in the cells that are copied, in a block of its own, can be copied
again. -/
structure Stands (heap : Heap T) (array : HeapArray) : Prop where
  block : array.buffer.block < heap.length
  rangeIn : RangeIn heap array.buffer array.shapeInfo.length
  liesInLength : LiesInLength array.shapeInfo

/-- `transpose` of an array whose elements lie in the cells that are copied. -/
theorem transpose_spec (h : Stands heap array) :
    ∃ out, transpose heap array = some out ∧ Transposed heap out.1 array out.2 ∧
      Stands out.1 out.2 := by
  obtain ⟨⟨heap', copy⟩, hcopy, hcopied⟩ :=
    (@copied_copyCells_iff _ heap heap array array.hasWorkspace h.block fun _ => rfl).mpr
      ⟨h.rangeIn, h.liesInLength⟩
  have hraw := rawCopy_of_copyCells hcopy
  have haxes := axes_transposeShapeInfo array.shapeInfo
  refine ⟨_, by rw [transpose, hcopy]; rfl, (transposed_iff haxes).mpr fun c hc => ?_, ?_, ?_, ?_⟩
  · have hvalue := hcopied.element c hc
    rwa [HeapArray.element, place_of_info hraw.shapeInfo hc] at hvalue
  · show copy.buffer.block < heap'.length
    rw [hraw.buffer, hraw.length]
    exact Nat.lt_succ_self _
  · show RangeIn heap' copy.buffer (transposeShapeInfo array.shapeInfo).length
    rw [hraw.buffer, length_transposeShapeInfo]
    exact ⟨le_refl 0, by rw [hraw.size, Int.zero_add]⟩
  · exact liesInLength_transposeShapeInfo h.liesInLength

/-- `transpose`, exactly if the elements lie in the cells that are copied. -/
theorem transposesBy_transpose_iff (hsource : InMemory sizes array) :
    (∀ {T : Type} (heap : Heap T), Filled heap sizes → TransposesBy transpose heap array) ↔
      CellsIn sizes array ∧ LiesInLength array.shapeInfo := by
  constructor
  · intro h
    obtain ⟨once, honce, htransposed, -⟩ := h (numbered sizes) (filled_numbered sizes)
    obtain ⟨⟨heap', copy⟩, hcopy, rfl⟩ := Option.map_eq_some_iff.mp honce
    have hblock : array.buffer.block < (numbered sizes).length :=
      (filled_numbered sizes).length_eq ▸ hsource.1
    have hraw := rawCopy_of_copyCells hcopy
    refine ⟨(rangeIn_iff (filled_numbered sizes)).mp (rangeIn_of_copyCells hblock hcopy),
      fun c hc => ?_⟩
    -- the elements have contents, and the new block has no cells besides those that are copied
    have hvalue : read heap' (copy.buffer.add (dot c array.shapeInfo.stride)) = _ :=
      (transposed_iff (axes_transposeShapeInfo array.shapeInfo)).mp htransposed c hc
    have hbounds := bounds_of_read (hvalue ▸ element_isSome (filled_numbered sizes) hsource hc)
    rw [hraw.buffer, Place.add] at hbounds
    rwa [hraw.size, Int.zero_add] at hbounds
  · rintro ⟨hin, hlies⟩ T heap hfilled
    have hstands : Stands heap array :=
      ⟨hfilled.length_eq ▸ hsource.1, (rangeIn_iff hfilled).mpr hin, hlies⟩
    obtain ⟨once, honce, htransposed, hstands'⟩ := transpose_spec hstands
    obtain ⟨twice, htwice, htransposed', -⟩ := transpose_spec hstands'
    exact ⟨once, honce, htransposed, twice, htwice, htransposed.restored htransposed'⟩

/-- In place the cells stay, but an array needs a buffer of its own. -/
theorem transposesBy_transposei_iff :
    (∀ {T : Type} (heap : Heap T), Filled heap sizes → TransposesBy transposei heap array) ↔
      array.isBuffAlloc = true := by
  have hright : ∀ {T : Type} (heap : Heap T) (array : HeapArray), array.isBuffAlloc = true →
      ∃ out, transposei heap array = some out ∧ Transposed heap out.1 array out.2 ∧
        out.2.isBuffAlloc = true := by
    intro T heap array howned
    refine ⟨_, if_neg (not_not.mpr howned),
      (transposed_iff (axes_transposeShapeInfo array.shapeInfo)).mpr fun c hc => ?_, howned⟩
    rw [HeapArray.element, place_eq hc]
  constructor
  · intro h
    by_contra hview
    obtain ⟨once, honce, -⟩ := h (numbered sizes) (filled_numbered sizes)
    rw [transposei, if_pos hview] at honce
    cases honce
  · intro howned T heap _
    obtain ⟨once, honce, htransposed, howned'⟩ := hright heap array howned
    obtain ⟨twice, htwice, htransposed', -⟩ := hright once.1 once.2 howned'
    exact ⟨once, honce, htransposed, twice, htwice, htransposed.restored htransposed'⟩

/-- A view shows the same cells. -/
theorem transposesBy_permuteReversed (heap : Heap T) (array : HeapArray) :
    TransposesBy permuteReversed heap array := by
  have hright : ∀ array : HeapArray, ∃ out, permuteReversed heap array = some (heap, out) ∧
      Transposed heap heap array out := by
    intro array
    refine ⟨_, if_neg (not_not.mpr (by rw [List.length_reverse, List.length_range])),
      (transposed_iff (axes_transposeShapeInfo array.shapeInfo)).mpr fun c hc => ?_⟩
    rw [HeapArray.element, place_eq hc]
  obtain ⟨once, honce, htransposed⟩ := hright array
  obtain ⟨twice, htwice, htransposed'⟩ := hright once
  exact ⟨_, honce, htransposed, _, htwice, htransposed.restored htransposed'⟩

/-- The three ways to transpose an array agree exactly if it owns its buffer, and its elements lie
in the cells that are copied. -/
theorem transposesRight_iff (hsource : InMemory sizes array) :
    TransposesRight sizes array ↔
      (CellsIn sizes array ∧ LiesInLength array.shapeInfo) ∧ array.isBuffAlloc = true := by
  constructor
  · intro h
    exact ⟨(transposesBy_transpose_iff hsource).mp h.transpose,
      transposesBy_transposei_iff.mp h.transposei⟩
  · rintro ⟨hraw, howned⟩
    refine ⟨(transposesBy_transpose_iff hsource).mpr hraw,
      transposesBy_transposei_iff.mpr howned,
      fun heap _ => transposesBy_permuteReversed heap array, fun heap hfilled out hout p hp => ?_⟩
    obtain ⟨copy, hcopy, rfl⟩ := Option.map_eq_some_iff.mp hout
    exact (rawCopy_of_copyCells hcopy).frame p (hfilled.length_eq ▸ hp)

theorem transposesRight_iff_wholeMatrix :
    TransposesRight [4] wholeMatrix ↔
      (CellsIn [4] wholeMatrix ∧ LiesInLength wholeMatrix.shapeInfo) ∧
        wholeMatrix.isBuffAlloc = true :=
  transposesRight_iff inMemory_wholeMatrix

/-- Of the first column of a matrix the copied cells hold only one element. -/
theorem not_transposesRight_always :
    ¬ ∀ (sizes : List Nat) (array : HeapArray), 2 ≤ array.shapeInfo.rank →
      array.shapeInfo.Positive → InMemory sizes array → TransposesRight sizes array := by
  intro h
  have hright := h [4] firstColumn (by decide) (by decide) inMemory_firstColumn
  have hraw := (transposesBy_transpose_iff inMemory_firstColumn).mp hright.transpose
  exact not_liesInLength_firstColumn hraw.2

end Ways

end Arrays
end LibND4J
