import LibND4J.Arrays.Reshapei

/-!
# Cells of the elements

The elements of an array are numbered in C or in F order.  With cells of their own for the
coordinates, different numbers name different cells, and the two numberings agree exactly for
the arrays that are one line.

Main results:

- Theorem `elementOffset_inj`: different elements lie in different cells.
- Theorem `forall_coordinateOf_iff`: the orders agree if at most one extent is above one.
-/

namespace LibND4J
namespace Arrays

open Shape Strided

variable {info : ShapeInfo}

theorem elementOffset_eq_dot (info : ShapeInfo) (isFOrder : Bool) (k : Nat) :
    elementOffset isFOrder info.axes k = dot (coordinateOf isFOrder info.shape k) info.stride := by
  rw [elementOffset, ShapeInfo.dims_axes, ShapeInfo.map_snd_axes]
  cases isFOrder <;> rfl

/-- Elements in different cells are coordinates with cells of their own; this can be checked. -/
theorem cellsApart_of_nodup (hpos : info.Positive)
    (h : ((List.range info.length).map (elementOffset false info.axes)).Nodup) :
    CellsApart info := by
  intro c c' hc hc' hdot
  have hbij := bijOn_coordinateOf false hpos
  obtain ⟨k, hk, rfl⟩ := hbij.surjOn hc
  obtain ⟨k', hk', rfl⟩ := hbij.surjOn hc'
  rw [← elementOffset_eq_dot, ← elementOffset_eq_dot] at hdot
  rw [List.inj_on_of_nodup_map h (List.mem_range.mpr hk) (List.mem_range.mpr hk') hdot]

/-- The first element lies at the start in either order. -/
theorem elementOffset_zero (hlength : 0 < info.length) (isFOrder : Bool) :
    elementOffset isFOrder info.axes 0 = 0 := by
  rw [elementOffset_eq_ite _ _ (by rwa [info.volume_axes]), offsetAtF_zero, offsetAt_zero, ite_self]

variable {k : Nat}

/-- Different elements lie in different cells. -/
theorem elementOffset_inj (hpos : info.Positive) (hcells : CellsApart info) (isFOrder : Bool)
    {k' : Nat} (hk : k < info.length) (hk' : k' < info.length)
    (h : elementOffset isFOrder info.axes k = elementOffset isFOrder info.axes k') : k = k' := by
  have hbij := bijOn_coordinateOf isFOrder hpos
  rw [elementOffset_eq_dot, elementOffset_eq_dot] at h
  exact hbij.injOn hk hk' (hcells _ _ (hbij.mapsTo hk) (hbij.mapsTo hk') h)

/-- The elements in one order are the elements in the other. -/
theorem exists_elementOffset_eq (hpos : info.Positive) (isFOrder isFOrder' : Bool)
    (hk : k < info.length) :
    ∃ k' < info.length, elementOffset isFOrder info.axes k' = elementOffset isFOrder' info.axes k := by
  obtain ⟨k', hk', heq⟩ := (bijOn_coordinateOf isFOrder hpos).surjOn
    ((bijOn_coordinateOf isFOrder' hpos).mapsTo hk)
  exact ⟨k', hk', by rw [elementOffset_eq_dot, elementOffset_eq_dot, heq]⟩

/-- The cell of an element, numbered in the array's own order. -/
def ownCell (info : ShapeInfo) (k : Nat) : Int :=
  elementOffset info.isFOrder info.axes k

/-- With an honest slot the cells are multiples of the element-wise stride. -/
theorem ownCell_of_honest (hews : info.HonestEws) (hslot : info.elementWiseStride ≥ 1)
    (hk : k < info.length) : ownCell info k = k * info.elementWiseStride :=
  hews hslot k hk

/-- Decoding column-major walks the elements in F order from the offset slot on. -/
theorem getOffset_ind2sub_eq (hpos : info.Positive) (hk : k < info.length) (baseOffset : Int) :
    getOffset baseOffset info.shape info.stride (ind2sub info.shape k) =
      baseOffset + elementOffset true info.axes k := by
  rw [getOffset_ind2sub hpos hk, elementOffset_eq_ite true _ (by rwa [info.volume_axes])]
  rfl

theorem positive_of_length (h : 0 < info.length) : info.Positive := by
  intro d hd
  apply Nat.pos_of_ne_zero
  rintro rfl
  rw [ShapeInfo.length, List.prod_eq_zero hd] at h
  exact Nat.lt_irrefl 0 h

/-- The `k`-th element in F order, by its number in C order. -/
theorem elementOffset_transposeIndex (hpos : info.Positive) (hk : k < info.length) :
    elementOffset true info.axes k =
      elementOffset false info.axes (transposeIndex info.shape k) := by
  rw [elementOffset_eq_dot, elementOffset_eq_dot]
  show dot (decodeF info.shape k) _ = dot (decode info.shape (transposeIndex info.shape k)) _
  rw [decode_transposeIndex hpos hk]

/-- An array with an honest positive slot has cells of their own for its coordinates. -/
theorem cellsApart_of_honest (hews : info.HonestEws) (hslot : info.elementWiseStride ≥ 1) :
    CellsApart info := by
  intro c c' hc hc' hdot
  have hpos : info.Positive := positive_of_length (Nat.zero_lt_of_lt (encode_lt hc))
  have hbij := bijOn_coordinateOf info.isFOrder hpos
  obtain ⟨k, hk, rfl⟩ := hbij.surjOn hc
  obtain ⟨k', hk', rfl⟩ := hbij.surjOn hc'
  rw [← elementOffset_eq_dot, ← elementOffset_eq_dot, hews hslot k hk, hews hslot k' hk'] at hdot
  have heq : (k : Int) = k' := mul_right_cancel₀ (by omega) hdot
  rw [Nat.cast_injective heq]

/-- A length as an `int` keeps it; a negative one lets no loop run. -/
def intLength (info : ShapeInfo) : Nat :=
  (Loops.toInt32 info.length).toNat

theorem intLength_le (info : ShapeInfo) : intLength info ≤ info.length := by
  simp only [intLength, Loops.toInt32, Int.bmod]
  omega

theorem le_intLength_iff (info : ShapeInfo) :
    info.length ≤ intLength info ↔ info.length < 2 ^ 31 := by
  simp only [intLength, Loops.toInt32, Int.bmod]
  omega

/-- At most one extent is above one. -/
def IsLine (shape : List Nat) : Prop :=
  (shape.filter (· ≠ 1)).length ≤ 1

instance (shape : List Nat) : Decidable (IsLine shape) :=
  inferInstanceAs (Decidable (_ ≤ 1))

/-- The orders enumerate the coordinates alike exactly if the array is one line. -/
theorem forall_coordinateOf_iff {shape : List Nat} (hpos : ∀ d ∈ shape, 0 < d) :
    (∀ k < shape.prod, coordinateOf false shape k = coordinateOf true shape k) ↔
      IsLine shape := by
  rw [IsLine, ← forall_transposeIndex_iff hpos]
  refine forall₂_congr fun k hk => ?_
  show decode shape k = decodeF shape k ↔ _
  rw [← decode_transposeIndex hpos hk]
  exact ⟨fun h => (bijOn_decode hpos).injOn (transposeIndex_lt hpos hk) hk h.symm,
    fun h => (congrArg _ h).symm⟩

/-! ## Tensors -/

/-- The cell of a coordinate of a tensor. -/
def tensorCell (tadShapeInfo : ShapeInfo) (tadOffsets : List Int) (r : Nat) (c : List Nat) : Int :=
  tadOffsets.getD r 0 + dot c tadShapeInfo.stride

/-- The coordinates of the first tensors have cells of their own. -/
def TensorsApart (tadShapeInfo : ShapeInfo) (tadOffsets : List Int) (n : Nat) : Prop :=
  ∀ r r' c c', r < n → r' < n → InBox tadShapeInfo.shape c → InBox tadShapeInfo.shape c' →
    tensorCell tadShapeInfo tadOffsets r c = tensorCell tadShapeInfo tadOffsets r' c' →
    r = r' ∧ c = c'

/-- Cells that a list names once; this can be checked. -/
theorem tensorsApart_of_nodup {tadOffsets : List Int} {n : Nat} (hpos : info.Positive)
    (h : ((List.range n ×ˢ List.range info.length).map fun q =>
      tensorCell info tadOffsets q.1 (decode info.shape q.2)).Nodup) :
    TensorsApart info tadOffsets n := by
  intro r r' c c' hr hr' hc hc' heq
  have hdecode := bijOn_decode hpos
  obtain ⟨j, hj, rfl⟩ := hdecode.surjOn hc
  obtain ⟨j', hj', rfl⟩ := hdecode.surjOn hc'
  have hpair := List.inj_on_of_nodup_map h
    (List.pair_mem_product.mpr ⟨List.mem_range.mpr hr, List.mem_range.mpr hj⟩)
    (List.pair_mem_product.mpr ⟨List.mem_range.mpr hr', List.mem_range.mpr hj'⟩) heq
  rw [Prod.mk.injEq] at hpair
  exact ⟨hpair.1, congrArg _ hpair.2⟩

end Arrays
end LibND4J
