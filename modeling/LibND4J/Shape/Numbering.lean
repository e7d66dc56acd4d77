import LibND4J.Arrays.Cells
import LibND4J.Shape.HonestSlots

/-!
# The numbering of a fresh array

The strides of a fresh array lay its elements one after the other.  `ind2subC` and
`ind2sub` decode the place of an element in the two orders, `sub2Ind` encodes it again in
the second one.

Main results:

- Theorems `sub2Ind_ind2sub` and `ind2sub_sub2Ind`: the conversions round-trip.
- Theorems `numbers_ind2subC` and `numbers_ind2sub`: strides that step through the
  elements in an order number the coordinates of this order.
- Theorem `fresh_numbering`: all fresh strides number the coordinates of their order, and the
  conversions enumerate all of them.
-/

namespace LibND4J
namespace Shape

open Arrays Strided

/-- `sub2Ind`; the second part of the loop's state is the shift. -/
def sub2Ind (shape indices : List Nat) : Nat :=
  ((indices.zip shape).foldl (fun acc q => (acc.1 + acc.2 * q.1, acc.2 * q.2)) (0, 1)).1

/-- The element at the `i`-th coordinate of an order has the buffer offset `i`. -/
def Numbers (shape : List Nat) (stride : List Int) (coordinate : Nat → List Nat) : Prop :=
  ∀ i < shape.prod, getOffset 0 shape stride (coordinate i) = i

/-! ## Conversions -/

section Conversions

variable {shape coords : List Nat}

theorem sub2Ind_eq_encode (h : InBox shape coords) :
    sub2Ind shape coords = encode shape.reverse coords.reverse := by
  have hloop := congrArg Prod.fst (foldl_shift h 0 1)
  rw [zero_add, one_mul] at hloop
  simp only [sub2Ind, Nat.mul_comm _ (Prod.fst _)]
  exact hloop

/-- Decoding the index of a coordinate gives it back. -/
theorem ind2sub_sub2Ind (h : InBox shape coords) :
    ind2sub shape (sub2Ind shape coords) = coords := by
  rw [ind2sub_eq_decodeF h.pos, sub2Ind_eq_encode h, decodeF,
    decode_encode (inBox_reverse_iff.mpr h), List.reverse_reverse]

variable (hpos : ∀ d ∈ shape, 0 < d)

include hpos

/-- Encoding a decoded coordinate gives its index back. -/
theorem sub2Ind_ind2sub {i : Nat} (hi : i < shape.prod) : sub2Ind shape (ind2sub shape i) = i := by
  have hrev : ∀ d ∈ shape.reverse, 0 < d := fun d hd => hpos d (List.mem_reverse.mp hd)
  rw [ind2sub_eq_decodeF hpos, sub2Ind_eq_encode ((bijOn_decodeF hpos).mapsTo hi), decodeF,
    List.reverse_reverse, encode_decode hrev (by rwa [List.prod_reverse])]

/-- `ind2subC` is `ind2sub` of the axes in the opposite order. -/
theorem ind2subC_eq_reverse (i : Nat) : ind2subC shape i = (ind2sub shape.reverse i).reverse := by
  have hrev : ∀ d ∈ shape.reverse, 0 < d := fun d hd => hpos d (List.mem_reverse.mp hd)
  rw [ind2subC_eq_decode hpos, ind2sub_eq_decodeF hrev, decodeF, List.reverse_reverse,
    List.reverse_reverse]

/-- `ind2sub` enumerates all coordinates, and `sub2Ind` is its inverse. -/
theorem ind2sub_enumerates :
    Set.BijOn (ind2sub shape) {i | i < shape.prod} {c | InBox shape c} ∧
      Set.InvOn (sub2Ind shape) (ind2sub shape) {i | i < shape.prod} {c | InBox shape c} := by
  refine ⟨(bijOn_decodeF hpos).congr fun i _ => (ind2sub_eq_decodeF hpos i).symm, ?_, ?_⟩
  · intro i hi
    exact sub2Ind_ind2sub hpos hi
  · intro c hc
    exact ind2sub_sub2Ind hc

/-- `ind2subC` enumerates all coordinates, and `sub2Ind` on the axes in the opposite order is its
inverse. -/
theorem ind2subC_enumerates :
    Set.BijOn (ind2subC shape) {i | i < shape.prod} {c | InBox shape c} ∧
      Set.InvOn (fun c => sub2Ind shape.reverse c.reverse) (ind2subC shape)
        {i | i < shape.prod} {c | InBox shape c} := by
  have hrev : ∀ d ∈ shape.reverse, 0 < d := fun d hd => hpos d (List.mem_reverse.mp hd)
  refine ⟨(bijOn_decode hpos).congr fun i _ => (ind2subC_eq_decode hpos i).symm, ?_, ?_⟩
  · intro i hi
    show sub2Ind shape.reverse (ind2subC shape i).reverse = i
    rw [ind2subC_eq_reverse hpos, List.reverse_reverse]
    exact sub2Ind_ind2sub hrev (by rwa [List.prod_reverse])
  · intro c hc
    show ind2subC shape (sub2Ind shape.reverse c.reverse) = c
    rw [ind2subC_eq_reverse hpos, ind2sub_sub2Ind (inBox_reverse_iff.mpr hc),
      List.reverse_reverse]

end Conversions

/-! ## Strides -/

section Strides

variable {info : ShapeInfo}

/-- Strides that step through the elements in C order number the coordinates of `ind2subC`. -/
theorem numbers_ind2subC (hpos : info.Positive)
    (h : ∀ i < info.length, elementOffset false info.axes i = i) :
    Numbers info.shape info.stride (ind2subC info.shape) := by
  intro i hi
  have hstep := h i hi
  rw [elementOffset_eq_ite _ _ (by rwa [info.volume_axes])] at hstep
  rw [getOffset_ind2subC hpos hi, zero_add]
  exact hstep

/-- Strides that step through the elements in F order number the coordinates of `ind2sub`. -/
theorem numbers_ind2sub (hpos : info.Positive)
    (h : ∀ i < info.length, elementOffset true info.axes i = i) :
    Numbers info.shape info.stride (ind2sub info.shape) := by
  intro i hi
  rw [getOffset_ind2sub_eq hpos hi, zero_add, h i hi]

variable {shape : List Nat}

variable (hpos : ∀ d ∈ shape, 0 < d)

include hpos

theorem numbers_shapeBuffer : Numbers shape (shapeBuffer shape).stride (ind2subC shape) := by
  have hnumbers := @numbers_ind2subC (shapeBuffer shape)
  rw [ShapeInfo.Positive, ShapeInfo.length, axes_shapeBuffer, shape_shapeBuffer] at hnumbers
  exact hnumbers hpos fun i hi => elementOffset_calcStrides hi

theorem numbers_shapeBufferFortran :
    Numbers shape (shapeBufferFortran shape).stride (ind2sub shape) := by
  have hnumbers := @numbers_ind2sub (shapeBufferFortran shape)
  rw [ShapeInfo.Positive, ShapeInfo.length, axes_shapeBufferFortran, shape_shapeBufferFortran]
    at hnumbers
  exact hnumbers hpos fun i hi => elementOffset_calcStridesFortran hi

/-- `updateStrides` numbers in C order for `c`, and in F order for every other flag. -/
theorem numbers_updateStrides (order : Char) :
    Numbers shape (updateStrides shape order).stride
      (if order = 'c' then ind2subC shape else ind2sub shape) := by
  by_cases horder : order = 'c'
  · rw [if_pos horder, horder]
    exact fun i hi => getOffset_updateStrides hpos hi
  · rw [if_neg horder]
    refine @numbers_ind2sub (updateStrides shape order) hpos fun i hi => ?_
    show elementOffset true (shape.zip (if order = 'c' then cStrides shape else fStrides 1 shape)) i
      = i
    rw [if_neg horder, fStrides_eq]
    exact elementOffset_groupStrides true hi

omit hpos

/-- All fresh strides number the coordinates of their order, and the conversions between places
and coordinates enumerate all of them. -/
theorem fresh_numbering (hpos : ∀ d ∈ shape, 0 < d) :
    (Numbers shape (shapeBuffer shape).stride (ind2subC shape) ∧
      Numbers shape (shapeBufferFortran shape).stride (ind2sub shape) ∧
      ∀ order, Numbers shape (updateStrides shape order).stride
        (if order = 'c' then ind2subC shape else ind2sub shape)) ∧
    (Set.BijOn (ind2sub shape) {i | i < shape.prod} {c | InBox shape c} ∧
      Set.InvOn (sub2Ind shape) (ind2sub shape) {i | i < shape.prod} {c | InBox shape c}) ∧
    (Set.BijOn (ind2subC shape) {i | i < shape.prod} {c | InBox shape c} ∧
      Set.InvOn (fun c => sub2Ind shape.reverse c.reverse) (ind2subC shape)
        {i | i < shape.prod} {c | InBox shape c}) := by
  refine ⟨⟨?_, ?_, ?_⟩, ind2sub_enumerates hpos, ind2subC_enumerates hpos⟩
  · exact numbers_shapeBuffer hpos
  · exact numbers_shapeBufferFortran hpos
  · exact numbers_updateStrides hpos

/-- A matrix with two rows and three columns. -/
theorem fresh_numbering_matrix : getOffset 0 [2, 3] (shapeBuffer [2, 3]).stride [1, 2] = 5 ∧
    getOffset 0 [2, 3] (shapeBufferFortran [2, 3]).stride [1, 0] = 1 ∧
    sub2Ind [2, 3] (ind2sub [2, 3] 4) = 4 := by
  have h := @fresh_numbering [2, 3] (by decide)
  exact ⟨h.1.1 5 (by decide), h.1.2.1 1 (by decide), h.2.1.2.1 (show 4 < [2, 3].prod by decide)⟩

end Strides

end Shape
end LibND4J
