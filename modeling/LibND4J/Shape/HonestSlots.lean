import LibND4J.Shape.ReduceShape
import LibND4J.Shape.ShapeBuffer
import LibND4J.Shape.Tad

/-!
# Honest slots

The fast paths of the loops trust two slots of a shape information buffer: a positive
element-wise stride is the step from one element to the next, in C or in F order as the order
slot says.  The file shows which routines of the shape library leave such slots.

Main results:

- Theorem `elementOffset_of_contiguousFrom`: strides that pass the test of
  `getOrder` step through the elements.
- Theorems `honestSlots_shapeBuffer`, `honestSlots_shapeBufferFortran` and
  `honestSlots_updateStrides`: fresh strides have honest slots.
- Theorem `honestSlots_shapeInfoOnlyShapeAndStride`: so has the shape information of the
  tensors along dimensions.
-/

namespace LibND4J
namespace Shape

open Strided Selection

/-- The slots are honest: where the order slot names the C or the F order, the element-wise
stride steps through the elements in that order. -/
def ShapeInfo.HonestSlots (info : ShapeInfo) : Prop :=
  info.order = 'c' ∨ info.order = 'f' → info.HonestEws

instance (info : ShapeInfo) : Decidable info.HonestSlots :=
  inferInstanceAs (Decidable (_ ∨ _ → info.HonestEws))

section Slots

variable {info : ShapeInfo}

theorem ShapeInfo.HonestEws.honestSlots (h : info.HonestEws) : info.HonestSlots :=
  fun _ => h

theorem honestSlots_of_nonpositive (h : info.elementWiseStride < 1) : info.HonestSlots := by
  intro _ hews
  omega

theorem honestSlots_of_length (h : info.length = 0) : info.HonestSlots := by
  intro _ _ k hk
  omega

/-- A dense array may have an element-wise stride of one. -/
theorem honestSlots_of_dense (hews : info.elementWiseStride = 1)
    (hdense : ∀ k < info.length, elementOffset info.isFOrder info.axes k = k) :
    info.HonestSlots := by
  intro _ _ k hk
  rw [hdense k hk, hews, mul_one]

/-- A row may have its stride as the element-wise stride. -/
theorem honestSlots_of_row {b : Nat × Int} (haxes : info.axes = [(1, 1), b])
    (hews : info.elementWiseStride = b.2) : info.HonestSlots := by
  intro _ _ k hk
  have hk' : k < volume info.axes := by rwa [info.volume_axes]
  rw [elementOffset_eq _ _ hk']
  rw [haxes, volume_cons, volume_cons, volume_nil, one_mul, mul_one] at hk'
  rw [haxes, hews]
  cases info.isFOrder <;>
    simp [orient, offsetAt_cons, Nat.div_eq_of_lt hk', Nat.mod_eq_of_lt hk', Nat.mod_one]

end Slots

/-! ## Contiguous strides -/

/-- Strides that grow with the extents step through the elements in F order. -/
theorem elementOffset_of_contiguousFrom {axes : List (Nat × Int)} {s : Int}
    (h : contiguousFrom axes s = true) {k : Nat} (hk : k < volume axes) :
    elementOffset true axes k = k * s := by
  rw [elementOffset_eq_ite _ _ hk, if_pos rfl]
  induction axes generalizing s k with
  | nil =>
      have hzero : k = 0 := by simpa using hk
      rw [hzero, offsetAtF_zero, Nat.cast_zero, zero_mul]
  | cons a axes ih =>
      obtain ⟨d, stride⟩ := a
      rw [volume_cons] at hk
      have hd : 0 < d := Nat.pos_of_mul_pos_right (Nat.zero_lt_of_lt hk)
      rw [contiguousFrom] at h
      split at h
      · cases h
      · rename_i hstride
        have hstride : stride = s := not_not.mp hstride
        rw [if_neg hd.ne'] at h
        have hrest := ih h (Nat.div_lt_of_lt_mul hk)
        rw [offsetAtF_cons (d, stride) axes hk, hrest, hstride, nsmul_eq_mul]
        have hsplit : (k : Int) = (k % d : Nat) + (k / d : Nat) * (d : Nat) := by
          rw [← Nat.cast_mul, ← Nat.cast_add, Nat.mod_add_div']
        calc ((k % d : Nat) : Int) * s + (k / d : Nat) * (s * d)
            = ((k % d : Nat) + (k / d : Nat) * (d : Nat)) * s := by ring
          _ = k * s := by rw [← hsplit]

/-- The order found is C exactly if the strides do not grow with the extents. -/
theorem getOrder_eq_c_iff (axes : List (Nat × Int)) (elementStride : Int) :
    getOrder axes elementStride = 'c' ↔ ¬ contiguousFrom axes elementStride = true := by
  rw [getOrder]
  by_cases hfortran : contiguousFrom axes elementStride = true
  · by_cases hc : contiguousFrom axes.reverse 1 = true
    · simp [hfortran, hc]
    · simp [hfortran, hc]
  · simp [hfortran]

/-- Reversed axes have their C order where the axes have their F order. -/
theorem elementOffset_reverse (axes : List (Nat × Int)) {k : Nat} (hk : k < volume axes) :
    elementOffset false axes.reverse k = elementOffset true axes k := by
  rw [elementOffset_eq _ _ (by rwa [volume_reverse]), elementOffset_eq _ _ hk]
  rfl

/-! ## Fresh strides -/

/-- Some extent is zero unless all are positive. -/
theorem prod_eq_zero_of_not_pos {shape : List Nat} (hpos : ¬ ∀ d ∈ shape, 0 < d) :
    shape.prod = 0 := by
  apply List.prod_eq_zero
  by_contra hzero
  exact hpos fun d hd => Nat.pos_of_ne_zero fun hd' => hzero (hd' ▸ hd)

theorem honestSlots_shapeBuffer (shape : List Nat) : (shapeBuffer shape).HonestSlots := by
  by_cases hpos : ∀ d ∈ shape, 0 < d
  · exact (honestEws_shapeBuffer hpos).honestSlots
  · apply honestSlots_of_length
    rw [ShapeInfo.length, shape_shapeBuffer, prod_eq_zero_of_not_pos hpos]

theorem honestSlots_shapeBufferFortran (shape : List Nat) :
    (shapeBufferFortran shape).HonestSlots := by
  by_cases hpos : ∀ d ∈ shape, 0 < d
  · exact (honestEws_shapeBufferFortran hpos).honestSlots
  · apply honestSlots_of_length
    rw [ShapeInfo.length, shape_shapeBufferFortran, prod_eq_zero_of_not_pos hpos]

/-- Strides in F order are running strides. -/
theorem fStrides_eq (s : Int) (shape : List Nat) : fStrides s shape = runningStrides shape s := by
  induction shape generalizing s with
  | nil => rfl
  | cons d shape ih => rw [fStrides, runningStrides, ih]

theorem honestSlots_updateStrides (shape : List Nat) (order : Char) :
    (updateStrides shape order).HonestSlots := by
  intro horder _ k hk
  have hk' : k < shape.prod := hk
  show elementOffset (updateStrides shape order).isFOrder
    (shape.zip (if order = 'c' then cStrides shape else fStrides 1 shape)) k = k * 1
  rw [mul_one]
  have horder : order = 'c' ∨ order = 'f' := horder
  rcases horder with rfl | rfl
  · have hvolume : volume (shape.zip (cStrides shape)) = shape.prod :=
      (updateStrides shape 'c').volume_axes
    rw [if_pos rfl, elementOffset_eq_ite _ _ (hvolume.symm ▸ hk')]
    exact offsetAt_cStrides hk'
  · rw [if_neg (by decide), fStrides_eq]
    exact elementOffset_groupStrides true hk'

/-! ## Tensors along dimensions -/

/-- The element-wise stride is unknown, or that of a row: what the slices of a permuted array
leave, away from copies of rows. -/
def UnknownOrRow (info : ShapeInfo) : Prop :=
  info.elementWiseStride = -1 ∨ ∃ b, info.axes = [(1, 1), b] ∧ info.elementWiseStride = b.2

variable {info next : ShapeInfo}

theorem UnknownOrRow.honestSlots (h : UnknownOrRow info) : info.HonestSlots := by
  rcases h with hews | ⟨b, haxes, hews⟩
  · exact honestSlots_of_nonpositive (by omega)
  · exact honestSlots_of_row haxes hews

theorem unknownOrRow_reverseAxes (info : ShapeInfo) : UnknownOrRow (reverseAxes info) :=
  Or.inl rfl

theorem isRowVector_iff :
    isRowVector info = true ↔ isVector info = true ∧ info.shape.getD 0 0 = 1 := by
  rw [isRowVector, decide_eq_true_eq]

/-- A slice of a row, if there is one, is a vector like the row. -/
theorem isVector_of_slice (hrow : isRowVector info = true) {sliceIdx : Nat}
    (hslice : sliceOfShapeBuffer sliceIdx info = some next) : isVector next = true := by
  obtain ⟨hvector, hone⟩ := isRowVector_iff.mp hrow
  rw [sliceOfShapeBuffer, if_pos hvector, if_pos hone] at hslice
  split at hslice
  · have hshape : next.shape = info.shape := by
      cases hslice
      exact info.dims_axes
    simp only [isVector, ShapeInfo.rank, hshape] at hvector ⊢
    exact hvector
  · cases hslice

/-- A slice of a slice is one, unless a row is copied. -/
theorem UnknownOrRow.slice (h : UnknownOrRow info) (hrow : isRowVector info = false)
    {sliceIdx : Nat} (hslice : sliceOfShapeBuffer sliceIdx info = some next) :
    UnknownOrRow next := by
  unfold sliceOfShapeBuffer at hslice
  simp only at hslice
  split at hslice
  · rename_i hvector
    have hfirst : ¬ info.shape.getD 0 0 = 1 := by
      intro hone
      rw [isRowVector_iff.mpr ⟨hvector, hone⟩] at hrow
      cases hrow
    rw [if_neg hfirst] at hslice
    cases hslice
    exact Or.inr ⟨(1, 1), rfl, rfl⟩
  · split at hslice
    · cases hslice
      exact Or.inr ⟨_, ShapeInfo.axes_ofAxes _ _ _ _, rfl⟩
    · rename_i hvector hmatrix
      cases hslice
      rcases h with hews | ⟨b, haxes, -⟩
      · exact Or.inl hews
      · exfalso
        have hshape : info.shape = [1, b.1] := by
          rw [← info.dims_axes, haxes]
          rfl
        simp [isVector, ShapeInfo.rank, hshape] at hvector

theorem unknownOrRow_sliceLoop {length sliceIndex : Nat} {ret2 : ShapeInfo} (h : UnknownOrRow ret2)
    (hloop : TAD.sliceLoop length sliceIndex ret2 = some next) : UnknownOrRow next := by
  fun_induction TAD.sliceLoop length sliceIndex ret2 with
  | case1 => cases hloop
  | case2 => cases hloop
  | case3 sliceIndex ret2 hlong index index' hrow newRet2 hslice _ ih =>
      exact ih (h.slice (Bool.eq_false_iff.mpr hrow) hslice) hloop
  | case4 sliceIndex ret2 hshort =>
      cases hloop
      exact h

section Tensors

variable {tad : TAD}

/-- From the first slice on: a copied row is only met among several dimensions, and turned
around there. -/
theorem unknownOrRow_tensorShapeInfo {ret2 ret : ShapeInfo}
    (hnone : isVector ret2 = false → UnknownOrRow ret2)
    (hone : tad.dimension.toList.length ≤ 1 → UnknownOrRow ret2)
    (h : tad.tensorShapeInfo ret2 = some ret) : UnknownOrRow ret := by
  unfold TAD.tensorShapeInfo at h
  simp only at h
  by_cases hcomp : (if isVector ret2 then ret2.length else
      (keep tad.shapeInfo.shape tad.dimension.toList).prod) = ret2.length
  · rw [if_pos hcomp] at h
    split at h
    · rename_i hrow
      cases h
      exact hone hrow.1.le
    · split at h
      · cases h
        exact unknownOrRow_reverseAxes ret2
      · rename_i hfew
        cases h
        exact hone (Nat.le_of_not_lt hfew)
  · have hvector : isVector ret2 = false := by
      cases hv : isVector ret2 with
      | false => rfl
      | true => exact absurd (by rw [if_pos hv]) hcomp
    have hrow : isRowVector ret2 = false := by simp [isRowVector, hvector]
    have hret2 := hnone hvector
    rw [if_neg hcomp] at h
    split at h
    · obtain ⟨next, hslice, rfl⟩ := Option.map_eq_some_iff.mp h
      split
      · exact hret2.slice hrow hslice
      · exact unknownOrRow_reverseAxes next
    · split at h
      · obtain ⟨next, hslice, rfl⟩ := Option.map_eq_some_iff.mp h
        split
        · exact hret2.slice hrow hslice
        · exact unknownOrRow_reverseAxes next
      · obtain ⟨next, hloop, rfl⟩ := Option.map_eq_some_iff.mp h
        split
        · exact unknownOrRow_sliceLoop hret2 hloop
        · split
          · exact unknownOrRow_reverseAxes next
          · exact unknownOrRow_sliceLoop hret2 hloop

/-- With one dimension of a matrix, the other axis comes first. -/
theorem not_isRowVector_permuted {d : Nat} (hdim : tad.dimension.toList = [d])
    (hrank : 2 ≤ tad.shapeInfo.rank)
    (hcolumn : ¬ (d = 0 ∧ isVector tad.shapeInfo ∧ tad.shapeInfo.shape.getD 1 0 = 1))
    (hrow : ¬ (d = 1 ∧ isVector tad.shapeInfo ∧ tad.shapeInfo.shape.getD 0 0 = 1)) :
    isRowVector (permuteShapeBuffer tad.shapeInfo
      (removeIndex (List.range tad.shapeInfo.rank) tad.dimension.toList ++
        tad.dimension.toList.reverse)) = false := by
  have haxes := axes_permute_dimensions tad.shapeInfo tad.dimension
  generalize hpermuted : permuteShapeBuffer tad.shapeInfo
    (removeIndex (List.range tad.shapeInfo.rank) tad.dimension.toList ++
      tad.dimension.toList.reverse) = permuted at haxes ⊢
  by_contra htrue
  have htrue := Bool.eq_true_of_not_eq_false htrue
  simp only [isRowVector, isVector, Bool.decide_and, Bool.and_eq_true, decide_eq_true_eq] at htrue
  obtain ⟨⟨hle, -⟩, hfirst⟩ := htrue
  have hsum := tad.length_leftOver_add
  have hkept := tad.length_kept
  rw [← permuted.length_axes, haxes, List.length_append, List.length_reverse] at hle
  have hleft : (tad.dimension.leftOver tad.shapeInfo.axes).length = tad.leftOver.length := rfl
  have hkept' : (tad.dimension.kept tad.shapeInfo.axes).length = tad.kept.length := rfl
  have hlength : tad.shapeInfo.axes.length = 2 := by
    rw [tad.shapeInfo.length_axes]
    omega
  obtain ⟨a, b, hab⟩ := List.length_eq_two.mp hlength
  have hshape : tad.shapeInfo.shape = [a.1, b.1] := by
    rw [← tad.shapeInfo.dims_axes, hab]
    rfl
  have hd : d < 2 := by
    have hlt := tad.dimension.lt_rank d (by rw [hdim]; exact List.mem_singleton_self d)
    rwa [← tad.shapeInfo.length_axes, hlength] at hlt
  rw [← permuted.dims_axes, haxes, hab] at hfirst
  have hcases : d = 0 ∨ d = 1 := by omega
  rcases hcases with rfl | rfl
  · have hb : b.1 = 1 := by
      simpa [Dimensions.leftOver, Dimensions.kept, Dimensions.mem, pick, hdim, dims] using hfirst
    exact hcolumn ⟨rfl, by simp [isVector, ShapeInfo.rank, hshape, hb], by simp [hshape, hb]⟩
  · have ha : a.1 = 1 := by
      simpa [Dimensions.leftOver, Dimensions.kept, Dimensions.mem, pick, hdim, dims] using hfirst
    exact hrow ⟨rfl, by simp [isVector, ShapeInfo.rank, hshape, ha], by simp [hshape, ha]⟩

/-- Slots of the tensors along dimensions are honest if those of the array are. -/
theorem honestSlots_shapeInfoOnlyShapeAndStride (hinfo : tad.shapeInfo.HonestSlots)
    (hrank : 2 ≤ tad.shapeInfo.rank) {ret : ShapeInfo}
    (h : tad.shapeInfoOnlyShapeAndStride = some ret) : ret.HonestSlots := by
  unfold TAD.shapeInfoOnlyShapeAndStride at h
  simp only at h
  split at h
  · cases h
    decide
  split at h
  · cases h
    exact hinfo
  split at h
  · cases h
    exact honestSlots_of_nonpositive (by simp)
  rename_i hcolumn
  split at h
  · cases h
    exact hinfo
  rename_i hrow
  split at h
  · cases h
    exact honestSlots_of_row rfl rfl
  · obtain ⟨ret2, hslice, hret⟩ := Option.bind_eq_some_iff.mp h
    have hpermuted : UnknownOrRow (permuteShapeBuffer tad.shapeInfo
        (removeIndex (List.range tad.shapeInfo.rank) tad.dimension.toList ++
          tad.dimension.toList.reverse)) := Or.inl rfl
    refine (unknownOrRow_tensorShapeInfo (fun hvector => ?_) (fun hone => ?_) hret).honestSlots
    · -- the first slice of a row would be a vector
      refine hpermuted.slice (Bool.eq_false_iff.mpr fun hfirst => ?_) hslice
      rw [isVector_of_slice hfirst hslice] at hvector
      cases hvector
    · have hpos := List.length_pos_of_ne_nil tad.dimension.ne_nil
      obtain ⟨d, hdim⟩ := List.length_eq_one_iff.mp (show tad.dimension.toList.length = 1 by omega)
      rw [hdim] at hcolumn hrow
      refine hpermuted.slice (not_isRowVector_permuted hdim hrank (fun hd => hcolumn ?_)
        fun hd => hrow ?_) hslice
      · exact ⟨by rw [hd.1], hd.2⟩
      · exact ⟨by rw [hd.1], hd.2⟩

end Tensors

end Shape
end LibND4J
