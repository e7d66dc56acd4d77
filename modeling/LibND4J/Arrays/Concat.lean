import LibND4J.Arrays.Reshapei
import LibND4J.Library.Blocks
import LibND4J.Library.SingleAxis
import LibND4J.Loops.Reduce
import LibND4J.Shape.HonestSlots
import LibND4J.Shape.SingleTad

/-!
# Concatenating arrays

`concatCpuGeneric` copies arrays one behind the other along a dimension.  It copies
scalars, arrays in C order along their first axis, and vectors through linear indices, and
all other arrays tensor by tensor.

The model lists the copies in the order the code makes them; running them over a buffer
gives what the code leaves there.

Main results:

- Theorem `concatenates_iff_filledFrom`: the result is right exactly if every cell is
  filled from the right place.
- Theorem `concatenates_iff_of_linear`: the paths through linear indices are right
  exactly if they read the inputs in C order.
-/

namespace LibND4J
namespace Arrays

open Strided Shape Blocks

/-! ## The routine -/

/-- One assignment from a cell of an input to a cell of the result. -/
structure Copy where
  array : Nat
  source : Int
  target : Int

/-- What `isVector` reads as the second extent: behind the only extent of an array of rank one
stands its stride. -/
def secondExtent (info : ShapeInfo) : Int :=
  if info.rank = 1 then info.stride.getD 0 0 else (info.shape.getD 1 0 : Nat)

/-- `isVector` of a shape information buffer. -/
def isVectorBuffer (info : ShapeInfo) : Bool :=
  info.rank ≤ 2 ∧ (info.shape.getD 0 0 = 1 ∨ secondExtent info = 1)

/-- `isRowVector` of a shape information buffer. -/
def isRowVectorBuffer (info : ShapeInfo) : Bool :=
  isVectorBuffer info ∧ info.shape.getD 0 0 = 1

/-- All inputs are scalars. -/
def allScalar (inputs : List ShapeInfo) : Bool :=
  inputs.all isScalar

/-- All inputs are in C order. -/
def allC (inputs : List ShapeInfo) : Bool :=
  inputs.all fun info => info.order = 'c'

/-- All inputs are row vectors of the length of the first one. -/
def allVectors (inputs : List ShapeInfo) : Bool :=
  inputs.all fun info => isRowVectorBuffer info ∧ info.length = (inputs.map (·.length)).getD 0 0

/-- One element of each input. -/
def scalarCopies (numArrays : Nat) : List Copy :=
  (List.range numArrays).map fun i => ⟨i, 0, i⟩

/-- The rows of one length, one behind the other. -/
def rowCopies (numArrays zeroLen : Nat) : List Copy :=
  (List.range numArrays).flatMap fun r =>
    (List.range zeroLen).map fun (e : Nat) => ⟨r, e, (r * zeroLen : Nat) + e⟩

/-- The loop over the next `n` cells of the result, which runs through the inputs.  `none`
stands for an index past the inputs. -/
def linearLoop (lengths : List Nat) : Nat → Nat → Nat → Nat → Option (List Copy)
  | _, _, _, 0 => some []
  | currBuffer, currBufferOffset, i, n + 1 =>
      match lengths[currBuffer]? with
      | none => none
      | some length =>
          let rest :=
            if currBufferOffset + 1 ≥ length then linearLoop lengths (currBuffer + 1) 0 (i + 1) n
            else linearLoop lengths currBuffer (currBufferOffset + 1) (i + 1) n
          rest.map (⟨currBuffer, currBufferOffset, i⟩ :: ·)

/-- Where a loop over an input looks whether the result is full. -/
inductive Check
  | never
  | before
  | between
  | behind
deriving DecidableEq

/-- The loop over the next `n` elements of an input, with the number of elements of the result
that are filled when it ends. -/
def arrLoop (check : Check) (array length : Nat) (source target : Nat → Int) :
    Nat → Nat → Nat → List Copy × Nat
  | _, idx, 0 => ([], idx)
  | arrIdx, idx, n + 1 =>
      if check = .before ∧ idx ≥ length then
        ([], idx)
      else if check = .between ∧ idx ≥ length then
        ([⟨array, source arrIdx, target idx⟩], idx)
      else if check = .behind ∧ idx + 1 ≥ length then
        ([⟨array, source arrIdx, target idx⟩], idx + 1)
      else
        let (copies, idx') := arrLoop check array length source target (arrIdx + 1) (idx + 1) n
        (⟨array, source arrIdx, target idx⟩ :: copies, idx')

/-- The copies of one input into a vector. -/
def vectorCopies (result : ShapeInfo) (array : Nat) (info : ShapeInfo) (idx : Nat) :
    List Copy × Nat :=
  let length := result.length
  let resultStride := result.elementWiseStride
  let eleStride := info.elementWiseStride
  let offset := fun arrIdx => getOffset 0 info.shape info.stride (ind2subC info.shape arrIdx)
  let bySlot : Bool := isVectorBuffer info ∨ info.order = result.order
  if resultStride = 1 then
    if bySlot then
      let currArrLength :=
        if info.length + idx ≥ length then info.length - (info.length + idx - length)
        else info.length
      if eleStride = 1 then
        arrLoop .never array length (fun arrIdx => arrIdx) (fun idx => idx) 0 idx currArrLength
      else
        arrLoop .before array length (fun arrIdx => arrIdx * eleStride) (fun idx => idx) 0 idx
          currArrLength
    else
      arrLoop .behind array length offset (fun idx => idx) 0 idx info.length
  else if bySlot then
    if eleStride = 1 then
      arrLoop .before array length (fun arrIdx => arrIdx) (fun idx => idx * resultStride) 0 idx
        info.length
    else
      arrLoop .before array length (fun arrIdx => arrIdx * eleStride)
        (fun idx => idx * resultStride) 0 idx info.length
  else
    arrLoop .between array length offset (fun idx => idx) 0 idx info.length

/-- The loop over the inputs that fills a vector. -/
def vectorLoop (result : ShapeInfo) : List ShapeInfo → Nat → Nat → List Copy
  | [], _, _ => []
  | info :: inputs, i, idx =>
      let (copies, idx') := vectorCopies result i info idx
      copies ++ vectorLoop result inputs (i + 1) idx'

def singleDimension {rank : Nat} (d : Nat) (h : d < rank) : Dimensions rank where
  toList := [d]
  ne_nil := List.cons_ne_nil d []
  sorted := List.pairwise_singleton _ d
  lt_rank := fun _ hi => List.mem_singleton.mp hi ▸ h

/-- `PrepareTwoRawArrayIter`. -/
def prepareTwoRawArrayIter (axes : List (Nat × Int × Int)) (data : Int × Int) :
    List (Nat × Int × Int) × (Int × Int) :=
  match turnAxes (fun s => s.1 < 0) axes data with
  | (some axes', data') => (axes', data')
  | (none, data') => ([(0, 0)], data')

/-- The extents of the first operand, with the strides of both. -/
def operandAxes (x z : ShapeInfo) : List (Nat × Int × Int) :=
  List.zipWith (fun a b => (a.1, a.2, b.2)) x.axes z.axes

section Operands

variable {as bs : List (Nat × Int)}

theorem dims_zipWith (h : bs.length = as.length) :
    dims (List.zipWith (fun a b => (a.1, a.2, b.2)) as bs) = dims as := by
  induction as generalizing bs with
  | nil => rfl
  | cons a as ih =>
      cases bs with
      | nil => cases h
      | cons b bs =>
          rw [List.zipWith_cons_cons, dims_cons, dims_cons, ih (Nat.succ.inj h)]

/-- Both pointers move along the strides of their own array. -/
theorem dot_zipWith (h : bs.length = as.length) (c : List Nat) :
    Strided.dot c ((List.zipWith (fun a b => (a.1, a.2, b.2)) as bs).map Prod.snd) =
      (Strided.dot c (as.map Prod.snd), Strided.dot c (bs.map Prod.snd)) := by
  induction as generalizing bs c with
  | nil =>
      rw [List.eq_nil_of_length_eq_zero h]
      simp only [List.zipWith_nil_left, List.map_nil, dot_nil_right]
      rfl
  | cons a as ih =>
      cases bs with
      | nil => cases h
      | cons b bs =>
          cases c with
          | nil =>
              simp only [dot_nil_left]
              rfl
          | cons i c =>
              rw [List.zipWith_cons_cons, List.map_cons, List.map_cons, List.map_cons, dot_cons,
                dot_cons, dot_cons, ih (Nat.succ.inj h)]
              rfl

end Operands

/-- The copies from the tensor `x` of an input at `arrTadData` to the tensor `z` of the result at
`target`, as cells of the two buffers. -/
def tadCopies (order : Char) (x z : ShapeInfo) (wholeThing : Bool) (arrTadData target : Int) :
    Option (List (Int × Int)) :=
  let arrTadEleStride := x.elementWiseStride
  let tadEleStride := z.elementWiseStride
  if arrTadEleStride > 0 ∧ order = x.order then
    if arrTadEleStride = 1 ∧ tadEleStride = 1 then
      some ((List.range x.length).map fun (k : Nat) => (arrTadData + k, target + k))
    else if tadEleStride > 0 ∧ order = x.order then
      some ((List.range x.length).map fun (k : Nat) =>
        (arrTadData + k * arrTadEleStride, target + k * tadEleStride))
    else
      some []
  else if tadEleStride > 0 ∧ order = x.order then
    -- the index into the result is never incremented here
    if wholeThing then
      some ((List.range x.length).map fun (k : Nat) => (arrTadData + k, target))
    else
      let (axes, data) := Loops.prepareOneRawArrayIter x.axes arrTadData
      (odometer x.length axes data).map fun visits => visits.map fun visit => (visit.2, target)
  else
    let (axes, data) := prepareTwoRawArrayIter (operandAxes x z) (arrTadData, target)
    (odometer x.length axes data).map fun visits => visits.map Prod.snd

/-- The copies of the tensors of one input; `z` is the shape information of those of the
result, and `resultOffsets` are their offsets. -/
def tadInput (order : Char) (arrTad : TAD) (x z : ShapeInfo) (resultOffsets : List Int)
    (array arrOffset : Nat) : Option (List Copy) :=
  ((List.range arrTad.numTads).mapM fun j =>
    let sub := ind2subC z.shape arrOffset
    let baseOffset := getOffset 0 z.shape z.stride sub
    tadCopies order x z arrTad.wholeThing (arrTad.createOffsets.getD j 0)
      (resultOffsets.getD j 0 + baseOffset)).map fun moves =>
    moves.flatten.map fun (source, target) => ⟨array, source, target⟩

/-- The loop over the inputs that copies tensor by tensor. -/
def tadLoop (dimension : Nat) (order : Char) (z : ShapeInfo) (resultOffsets : List Int) :
    List ShapeInfo → Nat → Nat → Option (List Copy)
  | [], _, _ => some []
  | info :: inputs, i, arrOffset =>
      if h : dimension < info.rank then
        let arrTad := TAD.init info (singleDimension dimension h)
        arrTad.shapeInfoOnlyShapeAndStride.bind fun x =>
          (tadInput order arrTad x z resultOffsets i arrOffset).bind fun copies =>
            (tadLoop dimension order z resultOffsets inputs (i + 1) (arrOffset + x.length)).map
              (copies ++ ·)
      else
        none

/-- `concatCpuGeneric`: the copies it makes.  `none` stands for a dimension the arrays do not
have and for shape information that is read past its end. -/
def concatCpuGeneric (dimension : Nat) (inputs : List ShapeInfo) (result : ShapeInfo) :
    Option (List Copy) :=
  let numArrays := inputs.length
  let lengths := inputs.map (·.length)
  if numArrays = 1 then
    some []
  else if allScalar inputs then
    some (scalarCopies numArrays)
  else if allC inputs ∧ dimension = 0 ∧ result.order = 'c' then
    if numArrays ≥ 8 ∧ allVectors inputs then
      some (rowCopies numArrays (lengths.getD 0 0))
    else
      linearLoop lengths 0 0 0 result.length
  else if isVectorBuffer result then
    some (vectorLoop result inputs 0 0)
  else if h : dimension < result.rank then
    let resultTad := TAD.init result (singleDimension dimension h)
    resultTad.shapeInfoOnlyShapeAndStride.bind fun z =>
      tadLoop dimension result.order z resultTad.createOffsets inputs 0 0
  else
    none

/-- Run the copies over the buffer of the result; `data` are the buffers of the inputs. -/
def runConcat {T : Type} (data : Nat → Int → T) (copies : List Copy) (memory : Int → T) : Int → T :=
  Stores.storeAll (·.target) (fun v _ => data v.array v.source) copies memory

/-- The shape function of `concat`. -/
def concatShape (dimension : Nat) (inputs : List ShapeInfo) : Option ShapeInfo :=
  match inputs with
  | [] => none
  | inp :: rest =>
      let newShape := inp.shape.set dimension
        (inp.shape.getD dimension 0 + (rest.map (·.shape.getD dimension 0)).sum)
      some (updateStrides newShape inp.order)

/-! ## The law -/

/-- The extents of the inputs along the dimension. -/
def extents (dimension : Nat) (inputs : List ShapeInfo) : List Nat :=
  inputs.map fun info => info.shape.getD dimension 0

/-- The sum of the extents of the inputs in front of one. -/
def axisStart (dimension : Nat) (inputs : List ShapeInfo) (i : Nat) : Nat :=
  blockStart (extents dimension inputs) i

/-- An index along the dimension is in the range of an input. -/
def InRange (dimension : Nat) (inputs : List ShapeInfo) (i index : Nat) : Prop :=
  axisStart dimension inputs i ≤ index ∧ index < axisStart dimension inputs (i + 1)

/-- The result at a coordinate is the input whose range contains the index along the dimension,
at the coordinate with that index counted from the start of the range. -/
def Concatenates (dimension : Nat) (inputs : List ShapeInfo) (result : ShapeInfo) : Prop :=
  ∃ copies, concatCpuGeneric dimension inputs result = some copies ∧
    ∀ (T : Type) (data : Nat → Int → T) (memory : Int → T) (c : List Nat), InBox result.shape c →
      (∃! i : Fin inputs.length, InRange dimension inputs i (c.getD dimension 0)) ∧
        ∀ i : Fin inputs.length, InRange dimension inputs i (c.getD dimension 0) →
          (NDArray.mk result (runConcat data copies memory)).element c =
            (NDArray.mk inputs[i] (data i)).element
              (c.set dimension (c.getD dimension 0 - axisStart dimension inputs i))

/-- Several arrays that agree away from the dimension, with honest slots, and a result of the
concatenated shape. -/
structure Concatenable (dimension : Nat) (inputs : List ShapeInfo) (result : ShapeInfo) : Prop where
  several : 2 ≤ inputs.length
  dimension_lt : dimension < result.rank
  rank_le : result.rank ≤ maxDimension
  positive : ∀ info ∈ inputs, info.Positive
  honest : ∀ info ∈ inputs, info.HonestEws
  shape_eq : ∀ info ∈ inputs,
    result.shape = info.shape.set dimension (extents dimension inputs).sum

/-- A result without gaps, in C or F order. -/
structure DenseResult (result : ShapeInfo) : Prop where
  order : result.order = 'c' ∨ result.order = 'f'
  ews_eq : result.elementWiseStride = 1
  dense : ∀ k < result.length, elementOffset result.isFOrder result.axes k = k

/-- The cell of the result for a coordinate of an input. -/
def cellOf (dimension : Nat) (inputs : List ShapeInfo) (result : ShapeInfo) (i : Nat)
    (c : List Nat) : Int :=
  dot (c.set dimension (axisStart dimension inputs i + c.getD dimension 0)) result.stride

/-- Which cell of which input a cell of the result is filled from. -/
def filledFrom (copies : List Copy) : Int → Option (Nat × Int) :=
  runConcat (fun i source => some (i, source)) copies fun _ => none

section Filling

/-- Where a cell is filled from decides what it holds. -/
theorem runConcat_eq {T : Type} (data : Nat → Int → T) (copies : List Copy) (memory : Int → T)
    (t : Int) :
    runConcat data copies memory t =
      (filledFrom copies t).elim (memory t) fun place => data place.1 place.2 := by
  induction copies using List.reverseRecOn generalizing t with
  | nil => rfl
  | append_singleton copies v ih =>
      rw [filledFrom, runConcat, runConcat, Stores.storeAll_append, Stores.storeAll_append,
        Stores.storeAll_cons, Stores.storeAll_cons, Stores.storeAll_nil, Stores.storeAll_nil]
      by_cases ht : t = v.target
      · rw [ht, Function.update_self, Function.update_self]
        rfl
      · rw [Function.update_of_ne ht, Function.update_of_ne ht]
        exact ih t

/-- A cell is filled by its writers, when they agree. -/
theorem filledFrom_of_writers {copies : List Copy} {t : Int} {i : Nat} {source : Int}
    (hwritten : ∃ v ∈ copies, v.target = t)
    (hagree : ∀ v ∈ copies, v.target = t → v.array = i ∧ v.source = source) :
    filledFrom copies t = some (i, source) := by
  refine Stores.storeAll_of_agree hwritten (fun v hv ht _ => ?_) _
  obtain ⟨harray, hsource⟩ := hagree v hv ht
  rw [harray, hsource]

theorem filledFrom_of_not_written {copies : List Copy} {t : Int}
    (hnone : ∀ v ∈ copies, v.target ≠ t) : filledFrom copies t = none :=
  Stores.storeAll_of_not_written hnone _

end Filling

section Law

variable {dimension : Nat} {inputs : List ShapeInfo} {result : ShapeInfo}
    {i : Nat} {info : ShapeInfo} {c : List Nat}

theorem extents_getD (hi : i < inputs.length) :
    (extents dimension inputs).getD i 0 = inputs[i].shape.getD dimension 0 := by
  rw [extents, List.getD_eq_getElem?_getD, List.getElem?_map, List.getElem?_eq_getElem hi]
  rfl

/-- The range of an input has its extent along the dimension. -/
theorem axisStart_succ (hi : i < inputs.length) :
    axisStart dimension inputs (i + 1) =
      axisStart dimension inputs i + inputs[i].shape.getD dimension 0 := by
  rw [axisStart, blockStart_succ, extents_getD hi, axisStart]

variable (h : Concatenable dimension inputs result)

include h

theorem Concatenable.rank_eq (hinfo : info ∈ inputs) : info.rank = result.rank := by
  rw [ShapeInfo.rank, ShapeInfo.rank, h.shape_eq info hinfo, List.length_set]

theorem Concatenable.dimension_lt_rank (hinfo : info ∈ inputs) : dimension < info.shape.length := by
  have hrank : info.shape.length = result.rank := h.rank_eq hinfo
  rw [hrank]
  exact h.dimension_lt

/-- The shape of an input is that of the result, with its own extent. -/
theorem Concatenable.shape_eq_set (hinfo : info ∈ inputs) :
    info.shape = result.shape.set dimension (info.shape.getD dimension 0) := by
  rw [h.shape_eq info hinfo, List.set_set, set_getD_self]

theorem Concatenable.head_mem : inputs.get ⟨0, Nat.zero_lt_of_lt h.several⟩ ∈ inputs :=
  List.get_mem _ _

theorem Concatenable.getD_shape :
    result.shape.getD dimension 0 = (extents dimension inputs).sum := by
  rw [h.shape_eq _ h.head_mem, getD_set_self (h.dimension_lt_rank h.head_mem)]

theorem Concatenable.extent_pos (hinfo : info ∈ inputs) : 0 < info.shape.getD dimension 0 := by
  have hlt := h.dimension_lt_rank hinfo
  rw [List.getD_eq_getElem?_getD, List.getElem?_eq_getElem hlt]
  exact h.positive info hinfo _ (List.getElem_mem hlt)

/-- At least two indices along the dimension. -/
theorem Concatenable.two_le_sum : 2 ≤ (extents dimension inputs).sum := by
  have hone : ∀ n ∈ extents dimension inputs, 1 ≤ n := by
    intro n hn
    obtain ⟨info, hinfo, rfl⟩ := List.mem_map.mp hn
    exact h.extent_pos hinfo
  have hsum := List.length_le_sum_of_one_le _ hone
  rw [extents, List.length_map] at hsum
  exact h.several.trans hsum

theorem Concatenable.result_positive : result.Positive := by
  intro n hn
  rw [h.shape_eq _ h.head_mem] at hn
  rcases List.mem_or_eq_of_mem_set hn with hmem | rfl
  · exact h.positive _ h.head_mem n hmem
  · exact Nat.lt_of_lt_of_le (by decide) h.two_le_sum

/-- A coordinate of an input is moved to one of the result. -/
theorem Concatenable.inBox_shift (hi : i < inputs.length) (hc : InBox inputs[i].shape c) :
    InBox result.shape (c.set dimension (axisStart dimension inputs i + c.getD dimension 0)) := by
  have hinfo : inputs[i] ∈ inputs := List.getElem_mem hi
  have hindex : c.getD dimension 0 < (extents dimension inputs).getD i 0 := by
    rw [extents_getD hi]
    exact getD_lt_of_inBox hc (h.dimension_lt_rank hinfo)
  rw [h.shape_eq _ hinfo]
  exact inBox_set hc dimension (block_lt_sum hindex)

/-- Every index along the dimension is in the range of exactly one input. -/
theorem Concatenable.existsUnique_inRange (hc : InBox result.shape c) :
    ∃! i : Fin inputs.length, InRange dimension inputs i (c.getD dimension 0) := by
  have hindex : c.getD dimension 0 < (extents dimension inputs).sum := by
    rw [← h.getD_shape]
    exact getD_lt_of_inBox hc h.dimension_lt
  obtain ⟨i, hi, k, hk, heq⟩ := exists_block hindex
  have hi' : i < inputs.length := by simpa [extents] using hi
  refine ⟨⟨i, hi'⟩, ⟨?_, ?_⟩, ?_⟩
  · show axisStart dimension inputs i ≤ c.getD dimension 0
    rw [axisStart]
    omega
  · show c.getD dimension 0 < axisStart dimension inputs (i + 1)
    rw [axisStart, blockStart_succ]
    omega
  · intro j hj
    have hfirst : blockStart (extents dimension inputs) j ≤ c.getD dimension 0 := hj.1
    have hlast : c.getD dimension 0 < blockStart (extents dimension inputs) (j + 1) := hj.2
    rw [blockStart_succ] at hlast
    have hsame : blockStart (extents dimension inputs) j +
        (c.getD dimension 0 - blockStart (extents dimension inputs) j) =
        blockStart (extents dimension inputs) i + k := by omega
    exact Fin.ext (block_unique (by omega) hk hsame).1

/-- The result is right exactly if each of its cells is filled from the right place. -/
theorem concatenates_iff_filledFrom {copies : List Copy}
    (hcopies : concatCpuGeneric dimension inputs result = some copies) :
    Concatenates dimension inputs result ↔
      ∀ i, ∀ hi : i < inputs.length, ∀ c, InBox inputs[i].shape c →
        filledFrom copies (cellOf dimension inputs result i c) =
          some (i, dot c inputs[i].stride) := by
  constructor
  · rintro ⟨copies', hcopies', hlaw⟩ i hi c hc
    cases hcopies.symm.trans hcopies'
    have hinfo : inputs[i] ∈ inputs := List.getElem_mem _
    have hlt : dimension < c.length := hc.length_eq ▸ h.dimension_lt_rank hinfo
    have hbox := h.inBox_shift hi hc
    obtain ⟨-, helement⟩ := hlaw (Option (Nat × Int)) (fun i source => some (i, source))
      (fun _ => none) _ hbox
    have hrange : InRange dimension inputs i
        (axisStart dimension inputs i + c.getD dimension 0) := by
      constructor
      · exact Nat.le_add_right _ _
      · rw [axisStart_succ hi]
        exact Nat.add_lt_add_left (getD_lt_of_inBox hc (h.dimension_lt_rank hinfo)) _
    have hindex := getD_set_self hlt (axisStart dimension inputs i + c.getD dimension 0)
    have hvalue := helement ⟨i, hi⟩ (hindex.symm ▸ hrange)
    simp only [Fin.getElem_fin] at hvalue
    rw [hindex, Nat.add_sub_cancel_left, List.set_set, set_getD_self, NDArray.element,
      NDArray.element, getOffset_eq hbox result.stride_length,
      getOffset_eq hc inputs[i].stride_length, zero_add, zero_add] at hvalue
    exact hvalue
  · intro hfilled
    refine ⟨copies, hcopies, fun T data memory c hc => ⟨h.existsUnique_inRange hc, fun i hi => ?_⟩⟩
    have hinfo : inputs[i] ∈ inputs := List.getElem_mem _
    have hlt : dimension < c.length := hc.length_eq ▸ h.dimension_lt
    obtain ⟨hfirst, hlast⟩ := hi
    rw [axisStart_succ i.isLt] at hlast
    have hbox : InBox inputs[i].shape
        (c.set dimension (c.getD dimension 0 - axisStart dimension inputs i)) := by
      rw [h.shape_eq_set hinfo]
      exact inBox_set hc dimension (Nat.sub_lt_left_of_lt_add hfirst hlast)
    have hcell := hfilled i i.isLt _ hbox
    rw [cellOf, getD_set_self hlt, List.set_set, Nat.add_sub_cancel' hfirst,
      set_getD_self] at hcell
    rw [NDArray.element, NDArray.element, getOffset_eq hc result.stride_length,
      getOffset_eq hbox inputs[i].stride_length, zero_add, zero_add]
    show runConcat data copies memory _ = _
    rw [runConcat_eq, hcell]
    rfl

/-- Two coordinates of inputs have one cell of the result only if they are one. -/
theorem Concatenable.cellOf_inj (hdense : DenseResult result) {j : Nat} (hi : i < inputs.length)
    (hj : j < inputs.length) {c' : List Nat} (hc : InBox inputs[i].shape c)
    (hc' : InBox inputs[j].shape c')
    (heq : cellOf dimension inputs result i c = cellOf dimension inputs result j c') :
    i = j ∧ c = c' := by
  have hsame := injOn_dense h.result_positive hdense.dense (h.inBox_shift hi hc)
    (h.inBox_shift hj hc') heq
  have hlt := h.dimension_lt_rank (List.getElem_mem hi)
  have hlt' := h.dimension_lt_rank (List.getElem_mem hj)
  have hindex := congrArg (·.getD dimension 0) hsame
  simp only [getD_set_self (hc.length_eq ▸ hlt), getD_set_self (hc'.length_eq ▸ hlt')] at hindex
  have hbelow := getD_lt_of_inBox hc hlt
  have hbelow' := getD_lt_of_inBox hc' hlt'
  rw [← extents_getD hi] at hbelow
  rw [← extents_getD hj] at hbelow'
  obtain ⟨hij, hk⟩ := block_unique hbelow hbelow' hindex
  refine ⟨hij, ?_⟩
  have hrest := congrArg (·.set dimension (c.getD dimension 0)) hsame
  simp only [List.set_set] at hrest
  rw [set_getD_self, hk, set_getD_self] at hrest
  exact hrest

end Law

/-! ## Linear indices -/

/-- The lengths of the inputs. -/
def lengthsOf (inputs : List ShapeInfo) : List Nat :=
  inputs.map (·.length)

/-- Each input fills its block of the result with its elements in the order of the given
cells. -/
def FillsBlocks (inputs : List ShapeInfo) (source : ShapeInfo → Nat → Int)
    (copies : List Copy) : Prop :=
  ∀ v : Copy, v ∈ copies ↔ ∃ i, ∃ hi : i < inputs.length, ∃ k < inputs[i].length,
    v = ⟨i, source inputs[i] k, (blockStart (lengthsOf inputs) i + k : Nat)⟩

/-- The coordinates of each input lie in its block of the result in C order. -/
def RowMajorBlocks (dimension : Nat) (inputs : List ShapeInfo) (result : ShapeInfo) : Prop :=
  ∀ i, ∀ hi : i < inputs.length, ∀ c, InBox inputs[i].shape c →
    cellOf dimension inputs result i c =
      (blockStart (lengthsOf inputs) i + encode inputs[i].shape c : Nat)

/-- The cell that a path into a vector reads for an element of an input. -/
def vectorSource (result info : ShapeInfo) (k : Nat) : Int :=
  if isVectorBuffer info ∨ info.order = result.order then
    k * info.elementWiseStride
  else
    offsetAt info.axes k

section Linear

variable {dimension : Nat} {inputs : List ShapeInfo} {result : ShapeInfo}

theorem lengthsOf_getD {i : Nat} (hi : i < inputs.length) :
    (lengthsOf inputs).getD i 0 = inputs[i].length := by
  rw [lengthsOf, List.getD_eq_getElem?_getD, List.getElem?_map, List.getElem?_eq_getElem hi]
  rfl

/-- The paths through linear indices are right exactly if they read the inputs in C order. -/
theorem concatenates_iff_of_linear (h : Concatenable dimension inputs result)
    {copies : List Copy} (hcopies : concatCpuGeneric dimension inputs result = some copies)
    {source : ShapeInfo → Nat → Int} (hfills : FillsBlocks inputs source copies)
    (hcells : RowMajorBlocks dimension inputs result) :
    Concatenates dimension inputs result ↔
      ∀ info ∈ inputs, ∀ k < info.length, source info k = elementOffset false info.axes k := by
  have hfilled : ∀ i, ∀ hi : i < inputs.length, ∀ c, InBox inputs[i].shape c →
      filledFrom copies (cellOf dimension inputs result i c) =
        some (i, source inputs[i] (encode inputs[i].shape c)) := by
    intro i hi c hc
    have hk := encode_lt hc
    rw [hcells i hi c hc]
    apply filledFrom_of_writers
    · exact ⟨_, (hfills _).mpr ⟨i, hi, _, hk, rfl⟩, rfl⟩
    · intro v hv htarget
      obtain ⟨j, hj, l, hl, rfl⟩ := (hfills v).mp hv
      have hsame : blockStart (lengthsOf inputs) j + l =
          blockStart (lengthsOf inputs) i + encode inputs[i].shape c := Int.ofNat.inj htarget
      obtain ⟨hij, hlk⟩ := block_unique (by rwa [lengthsOf_getD hj])
        (by rwa [lengthsOf_getD hi]) hsame
      subst hij
      exact ⟨rfl, by rw [hlk]⟩
  rw [concatenates_iff_filledFrom h hcopies]
  constructor
  · intro hall info hinfo k hk
    obtain ⟨i, hi, rfl⟩ := List.mem_iff_getElem.mp hinfo
    have hbox := inBox_decode (h.positive _ hinfo) hk
    have hvalue := hall i hi _ hbox
    rw [hfilled i hi _ hbox, encode_decode (h.positive _ hinfo) hk, Option.some.injEq,
      Prod.mk.injEq] at hvalue
    rw [hvalue.2, elementOffset, if_neg Bool.false_ne_true, ShapeInfo.dims_axes,
      ShapeInfo.map_snd_axes]
  · intro hall i hi c hc
    have hsource := hall inputs[i] (List.getElem_mem _) _ (encode_lt hc)
    rw [elementOffset, if_neg Bool.false_ne_true, ShapeInfo.dims_axes, ShapeInfo.map_snd_axes,
      decode_encode hc] at hsource
    rw [hfilled i hi c hc, hsource]

/-! ### What the loops copy -/

theorem fillsBlocks_scalarCopies (hscalars : ∀ info ∈ inputs, info.length = 1) :
    FillsBlocks inputs (fun _ _ => 0) (scalarCopies inputs.length) := by
  have hstart : ∀ i < inputs.length, blockStart (lengthsOf inputs) i = i := by
    intro i hi
    have hconst : ∀ n ∈ lengthsOf inputs, n = 1 := by
      intro n hn
      obtain ⟨info, hinfo, rfl⟩ := List.mem_map.mp hn
      exact hscalars info hinfo
    rw [blockStart_of_const hconst (by rw [lengthsOf, List.length_map]; omega), Nat.mul_one]
  intro v
  rw [scalarCopies, List.mem_map]
  constructor
  · rintro ⟨i, hi, rfl⟩
    have hi := List.mem_range.mp hi
    refine ⟨i, hi, 0, ?_, ?_⟩
    · rw [hscalars _ (List.getElem_mem hi)]
      exact Nat.one_pos
    · rw [hstart i hi, Nat.add_zero]
  · rintro ⟨i, hi, k, hk, rfl⟩
    rw [hscalars _ (List.getElem_mem hi)] at hk
    have hzero : k = 0 := by omega
    refine ⟨i, List.mem_range.mpr hi, ?_⟩
    rw [hstart i hi, hzero, Nat.add_zero]

theorem fillsBlocks_rowCopies {zeroLen : Nat} (hlength : ∀ info ∈ inputs, info.length = zeroLen) :
    FillsBlocks inputs (fun _ k => k) (rowCopies inputs.length zeroLen) := by
  have hstart : ∀ i < inputs.length, blockStart (lengthsOf inputs) i = i * zeroLen := by
    intro i hi
    apply blockStart_of_const
    · intro n hn
      obtain ⟨info, hinfo, rfl⟩ := List.mem_map.mp hn
      exact hlength info hinfo
    · rw [lengthsOf, List.length_map]
      exact Nat.le_of_lt hi
  intro v
  rw [rowCopies, List.mem_flatMap]
  constructor
  · rintro ⟨i, hi, hv⟩
    obtain ⟨k, hk, rfl⟩ := List.mem_map.mp hv
    have hi := List.mem_range.mp hi
    refine ⟨i, hi, k, ?_, ?_⟩
    · rw [hlength _ (List.getElem_mem hi)]
      exact List.mem_range.mp hk
    · rw [hstart i hi, Nat.cast_add]
  · rintro ⟨i, hi, k, hk, rfl⟩
    rw [hlength _ (List.getElem_mem hi)] at hk
    refine ⟨i, List.mem_range.mpr hi, List.mem_map.mpr ⟨k, List.mem_range.mpr hk, ?_⟩⟩
    rw [hstart i hi, Nat.cast_add]

/-- The loop over the result reads the inputs from their first cells on. -/
theorem linearLoop_spec {lengths : List Nat} (hpos : ∀ n ∈ lengths, 0 < n)
    {n currBuffer currBufferOffset i : Nat}
    (hi : i = blockStart lengths currBuffer + currBufferOffset)
    (hoffset : n ≠ 0 → currBufferOffset < lengths.getD currBuffer 0)
    (hn : i + n ≤ lengths.sum) :
    ∃ copies, linearLoop lengths currBuffer currBufferOffset i n = some copies ∧
      ∀ v : Copy, v ∈ copies ↔ ∃ b k, k < lengths.getD b 0 ∧ i ≤ blockStart lengths b + k ∧
        blockStart lengths b + k < i + n ∧ v = ⟨b, k, (blockStart lengths b + k : Nat)⟩ := by
  induction n generalizing currBuffer currBufferOffset i with
  | zero =>
      refine ⟨[], rfl, fun v => ?_⟩
      constructor
      · intro hv
        cases hv
      · rintro ⟨b, k, -, hfirst, hlast, -⟩
        omega
  | succ n ih =>
      have hcurr := hoffset (Nat.succ_ne_zero n)
      have hbuffer : currBuffer < lengths.length := by
        by_contra hle
        simp [List.getElem?_eq_none (Nat.le_of_not_lt hle)] at hcurr
      have hget : lengths[currBuffer]? = some (lengths.getD currBuffer 0) := by
        rw [List.getD_eq_getElem?_getD, List.getElem?_eq_getElem hbuffer, Option.getD_some]
      have hsucc := blockStart_succ lengths currBuffer
      -- the loop goes on at the next cell of the input, or at the first of the next one
      obtain ⟨copies, hloop, hmem⟩ : ∃ copies,
          (if currBufferOffset + 1 ≥ lengths.getD currBuffer 0 then
            linearLoop lengths (currBuffer + 1) 0 (i + 1) n
          else linearLoop lengths currBuffer (currBufferOffset + 1) (i + 1) n) = some copies ∧
          ∀ v : Copy, v ∈ copies ↔ ∃ b k, k < lengths.getD b 0 ∧
            i + 1 ≤ blockStart lengths b + k ∧ blockStart lengths b + k < i + 1 + n ∧
            v = ⟨b, k, (blockStart lengths b + k : Nat)⟩ := by
        split
        · apply ih
          · omega
          · intro hne
            have hnext : currBuffer + 1 < lengths.length := by
              by_contra hle
              have hmono := blockStart_mono lengths (Nat.le_of_not_lt hle)
              rw [blockStart_length] at hmono
              omega
            rw [List.getD_eq_getElem?_getD, List.getElem?_eq_getElem hnext, Option.getD_some]
            exact hpos _ (List.getElem_mem hnext)
          · omega
        · apply ih
          · omega
          · intro _
            omega
          · omega
      refine ⟨⟨currBuffer, currBufferOffset, i⟩ :: copies, ?_, fun v => ?_⟩
      · rw [linearLoop, hget]
        simp only
        rw [hloop, Option.map_some]
      · rw [List.mem_cons, hmem v]
        constructor
        · rintro (rfl | ⟨b, k, hk, hfirst, hlast, rfl⟩)
          · exact ⟨currBuffer, currBufferOffset, hcurr, by omega, by omega, by rw [hi]⟩
          · exact ⟨b, k, hk, by omega, by omega, rfl⟩
        · rintro ⟨b, k, hk, hfirst, hlast, rfl⟩
          by_cases hhere : blockStart lengths b + k = i
          · obtain ⟨rfl, rfl⟩ := block_unique hk hcurr (hhere.trans hi)
            left
            rw [hi]
          · exact Or.inr ⟨b, k, hk, by omega, by omega, rfl⟩

theorem fillsBlocks_linearLoop (hpos : ∀ info ∈ inputs, 0 < info.length) (hne : inputs ≠ [])
    {n : Nat} (hn : n = (lengthsOf inputs).sum) :
    ∃ copies, linearLoop (lengthsOf inputs) 0 0 0 n = some copies ∧
      FillsBlocks inputs (fun _ k => k) copies := by
  have hlengths : ∀ m ∈ lengthsOf inputs, 0 < m := by
    intro m hm
    obtain ⟨info, hinfo, rfl⟩ := List.mem_map.mp hm
    exact hpos info hinfo
  have hfirst : 0 < (lengthsOf inputs).getD 0 0 := by
    have hlt := List.length_pos_of_ne_nil hne
    rw [lengthsOf_getD hlt]
    exact hpos _ (List.getElem_mem hlt)
  obtain ⟨copies, hloop, hmem⟩ := @linearLoop_spec _ hlengths n 0 0 0 (by simp) (fun _ => hfirst)
    (by omega)
  refine ⟨copies, hloop, fun v => ?_⟩
  rw [hmem v]
  constructor
  · rintro ⟨i, k, hk, -, -, rfl⟩
    have hi : i < inputs.length := by
      by_contra hle
      rw [lengthsOf, List.getD_eq_getElem?_getD, List.getElem?_map,
        List.getElem?_eq_none (Nat.le_of_not_lt hle)] at hk
      cases hk
    exact ⟨i, hi, k, by rwa [lengthsOf_getD hi] at hk, rfl⟩
  · rintro ⟨i, hi, k, hk, rfl⟩
    have hk : k < (lengthsOf inputs).getD i 0 := by rwa [lengthsOf_getD hi]
    have hlt := block_lt_sum hk
    exact ⟨i, k, hk, Nat.zero_le _, by omega, rfl⟩

variable {idx : Nat}

/-- While there is room, the loop over an input copies each element. -/
theorem arrLoop_eq (check : Check) (array : Nat) (source target : Nat → Int) {length n : Nat}
    (hroom : idx + n ≤ length) (arrIdx : Nat) :
    arrLoop check array length source target arrIdx idx n =
      ((List.range n).map fun k => ⟨array, source (arrIdx + k), target (idx + k)⟩, idx + n) := by
  induction n generalizing arrIdx idx with
  | zero => rfl
  | succ n ih =>
      have hmore : ¬ idx ≥ length := by omega
      rw [arrLoop, if_neg fun hbefore => hmore hbefore.2, if_neg fun hbetween => hmore hbetween.2,
        List.range_succ_eq_map, List.map_cons, List.map_map]
      split
      · rename_i hbehind
        have hzero : n = 0 := by omega
        rw [hzero]
        rfl
      · rw [ih (by omega)]
        simp only [Nat.add_zero]
        refine Prod.ext (congrArg (_ :: ·) (List.map_congr_left fun k _ => ?_)) (by simp; omega)
        simp only [Function.comp_apply, Nat.succ_eq_add_one]
        rw [Nat.add_right_comm arrIdx, Nat.add_right_comm idx, Nat.add_assoc arrIdx,
          Nat.add_assoc idx]

variable (hews : result.elementWiseStride = 1)

include hews

/-- Into a dense vector every input copies its elements to the next cells. -/
theorem vectorCopies_eq (array : Nat) {info : ShapeInfo} (hpos : info.Positive)
    (hroom : idx + info.length ≤ result.length) :
    vectorCopies result array info idx =
      ((List.range info.length).map fun k => ⟨array, vectorSource result info k, (idx + k : Nat)⟩,
        idx + info.length) := by
  have hcount : (if info.length + idx ≥ result.length then
      info.length - (info.length + idx - result.length) else info.length) = info.length := by
    split
    · omega
    · rfl
  unfold vectorCopies
  simp only [hcount]
  rw [if_pos hews]
  split
  · rename_i hslot
    have hslot : isVectorBuffer info ∨ info.order = result.order := by simpa using hslot
    split
    · rename_i hone
      rw [arrLoop_eq _ _ _ _ hroom]
      refine Prod.ext (List.map_congr_left fun k _ => ?_) rfl
      rw [vectorSource, if_pos hslot, hone, mul_one, Nat.zero_add]
    · rw [arrLoop_eq _ _ _ _ hroom]
      refine Prod.ext (List.map_congr_left fun k _ => ?_) rfl
      rw [vectorSource, if_pos hslot, Nat.zero_add]
  · rename_i hslot
    have hslot : ¬ (isVectorBuffer info ∨ info.order = result.order) := by simpa using hslot
    rw [arrLoop_eq _ _ _ _ hroom]
    refine Prod.ext (List.map_congr_left fun k hk => ?_) rfl
    rw [vectorSource, if_neg hslot, Nat.zero_add,
      getOffset_ind2subC hpos (List.mem_range.mp hk), zero_add]

/-- The loop over the inputs fills one block after the other. -/
theorem mem_vectorLoop (hpos : ∀ info ∈ inputs, info.Positive) {i : Nat}
    (hroom : idx + (lengthsOf inputs).sum ≤ result.length) (v : Copy) :
    v ∈ vectorLoop result inputs i idx ↔
      ∃ j, ∃ hj : j < inputs.length, ∃ k < inputs[j].length,
        v = ⟨i + j, vectorSource result inputs[j] k,
          (idx + (blockStart (lengthsOf inputs) j + k) : Nat)⟩ := by
  induction inputs generalizing i idx with
  | nil =>
      constructor
      · intro hv
        cases hv
      · rintro ⟨j, hj, -⟩
        cases hj
  | cons info inputs ih =>
      have hsum : (lengthsOf (info :: inputs)).sum = info.length + (lengthsOf inputs).sum :=
        List.sum_cons
      have hrest : ∀ info' ∈ inputs, info'.Positive :=
        fun info' h => hpos info' (List.mem_cons_of_mem _ h)
      have hlater : ∀ j, ∀ hj : j < inputs.length, ∀ k,
          (⟨i + (j + 1), vectorSource result ((info :: inputs).get ⟨j + 1, Nat.succ_lt_succ hj⟩) k,
            (idx + (blockStart (lengthsOf (info :: inputs)) (j + 1) + k) : Nat)⟩ : Copy) =
          ⟨i + 1 + j, vectorSource result inputs[j] k,
            (idx + info.length + (blockStart (lengthsOf inputs) j + k) : Nat)⟩ := by
        intro j hj k
        have hstart : blockStart (lengthsOf (info :: inputs)) (j + 1) =
            info.length + blockStart (lengthsOf inputs) j := blockStart_cons_succ _ _ _
        rw [hstart, Nat.add_right_comm i, Nat.add_assoc i, Nat.add_assoc idx,
          Nat.add_assoc info.length]
        rfl
      rw [vectorLoop, vectorCopies_eq hews i (hpos info List.mem_cons_self) (by omega)]
      simp only
      rw [List.mem_append, ih hrest (by omega), List.mem_map]
      constructor
      · rintro (⟨k, hk, rfl⟩ | ⟨j, hj, k, hk, rfl⟩)
        · refine ⟨0, Nat.zero_lt_succ _, k, List.mem_range.mp hk, ?_⟩
          rw [blockStart_zero, Nat.zero_add]
          rfl
        · exact ⟨j + 1, Nat.succ_lt_succ hj, k, hk, (hlater j hj k).symm⟩
      · rintro ⟨j, hj, k, hk, rfl⟩
        cases j with
        | zero =>
            refine Or.inl ⟨k, List.mem_range.mpr hk, ?_⟩
            rw [blockStart_zero, Nat.zero_add]
            rfl
        | succ j =>
            exact Or.inr ⟨j, Nat.lt_of_succ_lt_succ hj, k, hk,
              hlater j (Nat.lt_of_succ_lt_succ hj) k⟩

theorem fillsBlocks_vectorLoop (hpos : ∀ info ∈ inputs, info.Positive)
    (hlength : result.length = (lengthsOf inputs).sum) :
    FillsBlocks inputs (vectorSource result) (vectorLoop result inputs 0 0) := by
  intro v
  rw [mem_vectorLoop hews hpos (by omega)]
  simp only [Nat.zero_add]

omit hews

/-! ### Where the blocks lie -/

variable (h : Concatenable dimension inputs result)

include h

/-- The coordinates away from the dimension are as many for each input. -/
theorem Concatenable.length_eq_mul {info : ShapeInfo} (hinfo : info ∈ inputs) :
    info.length = info.shape.getD dimension 0 * (result.shape.eraseIdx dimension).prod := by
  rw [ShapeInfo.length, prod_eq_getD_mul (h.dimension_lt_rank hinfo), h.shape_eq info hinfo,
    List.eraseIdx_set_eq]

theorem Concatenable.lengthsOf_eq :
    lengthsOf inputs =
      (extents dimension inputs).map (· * (result.shape.eraseIdx dimension).prod) := by
  rw [lengthsOf, extents, List.map_map]
  exact List.map_congr_left fun info hinfo => h.length_eq_mul hinfo

theorem Concatenable.length_eq_sum : result.length = (lengthsOf inputs).sum := by
  have hsum := blockStart_map_mul (extents dimension inputs)
    (result.shape.eraseIdx dimension).prod (extents dimension inputs).length
  rw [← h.lengthsOf_eq, blockStart_length] at hsum
  have hcount : (extents dimension inputs).length = (lengthsOf inputs).length := by
    rw [extents, lengthsOf, List.length_map, List.length_map]
  rw [hcount, blockStart_length] at hsum
  rw [hsum, ShapeInfo.length, prod_eq_getD_mul h.dimension_lt, h.getD_shape]

omit h

/-- In C order a dense array holds its coordinates by their numbers. -/
theorem DenseResult.dot_eq_encode (hdense : DenseResult result) (horder : result.order = 'c')
    {c : List Nat} (hc : InBox result.shape c) : dot c result.stride = encode result.shape c := by
  have hcell := hdense.dense _ (encode_lt hc)
  rw [elementOffset, ShapeInfo.isFOrder, horder, if_neg (by decide), ShapeInfo.dims_axes,
    ShapeInfo.map_snd_axes, decode_encode hc] at hcell
  exact hcell

/-- Along the first axis of a result in C order the inputs follow each other. -/
theorem rowMajorBlocks_of_firstAxis (h : Concatenable 0 inputs result)
    (hdense : DenseResult result) (horder : result.order = 'c') :
    RowMajorBlocks 0 inputs result := by
  intro i hi c hc
  have hbox := h.inBox_shift hi hc
  have hshape := h.shape_eq _ (List.getElem_mem hi)
  have hstart : blockStart (lengthsOf inputs) i =
      axisStart 0 inputs i * (result.shape.eraseIdx 0).prod := by
    rw [h.lengthsOf_eq, blockStart_map_mul, axisStart]
  rw [cellOf, hdense.dot_eq_encode horder hbox, hstart]
  obtain ⟨n, ds, hcons⟩ := List.exists_cons_of_length_pos
    (h.dimension_lt_rank (List.getElem_mem hi))
  rw [hcons, List.set_cons_zero] at hshape
  rw [hcons] at hc ⊢
  cases hc with
  | @cons _ k _ cs hk hrest =>
      rw [hshape, List.set_cons_zero, List.getD_cons_zero, List.eraseIdx_zero, List.tail_cons,
        encode, encode, Nat.add_mul, Nat.add_assoc]

/-- Along the only axis that moves, a dense result has stride one. -/
theorem DenseResult.stride_eq_one (hdense : DenseResult result) (hpos : result.Positive)
    (hlt : dimension < result.rank) (hinner : (result.shape.eraseIdx dimension).prod = 1)
    (htwo : 2 ≤ result.shape.getD dimension 0) : result.stride.getD dimension 0 = 1 := by
  have hone : 1 < result.length := by
    rw [ShapeInfo.length, prod_eq_getD_mul hlt, hinner]
    omega
  have hbox : InBox result.shape (coordinateOf result.isFOrder result.shape 1) :=
    (bijOn_coordinateOf result.isFOrder hpos).mapsTo hone
  have hcell : dot (coordinateOf result.isFOrder result.shape 1) result.stride = 1 := by
    have hdot := hdense.dense 1 hone
    rw [elementOffset, ShapeInfo.dims_axes, ShapeInfo.map_snd_axes] at hdot
    rw [coordinateOf]
    split at hdot
    · rename_i hF
      rw [if_pos hF]
      exact hdot
    · rename_i hF
      rw [if_neg hF]
      exact hdot
  obtain ⟨us, e, hu, -, hc⟩ := exists_insertIdx hbox hlt
  have hd := le_length_of_inBox hu hlt
  have hlength : result.stride.length = us.length + 1 := by
    rw [result.stride_length, hbox.length_eq, hc, List.length_insertIdx_of_le_length hd]
  rw [hc, dot_insertIdx hd hlength, dot_eq_zero_of_prod hu hinner, zero_add, nsmul_eq_mul] at hcell
  rcases Int.eq_one_or_neg_one_of_mul_eq_one' hcell with ⟨-, hs⟩ | ⟨he, -⟩
  · exact hs
  · omega

variable (h : Concatenable dimension inputs result)

include h

/-- Along the only axis that moves, the inputs follow each other. -/
theorem rowMajorBlocks_of_inner (hdense : DenseResult result)
    (hinner : (result.shape.eraseIdx dimension).prod = 1) :
    RowMajorBlocks dimension inputs result := by
  intro i hi c hc
  have hinfo : inputs[i] ∈ inputs := List.getElem_mem hi
  have hlt := h.dimension_lt_rank hinfo
  have hrest : inputs[i].shape.eraseIdx dimension = result.shape.eraseIdx dimension := by
    rw [h.shape_eq _ hinfo, List.eraseIdx_set_eq]
  have hone := hdense.stride_eq_one h.result_positive h.dimension_lt hinner
    (h.getD_shape.symm ▸ h.two_le_sum)
  have hstart : blockStart (lengthsOf inputs) i = axisStart dimension inputs i := by
    rw [h.lengthsOf_eq, blockStart_map_mul, hinner, Nat.mul_one, axisStart]
  obtain ⟨us, e, hu, -, rfl⟩ := exists_insertIdx hc hlt
  have hd := le_length_of_inBox hu hlt
  have hlength : result.stride.length = us.length + 1 := by
    rw [result.stride_length, ← List.length_insertIdx_of_le_length hd e, ← hc.length_eq]
    exact (h.rank_eq hinfo).symm
  rw [cellOf, getD_insertIdx hd, set_insertIdx hd, dot_insertIdx hd hlength, hone,
    encode_insertIdx_of_prod hu hlt (hrest ▸ hinner), hstart]
  rw [hrest] at hu
  rw [dot_eq_zero_of_prod hu hinner, zero_add, nsmul_one]

/-! ### Vectors and scalars -/

/-- The other axis of a vector has extent one. -/
theorem Concatenable.inner_of_vector (hvector : isVectorBuffer result = true) :
    (result.shape.eraseIdx dimension).prod = 1 := by
  have hlt : dimension < result.shape.length := h.dimension_lt
  have htwo : 2 ≤ result.shape.getD dimension 0 := h.getD_shape.symm ▸ h.two_le_sum
  obtain ⟨hrank, hunit⟩ := of_decide_eq_true hvector
  have hsecond : secondExtent result =
      if result.rank = 1 then result.stride.getD 0 0 else (result.shape.getD 1 0 : Nat) := rfl
  rw [hsecond, ShapeInfo.rank] at hunit
  rw [ShapeInfo.rank] at hrank
  generalize result.shape = extents at hlt htwo hunit hrank ⊢
  rcases extents with _ | ⟨m, _ | ⟨n, _ | ⟨k, rest⟩⟩⟩
  · simp at hlt
  · have hzero : dimension = 0 := by simpa using hlt
    rw [hzero]
    rfl
  · have hunit : m = 1 ∨ n = 1 := by simpa using hunit
    have hcases : dimension = 0 ∨ dimension = 1 := by
      simp only [List.length_cons, List.length_nil] at hlt
      omega
    rcases hcases with rfl | rfl
    · have hm : m ≠ 1 := by
        rintro rfl
        simp at htwo
      simpa using hunit.resolve_left hm
    · have hn : n ≠ 1 := by
        rintro rfl
        simp at htwo
      simpa using hunit.resolve_right hn
  · simp at hrank

/-- Scalars are concatenated to a vector. -/
theorem Concatenable.inner_of_scalars (hscalars : ∀ info ∈ inputs, info.length = 1) :
    (result.shape.eraseIdx dimension).prod = 1 := by
  have hone := hscalars _ h.head_mem
  rw [h.length_eq_mul h.head_mem] at hone
  exact (mul_eq_one.mp hone).2

variable (hdense : DenseResult result)

include hdense

/-- A result of rank one is read as a vector. -/
theorem Concatenable.isVectorBuffer_of_rank (hrank : result.rank = 1) :
    isVectorBuffer result = true := by
  have hzero : dimension = 0 := by
    have hlt := h.dimension_lt
    omega
  subst hzero
  obtain ⟨m, hshape⟩ := List.length_eq_one_iff.mp (show result.shape.length = 1 from hrank)
  have hone := hdense.stride_eq_one h.result_positive h.dimension_lt (by rw [hshape]; rfl)
    (h.getD_shape.symm ▸ h.two_le_sum)
  rw [isVectorBuffer, secondExtent, if_pos hrank, hone]
  simp [hrank]

/-! ### The paths -/

theorem Concatenable.concatenates_of_scalars (hscalar : allScalar inputs = true) :
    Concatenates dimension inputs result := by
  have hlengths : ∀ info ∈ inputs, info.length = 1 :=
    fun info hinfo => length_of_isScalar (List.all_eq_true.mp hscalar info hinfo)
  have hcopies : concatCpuGeneric dimension inputs result = some (scalarCopies inputs.length) := by
    have htwo := h.several
    unfold concatCpuGeneric
    simp only
    rw [if_neg (by omega), if_pos hscalar]
  have hiff := concatenates_iff_of_linear h hcopies (fillsBlocks_scalarCopies hlengths)
    (rowMajorBlocks_of_inner h hdense (h.inner_of_scalars hlengths))
  refine hiff.mpr fun info hinfo k hk => ?_
  rw [hlengths info hinfo] at hk
  have hzero : k = 0 := by omega
  have hpos : 0 < volume info.axes := by
    rw [info.volume_axes, hlengths info hinfo]
    exact Nat.one_pos
  rw [hzero, elementOffset_eq_ite _ _ hpos, if_neg Bool.false_ne_true, offsetAt_zero]

/-- Along the first axis the linear copy is right exactly for arrays without gaps. -/
theorem Concatenable.concatenates_iff_firstAxis (hscalar : ¬ allScalar inputs = true)
    (hfirst : allC inputs = true ∧ dimension = 0 ∧ result.order = 'c') :
    Concatenates dimension inputs result ↔
      ∀ info ∈ inputs, ∀ k < info.length, elementOffset false info.axes k = k := by
  obtain ⟨-, hzero, horder⟩ := id hfirst
  obtain ⟨copies, hcopies, hfills⟩ : ∃ copies,
      concatCpuGeneric dimension inputs result = some copies ∧
        FillsBlocks inputs (fun _ k => k) copies := by
    have htwo := h.several
    unfold concatCpuGeneric
    simp only
    rw [if_neg (by omega), if_neg hscalar, if_pos hfirst]
    split
    · rename_i hrows
      refine ⟨_, rfl, fillsBlocks_rowCopies fun info hinfo => ?_⟩
      have hsame := List.all_eq_true.mp hrows.2 info hinfo
      exact (of_decide_eq_true hsame).2
    · exact fillsBlocks_linearLoop (fun info hinfo => (h.positive info hinfo).length_pos)
        (List.ne_nil_of_mem h.head_mem) h.length_eq_sum
  subst hzero
  rw [concatenates_iff_of_linear h hcopies hfills (rowMajorBlocks_of_firstAxis h hdense horder)]
  exact forall_congr' fun info => forall_congr' fun _ => forall_congr' fun k =>
    forall_congr' fun _ => eq_comm

/-- Into a vector the copy is right exactly if each element-wise stride it uses walks through the
input. -/
theorem Concatenable.concatenates_iff_vector (hscalar : ¬ allScalar inputs = true)
    (hfirst : ¬ (allC inputs = true ∧ dimension = 0 ∧ result.order = 'c'))
    (hvector : isVectorBuffer result = true) :
    Concatenates dimension inputs result ↔
      ∀ info ∈ inputs, isVectorBuffer info = true ∨ info.order = result.order →
        ∀ k < info.length, elementOffset false info.axes k = k * info.elementWiseStride := by
  have hcopies : concatCpuGeneric dimension inputs result =
      some (vectorLoop result inputs 0 0) := by
    have htwo := h.several
    unfold concatCpuGeneric
    simp only
    rw [if_neg (by omega), if_neg hscalar, if_neg hfirst, if_pos hvector]
  rw [concatenates_iff_of_linear h hcopies
    (fillsBlocks_vectorLoop hdense.ews_eq h.positive h.length_eq_sum)
    (rowMajorBlocks_of_inner h hdense (h.inner_of_vector hvector))]
  refine forall_congr' fun info => forall_congr' fun hinfo => ?_
  by_cases hslot : isVectorBuffer info = true ∨ info.order = result.order
  · rw [forall_prop_of_true hslot]
    refine forall_congr' fun k => forall_congr' fun _ => ?_
    rw [vectorSource, if_pos hslot, eq_comm]
  · refine iff_of_true (fun k hk => ?_) fun h => absurd h hslot
    rw [vectorSource, if_neg hslot, elementOffset_eq_ite _ _ (by rwa [info.volume_axes]),
      if_neg Bool.false_ne_true]

end Linear

end Arrays
end LibND4J
