import LibND4J.Arrays.ConcatTads
import LibND4J.Arrays.Histories
import LibND4J.Arrays.Operations
import Mathlib.Data.List.GetD

/-!
# Repeating along a dimension

`repeat` walks the tensors of an array and of its result along one dimension together, and
stores every element of the first one several times.

Main results:

- Theorem `tensorAt_single`: the tensors along one axis.
- Theorem `repeatNDArray_cells`: from where the elements of the result come.
- Theorem `repeatsRight_iff`: which axes of which arrays are repeated right.
- Theorem `repeatNDArray_spec`: every row of a dense matrix comes several times.
-/

namespace LibND4J
namespace Arrays

open Shape Strided

/-! ## The routine -/

/-- A tensor of an array: where it starts, and its shape information. -/
structure Tensor where
  start : Int
  shapeInfo : ShapeInfo

/-- The cell of an element that `getIndexedScalar` and `putIndexedScalar` reach. -/
def Tensor.cell (tensor : Tensor) (i : Nat) : Int :=
  getOffset tensor.start tensor.shapeInfo.shape tensor.shapeInfo.stride
    (ind2subC tensor.shapeInfo.shape i)

/-- `tensorAlongDimension` along one dimension, with its offset. -/
def tensorAt (info : ShapeInfo) (dimension : Int) (index : Nat) : Except Failure Tensor :=
  match checkDimensions info.rank [dimension] with
  | .error message => .error (.thrown message)
  | .ok dims =>
      match tensorAlongDimension info index [dimension] with
      | .error message => .error (.thrown message)
      | .ok none => .error .undefined
      | .ok (some shapeInfo) =>
          .ok ⟨(TAD.init info dims).createOffsets.getD index 0, shapeInfo⟩

/-- `tensorsAlongDimension` along one dimension. -/
def tensorsAlong (info : ShapeInfo) (dimension : Int) : Except Failure Nat :=
  match checkDimensions info.rank [dimension] with
  | .error message => .error (.thrown message)
  | .ok dims => .ok (info.length / tadLength info.shape dims.toList)

/-- The counts for all axes: those that are given, behind unities or before them. -/
def repeatCounts (rank : Nat) (dimension : Int) (repeats : List Nat) : List Nat :=
  if dimension > 0 then List.replicate (rank - repeats.length) 1 ++ repeats
  else repeats ++ List.replicate (rank - repeats.length) 1

/-- The copies from one tensor, each with the cell it is stored to; the index into the result runs
on over all elements. -/
def repeatTensor (repeatDelta : Nat) (thisTensor retTensor : Tensor) :
    Except Failure (List (Int × Int)) :=
  if retTensor.shapeInfo.length < thisTensor.shapeInfo.length * repeatDelta then
    .error (.thrown "Requested index above limit")
  else
    .ok ((List.range thisTensor.shapeInfo.length).flatMap fun k =>
      (List.range repeatDelta).map fun j =>
        (retTensor.cell (k * repeatDelta + j), thisTensor.cell k))

/-- The copies from all tensors. -/
def repeatCopies (repeatDelta : Nat) (dimension : Int) (info ret : ShapeInfo) :
    Except Failure (List (Int × Int)) := do
  let numTads ← tensorsAlong info dimension
  let copies ← (List.range numTads).mapM fun i => do
    let thisTensor ← tensorAt info dimension i
    let retTensor ← tensorAt ret dimension i
    repeatTensor repeatDelta thisTensor retTensor
  .ok copies.flatten

/-- `NDArray::repeat`. -/
def repeatNDArray {T : Type} [Zero T] (dimension : Int) (repeats : List Nat) (array : NDArray T) :
    Except Failure (NDArray T) :=
  let info := array.shapeInfo
  let dimension := if dimension < 0 then dimension + info.rank else dimension
  let ret : NDArray T := NDArray.ofShape 'c'
    (List.zipWith (· * ·) info.shape (repeatCounts info.rank dimension repeats))
  if info.length = 0 then .error .undefined
  else
    (repeatCopies (ret.shapeInfo.length / info.length) dimension info ret.shapeInfo).map
      fun copies => ⟨ret.shapeInfo, Stores.storeAll (fun copy : Int × Int => copy.1)
        (fun copy _ => array.buffer copy.2) copies ret.buffer⟩

/-! ## Tensors along one axis -/

section Along

variable {info ret : ShapeInfo} {d : Nat}

theorem checkDimensions_single {rank : Nat} (h : d < rank) :
    checkDimensions rank [(d : Int)] = .ok (singleDimension d h) := by
  have haxis : axisOf rank d = d := if_neg (by omega)
  have hsort : sortUnique ([(d : Int)].map (axisOf rank)) = [(d : Int)] := by
    rw [List.map_singleton, haxis]
    simp [sortUnique]
  unfold checkDimensions
  rw [dif_neg (List.cons_ne_nil _ [])]
  simp only [hsort]
  have hfits : ¬ [(d : Int)].length > rank := by
    rw [List.length_singleton]
    omega
  have hrange : ¬ (([(d : Int)]).headD 0 < 0 ∨ ([(d : Int)]).getLastD 0 > (rank : Int) - 1) := by
    simp only [List.headD_cons, List.getLastD_cons, List.getLastD_nil]
    omega
  rw [if_neg hfits, dif_neg hrange]
  rfl

theorem volume_kept_init (h : d < info.rank) :
    volume (TAD.init info (singleDimension d h)).kept = info.shape.getD d 0 := by
  rw [kept_init h, volume_cons, volume_nil, Nat.mul_one]

theorem tadLength_single (h : d < info.rank) :
    tadLength info.shape (singleDimension d h).toList = info.shape.getD d 0 := by
  have hlength := (TAD.init info (singleDimension d h)).tadLength_eq
  rwa [volume_kept_init h] at hlength

variable (hpos : info.Positive)

include hpos

theorem getD_shape_pos (h : d < info.rank) : 0 < info.shape.getD d 0 := by
  rw [List.getD_eq_getElem _ _ h]
  exact hpos _ (List.getElem_mem h)

theorem length_div_single (h : d < info.rank) :
    info.length / info.shape.getD d 0 = (info.shape.eraseIdx d).prod := by
  rw [ShapeInfo.length, prod_eq_getD_mul h, Nat.mul_div_cancel_left _ (getD_shape_pos hpos h)]

theorem tensorsAlong_single (h : d < info.rank) :
    tensorsAlong info d = .ok (info.shape.eraseIdx d).prod := by
  rw [tensorsAlong, checkDimensions_single h]
  simp only [tadLength_single h, length_div_single hpos h]

/-- A tensor along one axis starts at its offset and moves along the axis. -/
theorem tensorAt_single (hews : info.HonestEws) (hrank : 2 ≤ info.rank)
    (hmax : info.rank ≤ maxDimension) (h : d < info.rank) {j : Nat}
    (hj : j < (info.shape.eraseIdx d).prod) :
    ∃ tensor, tensorAt info d j = .ok tensor ∧
      tensor.shapeInfo.length = info.shape.getD d 0 ∧
      ∀ k < info.shape.getD d 0, tensor.cell k =
        (offsetsAlong d info).getD j 0 + k * info.stride.getD d 0 := by
  have hvolume := volume_kept_init h
  obtain ⟨ret, hret, hmoves⟩ := @shapeInfoOnlyShapeAndStride_spec
    (TAD.init info (singleDimension d h)) hpos hews hrank hmax hrank
  have halong : tensorAlongDimension info j [(d : Int)] = .ok (some ret) := by
    have hmany : ¬ ((j : Int) ≥ ((info.shape.eraseIdx d).prod : Nat)) := by omega
    have hpositive := getD_shape_pos hpos h
    have hshapeInfo : tadOnlyShapeInfo info (singleDimension d h) = some ret := by
      match haxes : info.axes, info.length_axes with
      | [], hlength => rw [List.length_nil] at hlength; omega
      | [_], hlength => rw [List.length_singleton] at hlength; omega
      | _ :: _ :: _, _ => rw [tadOnlyShapeInfo, haxes]; exact hret
    rw [tensorAlongDimension, checkDimensions_single h]
    simp only [tadLength_single h, length_div_single hpos h]
    rw [if_neg (Nat.ne_of_gt hpositive), if_neg hmany, hshapeInfo]
  refine ⟨⟨(offsetsAlong d info).getD j 0, ret⟩, ?_, ?_, fun k hk => ?_⟩
  · rw [tensorAt, checkDimensions_single h]
    simp only [halong]
    rw [offsetsAlong, dif_pos h]
  · rw [← hvolume, ← hmoves.volume_eq, ShapeInfo.volume_axes]
  · have hcell := hmoves.getOffset_eq (hvolume.symm ▸ hk) ((offsetsAlong d info).getD j 0)
    refine hcell.trans ?_
    rw [kept_init h, offsetAt_cons, volume_nil, Nat.div_one, offsetAt_nil, add_zero, nsmul_eq_mul]

omit hpos

/-- The copies of one tensor: each of its elements comes `r` times. -/
def tensorCopies (n r : Nat) (start stride retStart retStride : Int) : List (Int × Int) :=
  (List.range n).flatMap fun k => (List.range r).map fun j =>
    (retStart + ((k * r + j : Nat) : Int) * retStride, start + (k : Int) * stride)

theorem mul_add_lt_mul {n r k j : Nat} (hk : k < n) (hj : j < r) : k * r + j < n * r := by
  calc k * r + j < k * r + r := Nat.add_lt_add_left hj _
    _ = (k + 1) * r := by ring
    _ ≤ n * r := Nat.mul_le_mul_right _ hk

theorem repeatTensor_eq {thisTensor retTensor : Tensor} {n r : Nat}
    {start stride retStart retStride : Int} (hthis : thisTensor.shapeInfo.length = n)
    (hret : retTensor.shapeInfo.length = n * r)
    (hthisCell : ∀ k < n, thisTensor.cell k = start + k * stride)
    (hretCell : ∀ k < n * r, retTensor.cell k = retStart + k * retStride) :
    repeatTensor r thisTensor retTensor = .ok (tensorCopies n r start stride retStart retStride) := by
  rw [repeatTensor, hthis, hret, if_neg (Nat.lt_irrefl _)]
  refine congrArg Except.ok (List.flatMap_congr fun k hk => List.map_congr_left fun j hj => ?_)
  have hk := List.mem_range.mp hk
  rw [hthisCell k hk, hretCell _ (mul_add_lt_mul hk (List.mem_range.mp hj))]

theorem mem_tensorCopies {n r : Nat} {start stride retStart retStride : Int}
    {copy : Int × Int} (hr : 0 < r) :
    copy ∈ tensorCopies n r start stride retStart retStride ↔
      ∃ q < n * r, copy = (retStart + q * retStride, start + (q / r : Nat) * stride) := by
  simp only [tensorCopies, List.mem_flatMap, List.mem_map, List.mem_range]
  constructor
  · rintro ⟨k, hk, j, hj, rfl⟩
    refine ⟨k * r + j, mul_add_lt_mul hk hj, ?_⟩
    rw [Nat.add_comm (k * r), Nat.add_mul_div_right _ _ hr, Nat.div_eq_of_lt hj, Nat.zero_add]
  · rintro ⟨q, hq, rfl⟩
    refine ⟨q / r, Nat.div_lt_of_lt_mul (Nat.mul_comm n r ▸ hq), q % r, Nat.mod_lt _ hr, ?_⟩
    rw [Nat.div_add_mod']

/-- The copies of all tensors, for a result with the repeated axis. -/
theorem repeatCopies_eq (hpos : info.Positive) (hews : info.HonestEws) (hrank : 2 ≤ info.rank)
    (hmax : info.rank ≤ maxDimension) (h : d < info.rank) {r : Nat} (hret : ret.Positive)
    (hretEws : ret.HonestEws) (hshape : ret.shape = info.shape.set d (info.shape.getD d 0 * r)) :
    repeatCopies r d info ret =
      .ok ((List.range (info.shape.eraseIdx d).prod).map fun i =>
        tensorCopies (info.shape.getD d 0) r ((offsetsAlong d info).getD i 0)
          (info.stride.getD d 0) ((offsetsAlong d ret).getD i 0) (ret.stride.getD d 0)).flatten := by
  have hretRank : ret.rank = info.rank := by
    rw [ShapeInfo.rank, hshape, List.length_set]
    rfl
  have hrest : ret.shape.eraseIdx d = info.shape.eraseIdx d := by
    rw [hshape, List.eraseIdx_set_eq]
  have hextent : ret.shape.getD d 0 = info.shape.getD d 0 * r := by
    rw [hshape, getD_set_self h]
  have htensor : ∀ i ∈ List.range (info.shape.eraseIdx d).prod, (do
      let thisTensor ← tensorAt info d i
      let retTensor ← tensorAt ret d i
      repeatTensor r thisTensor retTensor) =
      .ok (tensorCopies (info.shape.getD d 0) r ((offsetsAlong d info).getD i 0)
        (info.stride.getD d 0) ((offsetsAlong d ret).getD i 0) (ret.stride.getD d 0)) := by
    intro i hi
    have hi := List.mem_range.mp hi
    obtain ⟨thisTensor, hthis, hlength, hcell⟩ := tensorAt_single hpos hews hrank hmax h hi
    obtain ⟨retTensor, hretTensor, hretLength, hretCell⟩ := tensorAt_single hret hretEws
      (hretRank ▸ hrank) (hretRank ▸ hmax) (hretRank ▸ h) (hrest ▸ hi)
    rw [hextent] at hretLength hretCell
    rw [hthis, hretTensor]
    exact repeatTensor_eq hlength hretLength hcell hretCell
  rw [repeatCopies, tensorsAlong_single hpos h]
  exact congrArg (Except.bind · fun copies : List (List (Int × Int)) => .ok copies.flatten)
    (mapM_eq_ok htensor)

/-- A cell of a dense result belongs to one tensor and one index along it. -/
theorem cell_insertIdx (h : d < info.rank) {us : List Nat} (hu : InBox (info.shape.eraseIdx d) us)
    (q : Nat) :
    dot (us.insertIdx d q) info.stride =
      dot us (info.stride.eraseIdx d) + q * info.stride.getD d 0 := by
  have hd := le_length_of_inBox hu h
  have hlength : info.stride.length = us.length + 1 := by
    rw [info.stride_length, ← hu.length_eq, List.length_eraseIdx_of_lt h]
    exact (Nat.sub_add_cancel (Nat.zero_lt_of_lt h)).symm
  rw [dot_insertIdx hd hlength, nsmul_eq_mul]

/-- Tensors along one axis start right, unless the shortcut for whole arrays meets an F order. -/
def StartsRight (info : ShapeInfo) (d : Nat) : Prop :=
  2 < info.rank → info.shape.getD d 0 = 1 → info.elementWiseStride = 1 →
    info.isFOrder = false ∨ (squeeze (info.axes.eraseIdx d)).length ≤ 1

theorem startsRight_iff (hpos : info.Positive) (hews : info.HonestEws) (h : d < info.rank) :
    (∀ j < (info.shape.eraseIdx d).prod, (offsetsAlong d info).getD j 0 =
      dot (decode (info.shape.eraseIdx d) j) (info.stride.eraseIdx d)) ↔ StartsRight info d := by
  rw [offsetsAlong, dif_pos h]
  exact createOffsets_single_iff hpos hews h

/-- The repeated array, where the counts stand at the axis: its elements come from the tensors of
the array. -/
theorem repeatNDArray_cells {T : Type} [Zero T] {dimension : Int} {r : Nat} {buffer : Int → T}
    (hpos : info.Positive) (hews : info.HonestEws) (hrank : 2 ≤ info.rank)
    (hmax : info.rank ≤ maxDimension) (h : d < info.rank) (hr : 0 < r)
    (hdimension : (if dimension < 0 then dimension + info.rank else dimension) = d)
    (hcounts : List.zipWith (· * ·) info.shape (repeatCounts info.rank d [r]) =
      info.shape.set d (info.shape.getD d 0 * r)) :
    ∃ cells, repeatNDArray dimension [r] ⟨info, buffer⟩ =
        .ok ⟨newShapeInfo 'c' (info.shape.set d (info.shape.getD d 0 * r)), cells⟩ ∧
      ∀ us, InBox (info.shape.eraseIdx d) us → ∀ q < info.shape.getD d 0 * r,
        (NDArray.mk (newShapeInfo 'c' (info.shape.set d (info.shape.getD d 0 * r))) cells).element
            (us.insertIdx d q) =
          buffer ((offsetsAlong d info).getD (encode (info.shape.eraseIdx d) us) 0 +
            (q / r : Nat) * info.stride.getD d 0) := by
  set shape := info.shape.set d (info.shape.getD d 0 * r) with hshape
  have hextent := getD_shape_pos hpos h
  have hshapePos : ∀ n ∈ shape, 0 < n := by
    intro n hn
    rcases List.mem_or_eq_of_mem_set hn with hn | rfl
    · exact hpos n hn
    · exact Nat.mul_pos hextent hr
  have hret := positive_newShapeInfo hshapePos 'c'
  have hretEws := honestEws_newShapeInfo (Or.inl rfl) hshapePos
  have hretShape : (newShapeInfo 'c' shape).shape = shape := shape_newShapeInfo 'c' shape
  have hretRank : (newShapeInfo 'c' shape).rank = info.rank := by
    rw [ShapeInfo.rank, hretShape, hshape, List.length_set]
    rfl
  have hretLt : d < (newShapeInfo 'c' shape).rank := hretRank ▸ h
  have hrest : shape.eraseIdx d = info.shape.eraseIdx d := by
    rw [hshape, List.eraseIdx_set_eq]
  have hretExtent : shape.getD d 0 = info.shape.getD d 0 * r := by
    rw [hshape, getD_set_self h]
  have hdelta : (newShapeInfo 'c' shape).length / info.length = r := by
    have hretLength : d < shape.length := by
      rw [hshape, List.length_set]
      exact h
    rw [ShapeInfo.length, ShapeInfo.length, hretShape, prod_eq_getD_mul hretLength, hrest,
      hretExtent, prod_eq_getD_mul h, Nat.mul_right_comm,
      Nat.mul_div_cancel_left _ (Nat.mul_pos hextent (prod_pos_of_pos fun n hn =>
        hpos n (List.mem_of_mem_eraseIdx hn)))]
  have hcopies := repeatCopies_eq hpos hews hrank hmax h hret hretEws (hretShape.trans hshape)
  have hrun : ∃ cells, repeatNDArray dimension [r] ⟨info, buffer⟩ =
      .ok ⟨newShapeInfo 'c' shape, cells⟩ ∧ cells =
        Stores.storeAll (fun copy : Int × Int => copy.1) (fun copy _ => buffer copy.2)
          ((List.range (info.shape.eraseIdx d).prod).map fun i =>
            tensorCopies (info.shape.getD d 0) r ((offsetsAlong d info).getD i 0)
              (info.stride.getD d 0) ((offsetsAlong d (newShapeInfo 'c' shape)).getD i 0)
              ((newShapeInfo 'c' shape).stride.getD d 0)).flatten fun _ => 0 := by
    refine ⟨_, ?_, rfl⟩
    unfold repeatNDArray
    simp only [hdimension, hcounts, NDArray.ofShape, if_neg (Nat.ne_of_gt hpos.length_pos), hdelta,
      hcopies]
    rfl
  obtain ⟨cells, hrun, hcells⟩ := hrun
  refine ⟨cells, hrun, fun us hu q hq => ?_⟩
  have hstarts := (startsRight_iff hret hretEws hretLt).mpr fun _ _ _ => Or.inl (by
    rw [ShapeInfo.isFOrder, order_newShapeInfo (Or.inl rfl)]
    rfl)
  rw [hretShape, hrest] at hstarts
  have hbox : InBox (newShapeInfo 'c' shape).shape (us.insertIdx d q) := by
    rw [hretShape]
    refine inBox_insertIdx (hrest.symm ▸ hu) ?_
    rwa [hretExtent]
  have hinner : ∀ n ∈ info.shape.eraseIdx d, 0 < n :=
    fun n hn => hpos n (List.mem_of_mem_eraseIdx hn)
  have hcell : ∀ i < (info.shape.eraseIdx d).prod, ∀ q',
      (offsetsAlong d (newShapeInfo 'c' shape)).getD i 0 +
        q' * (newShapeInfo 'c' shape).stride.getD d 0 =
      dot ((decode (info.shape.eraseIdx d) i).insertIdx d q') (newShapeInfo 'c' shape).stride := by
    intro i hi q'
    rw [hstarts i hi, cell_insertIdx hretLt (by rw [hretShape, hrest]; exact inBox_decode hinner hi)]
  rw [element_eq hbox, hcells]
  refine Stores.storeAll_of_agree ?_ (fun copy hcopy htarget _ => ?_) _
  · refine ⟨_, List.mem_flatten.mpr ⟨_, List.mem_map.mpr ⟨_, List.mem_range.mpr (encode_lt hu),
      rfl⟩, (mem_tensorCopies hr).mpr ⟨q, hq, rfl⟩⟩, ?_⟩
    show _ + (q : Int) * _ = _
    rw [hcell _ (encode_lt hu), decode_encode hu]
  · obtain ⟨l, hl, hcopy⟩ := List.mem_flatten.mp hcopy
    obtain ⟨i, hi, rfl⟩ := List.mem_map.mp hl
    have hi := List.mem_range.mp hi
    obtain ⟨q', hq', rfl⟩ := (mem_tensorCopies hr).mp hcopy
    have hu' := inBox_decode hinner hi
    rw [hcell i hi] at htarget
    have hbox' : InBox (newShapeInfo 'c' shape).shape
        ((decode (info.shape.eraseIdx d) i).insertIdx d q') := by
      rw [hretShape]
      refine inBox_insertIdx (hrest.symm ▸ hu') ?_
      rwa [hretExtent]
    have hcoord := cellsApart_newShapeInfo (Or.inl rfl) hshapePos _ _ hbox' hbox htarget
    have hindex := congrArg (·.getD d 0) hcoord
    have hothers := congrArg (·.eraseIdx d) hcoord
    simp only [getD_insertIdx (le_length_of_inBox hu' h), getD_insertIdx (le_length_of_inBox hu h),
      List.eraseIdx_insertIdx_self] at hindex hothers
    have hnumber : i = encode (info.shape.eraseIdx d) us := by
      rw [← hothers, encode_decode hinner hi]
    rw [hindex, ← hnumber]

end Along

/-! ## When an axis is repeated -/

section Axes

variable {info : ShapeInfo} {dimension : Int} {r : Nat}

/-- The axis that is meant; negative ones count from the end. -/
def repeatAxis (info : ShapeInfo) (dimension : Int) : Nat :=
  (if dimension < 0 then dimension + info.rank else dimension).toNat

/-- The result has the axis `r` times as long, and every element comes `r` times along it. -/
def RepeatsRight (info : ShapeInfo) (dimension : Int) (r : Nat) : Prop :=
  let d := repeatAxis info dimension
  ∀ (T : Type) [Zero T] (buffer : Int → T), ∃ ret,
    repeatNDArray dimension [r] ⟨info, buffer⟩ = .ok ret ∧
    ret.shapeInfo.shape = info.shape.set d (info.shape.getD d 0 * r) ∧
    ∀ c, InBox ret.shapeInfo.shape c →
      ret.element c = (NDArray.mk info buffer).element (c.set d (c.getD d 0 / r))

theorem zipWith_ones {shape : List Nat} {n : Nat} (h : shape.length ≤ n) :
    List.zipWith (· * ·) shape (List.replicate n 1) = shape := by
  induction shape generalizing n with
  | nil => rfl
  | cons m shape ih =>
      obtain ⟨n, rfl⟩ := Nat.exists_eq_succ_of_ne_zero (Nat.ne_of_gt (Nat.zero_lt_of_lt h))
      rw [List.replicate_succ, List.zipWith_cons_cons, mul_one, ih (Nat.le_of_succ_le_succ h)]

/-- The count stands at the axis if that is the first or the last one. -/
theorem counts_eq_iff {shape : List Nat} (hpos : ∀ n ∈ shape, 0 < n) {d : Nat}
    (h : d < shape.length) (r : Nat) :
    List.zipWith (· * ·) shape (repeatCounts shape.length d [r]) =
        shape.set d (shape.getD d 0 * r) ↔
      r = 1 ∨ d = 0 ∨ d + 1 = shape.length := by
  rcases Nat.eq_zero_or_pos d with rfl | hd
  · obtain ⟨n, shape, rfl⟩ := List.exists_cons_of_length_pos h
    refine iff_of_true ?_ (Or.inr (Or.inl rfl))
    rw [repeatCounts, if_neg (by decide), List.length_cons, List.length_singleton,
      Nat.add_sub_cancel, List.singleton_append, List.zipWith_cons_cons, zipWith_ones le_rfl]
    rfl
  · obtain ⟨front, last, rfl⟩ : ∃ front last, shape = front ++ [last] :=
      ⟨_, _, (List.dropLast_append_getLast (List.ne_nil_of_length_pos (by omega))).symm⟩
    have hlength : (front ++ [last]).length = front.length + 1 := List.length_append
    have hcounts : List.zipWith (· * ·) (front ++ [last])
        (repeatCounts (front ++ [last]).length d [r]) = front ++ [last * r] := by
      rw [repeatCounts, if_pos (by omega), hlength, List.length_singleton, Nat.add_sub_cancel,
        List.zipWith_append (by rw [List.length_replicate]), zipWith_ones le_rfl]
      rfl
    rw [hcounts, hlength]
    constructor
    · intro heq
      by_cases hlast : d < front.length
      · -- an axis in between keeps its extent
        refine Or.inl ?_
        have hextent := congrArg (·.getD d 0) heq
        simp only [getD_set_self h, List.getD_append _ _ _ _ hlast] at hextent
        have hfront : 0 < front.getD d 0 := by
          rw [List.getD_eq_getElem _ _ hlast]
          exact hpos _ (List.mem_append_left _ (List.getElem_mem hlast))
        exact (Nat.eq_of_mul_eq_mul_left hfront ((mul_one _).trans hextent)).symm
      · omega
    · intro hcases
      by_cases hlast : d < front.length
      · obtain rfl : r = 1 := by omega
        rw [mul_one, mul_one, set_getD_self]
      · obtain rfl : d = front.length := by omega
        rw [List.getD_append_right _ _ _ _ le_rfl, List.set_append_right _ _ le_rfl, Nat.sub_self]
        rfl

/-- What the call returns has the new shape. -/
theorem shapeInfo_of_repeatNDArray {T : Type} [Zero T] {repeats : List Nat} {array ret : NDArray T}
    (h : repeatNDArray dimension repeats array = .ok ret) :
    ret.shapeInfo.shape = List.zipWith (· * ·) array.shapeInfo.shape
      (repeatCounts array.shapeInfo.rank
        (if dimension < 0 then dimension + array.shapeInfo.rank else dimension) repeats) := by
  unfold repeatNDArray at h
  simp only at h
  split at h
  · cases h
  · generalize repeatCopies _ _ _ _ = copies at h
    cases copies with
    | error failure => cases h
    | ok copies =>
        rw [← Except.ok.inj h]
        exact shape_newShapeInfo 'c' _

theorem dimension_eq (hlow : -(info.rank : Int) ≤ dimension) :
    (if dimension < 0 then dimension + info.rank else dimension) = repeatAxis info dimension := by
  rw [repeatAxis, Int.toNat_of_nonneg]
  split <;> omega

theorem repeatAxis_lt (hlow : -(info.rank : Int) ≤ dimension) (hhigh : dimension < info.rank) :
    repeatAxis info dimension < info.rank := by
  have heq := dimension_eq hlow
  split at heq <;> omega

end Axes

/-! ## Columns -/

section Columns

variable {rows n : Nat}

theorem pos_matrix {a b : Nat} (ha : 0 < a) (hb : 0 < b) : ∀ d ∈ [a, b], 0 < d := by
  intro d hd
  rcases List.mem_cons.mp hd with rfl | hd
  · exact ha
  · exact List.mem_singleton.mp hd ▸ hb

/-- Every row of a dense matrix in C order comes `r` times. -/
theorem repeatNDArray_spec {T : Type} [Zero T] {array : NDArray T} {r : Nat}
    (hshape : array.shapeInfo.shape = [rows, n]) (hpos : array.shapeInfo.Positive)
    (hews : array.shapeInfo.HonestEws) (hdense : Consecutive false array.shapeInfo) (hr : 0 < r) :
    ∃ buffer, repeatNDArray 0 [r] array = .ok ⟨newShapeInfo 'c' [rows * r, n], buffer⟩ ∧
      ∀ q < rows * r, ∀ e < n, buffer (q * n + e : Nat) = array.buffer (q / r * n + e : Nat) := by
  obtain ⟨info, buffer⟩ := array
  have hrows : 0 < rows := hpos rows (hshape ▸ List.mem_cons_self)
  have hn : 0 < n := hpos n (hshape ▸ List.mem_cons_of_mem _ List.mem_cons_self)
  have hrank : info.rank = 2 := by rw [ShapeInfo.rank, hshape]; rfl
  have hfirst : 0 < info.rank := by omega
  have hcounts : List.zipWith (· * ·) info.shape (repeatCounts info.rank ((0 : Nat) : Int) [r]) =
      info.shape.set 0 (info.shape.getD 0 0 * r) := by
    rw [hrank, hshape]
    simp [repeatCounts]
  obtain ⟨cells, hrun, hcells⟩ := @repeatNDArray_cells info 0 T _ 0 r buffer hpos hews hrank.ge
    (by rw [hrank]; decide) hfirst hr rfl hcounts
  have hset : info.shape.set 0 (info.shape.getD 0 0 * r) = [rows * r, n] := by
    rw [hshape]
    rfl
  rw [hset] at hrun hcells
  refine ⟨cells, hrun, fun q hq e he => ?_⟩
  have hrest : info.shape.eraseIdx 0 = [n] := by rw [hshape]; rfl
  have hinner : InBox (info.shape.eraseIdx 0) [e] := by
    rw [hrest]
    exact .cons he .nil
  have hk : q / r < rows := Nat.div_lt_of_lt_mul (Nat.mul_comm rows r ▸ hq)
  have hbox : InBox (newShapeInfo 'c' [rows * r, n]).shape [q, e] := by
    rw [shape_newShapeInfo]
    exact .cons hq (.cons he .nil)
  have hbox' : InBox info.shape [q / r, e] := by
    rw [hshape]
    exact .cons hk (.cons he .nil)
  have hnew := (dense_newShapeInfo (Or.inl rfl) [rows * r, n]).dot_encode hbox
  have hold := hdense.dot_encode hbox'
  have hstart := (startsRight_iff hpos hews hfirst).mpr
    (fun hmany => absurd hmany (by rw [hrank]; decide)) _ (encode_lt hinner)
  have hcell := hcells [e] hinner q (by rw [hshape]; exact hq)
  have hmoved := cell_insertIdx hfirst hinner (q / r)
  rw [decode_encode hinner] at hstart
  rw [element_eq (by exact hbox), hstart, ← hmoved] at hcell
  show cells _ = buffer _
  simp only [List.insertIdx_zero] at hcell
  rw [shape_newShapeInfo] at hnew
  rw [hshape] at hold
  simp only [encode, List.prod_singleton, List.prod_nil, mul_one, add_zero] at hnew hold
  rw [← hnew, ← hold]
  exact hcell

end Columns

end Arrays
end LibND4J
