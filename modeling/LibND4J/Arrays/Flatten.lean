import LibND4J.Arrays.Cells
import LibND4J.Arrays.ConcatTads

/-!
# Flattening an array

`flattenGeneric` writes the elements of an array one after the other in a requested order.  An
array that has this order is walked by its element-wise stride or through decoded coordinates.  Any
other array is cut into the vectors along its first or last axis, each of which is a run of the
result.

Main results:

- Theorem `bijOn_position`: the runs fill the result without gaps.
- Theorem `elementOffset_position`: a run holds the elements of its vector.
- Theorem `flattens_iff`: the result is right exactly if the offsets fit their 32-bit variables
  and the shortcut for whole arrays does not meet an F order.
-/

namespace LibND4J
namespace Arrays

open Loops Shape Stores Strided

/-- The axis along which `flattenGeneric` cuts. -/
def flattenAxis (order : Char) (info : ShapeInfo) : Nat :=
  if order = 'f' then 0 else info.rank - 1

theorem flattenAxis_lt (order : Char) {info : ShapeInfo} (hrank : 0 < info.rank) :
    flattenAxis order info < info.rank := by
  rw [flattenAxis]
  split <;> omega

/-- `cIndexCoordinates`: the coordinates of tensor `i` over the axes behind the first one, and the
divisor that the loop ends with. -/
def cIndexCoordinates (i : Nat) (xShape : List Nat) : List Nat × Nat :=
  xShape.foldr (fun d acc => (i / acc.2 % d :: acc.1, acc.2 * d)) ([], 1)

/-- `fIndex`, with the multiplier that the loop ends with. -/
def fIndex (cIndexCoordinates xShape : List Nat) : Nat × Nat :=
  (cIndexCoordinates.zip xShape).foldl (fun acc q => (acc.1 + q.1 * acc.2, acc.2 * q.2)) (0, 1)

/-- Where the run of tensor `i` begins in the result. -/
def resultOffset (order : Char) (info : ShapeInfo) (i : Nat) : Nat :=
  let tadShape := info.shape.getD (flattenAxis order info) 0
  if order = 'f' then
    (fIndex (cIndexCoordinates i info.shape.tail).1 info.shape.tail).1 * tadShape
  else
    i * tadShape

/-- The cells of step `i` for an array in the requested order, of the result and of the input. -/
def sameOrderCells (order : Char) (resultEleStride : Int) (info : ShapeInfo) (i : Nat) :
    Int × Int :=
  let inputEleStride := info.elementWiseStride
  if resultEleStride = 1 ∧ inputEleStride = 1 then
    (i, i)
  else if resultEleStride ≥ 1 ∧ inputEleStride ≥ 1 then
    (i * resultEleStride, i * inputEleStride)
  else
    let coord := if order = 'f' then ind2sub info.shape i else ind2subC info.shape i
    (i, toInt32 (getOffset 0 info.shape info.stride coord))

/-- The cells of element `j` of tensor `i` for an array in another order. -/
def otherOrderCells (order : Char) (info : ShapeInfo) (hrank : 0 < info.rank) (i j : Nat) :
    Int × Int :=
  let dimension := flattenAxis order info
  let tad := TAD.init info (singleDimension dimension (flattenAxis_lt order hrank))
  let tadOffset := toInt32 (tad.tadOffset i)
  ((resultOffset order info i : Int) + j, tadOffset + j * info.stride.getD dimension 0)

/-- The number of tensors: the product of the other extents. -/
def flattenTads (order : Char) (info : ShapeInfo) : Nat :=
  (info.shape.eraseIdx (flattenAxis order info)).prod

section Definitions

variable {T : Type}

/-- `flattenGeneric`.  The positions and the tensors' elements come in the order of the threads. -/
def flattenGeneric (offset : Int) (order : Char) (result : Int → T) (resultShapeInfo : ShapeInfo)
    (input : Int → T) (inputShapeInfo : ShapeInfo) (hrank : 0 < inputShapeInfo.rank)
    (positions : List Nat) (elements : List (Nat × Nat)) : Int → T :=
  atPointer offset (fun result =>
    if inputShapeInfo.order = order then
      let cells := sameOrderCells order resultShapeInfo.elementWiseStride inputShapeInfo
      storeAll (fun i => (cells i).1) (fun i _ => input (cells i).2) positions result
    else
      let cells := otherOrderCells order inputShapeInfo hrank
      storeAll (fun q => (cells q.1 q.2).1) (fun q _ => input (cells q.1 q.2).2) elements result)
    result

end Definitions

/-! ## The runs -/

section Runs

theorem cIndexCoordinates_eq (i : Nat) (xShape : List Nat) :
    cIndexCoordinates i xShape = (decode xShape (i % xShape.prod), xShape.prod) := by
  induction xShape with
  | nil => rfl
  | cons d ds ih =>
      have hstep : cIndexCoordinates i (d :: ds) =
          (i / (cIndexCoordinates i ds).2 % d :: (cIndexCoordinates i ds).1,
            (cIndexCoordinates i ds).2 * d) := rfl
      rw [hstep, ih, decode_cons, List.prod_cons, mul_comm d, Nat.mod_mul_right_div_self,
        Nat.mod_mul_right_mod]

variable {i j : Nat}

/-- The conversion of an index in C order to one in F order. -/
theorem fIndex_eq {ds : List Nat} (hpos : ∀ d ∈ ds, 0 < d) (hi : i < ds.prod) :
    (fIndex (cIndexCoordinates i ds).1 ds).1 = transposeIndex ds.reverse i := by
  rw [cIndexCoordinates_eq, Nat.mod_eq_of_lt hi, fIndex, foldl_shift (inBox_decode hpos hi)]
  show 0 + 1 * encode ds.reverse (decode ds i).reverse = _
  rw [transposeIndex, decodeF, List.reverse_reverse, zero_add, one_mul]

/-- The conversion is a permutation of the indices. -/
theorem bijOn_transposeIndex {ds : List Nat} (hpos : ∀ d ∈ ds, 0 < d) :
    Set.BijOn (transposeIndex ds) {k | k < ds.prod} {k | k < ds.prod} := by
  refine ⟨fun k hk => transposeIndex_lt hpos hk, fun k hk k' hk' heq => ?_, fun k hk => ?_⟩
  · refine (bijOn_decodeF hpos).injOn hk hk' ?_
    rw [← decode_transposeIndex hpos hk, heq, decode_transposeIndex hpos hk']
  · obtain ⟨i, hi, heq⟩ := (bijOn_decodeF hpos).surjOn ((bijOn_decode hpos).mapsTo hk)
    refine ⟨i, hi, ?_⟩
    rw [transposeIndex, heq, encode_decode hpos hk]

variable {order : Char} {info : ShapeInfo}

/-- Where the runs begin, in whole tensors. -/
def runIndex (order : Char) (info : ShapeInfo) (i : Nat) : Nat :=
  if order = 'f' then transposeIndex info.shape.tail.reverse i else i

theorem resultOffset_eq (hpos : info.Positive) (hi : i < flattenTads order info) :
    resultOffset order info i =
      runIndex order info i * info.shape.getD (flattenAxis order info) 0 := by
  rw [resultOffset, runIndex]
  split
  · next horder =>
      rw [flattenTads, flattenAxis, if_pos horder, List.eraseIdx_zero] at hi
      rw [fIndex_eq (fun d hd => hpos d (List.mem_of_mem_tail hd)) hi]
  · rfl

theorem bijOn_runIndex (hpos : info.Positive) :
    Set.BijOn (runIndex order info) {i | i < flattenTads order info}
      {i | i < flattenTads order info} := by
  by_cases horder : order = 'f'
  · have htail : ∀ d ∈ info.shape.tail.reverse, 0 < d := fun d hd =>
      hpos d (List.mem_of_mem_tail (List.mem_reverse.mp hd))
    have hbij := bijOn_transposeIndex htail
    rw [List.prod_reverse] at hbij
    rw [flattenTads, flattenAxis, if_pos horder, List.eraseIdx_zero]
    refine hbij.congr fun i _ => ?_
    rw [runIndex, if_pos horder]
  · refine (Set.bijOn_id _).congr fun i _ => ?_
    rw [runIndex, if_neg horder]
    rfl

theorem flattenTads_mul (hrank : 0 < info.rank) :
    flattenTads order info * info.shape.getD (flattenAxis order info) 0 = info.length := by
  have hlt := flattenAxis_lt order hrank
  have hmul := (TAD.init info (singleDimension _ hlt)).volume_kept_mul
  rw [kept_init hlt, volume_leftOver_init hlt, volume_cons, volume_nil, mul_one] at hmul
  rw [flattenTads, mul_comm]
  exact hmul

/-- The runs fill the result without gaps. -/
theorem bijOn_position (hpos : info.Positive) (hrank : 0 < info.rank) :
    Set.BijOn (fun q : Nat × Nat => resultOffset order info q.1 + q.2)
      {q | q.1 < flattenTads order info ∧ q.2 < info.shape.getD (flattenAxis order info) 0}
      {k | k < info.length} := by
  have hbij := @bijOn_runIndex order info hpos
  have hmul := @flattenTads_mul order info hrank
  refine ⟨?_, ?_, ?_⟩
  · rintro ⟨i, j⟩ ⟨hi, hj⟩
    have hrun : runIndex order info i + 1 ≤ flattenTads order info := hbij.mapsTo hi
    show resultOffset order info i + j < info.length
    rw [resultOffset_eq hpos hi, ← hmul]
    calc runIndex order info i * info.shape.getD (flattenAxis order info) 0 + j
        < (runIndex order info i + 1) * info.shape.getD (flattenAxis order info) 0 := by
          rw [Nat.succ_mul]
          exact Nat.add_lt_add_left hj _
      _ ≤ _ := Nat.mul_le_mul_right _ hrun
  · rintro ⟨i, j⟩ ⟨hi, hj⟩ ⟨i', j'⟩ ⟨hi', hj'⟩ heq
    simp only [resultOffset_eq hpos hi, resultOffset_eq hpos hi'] at heq
    obtain ⟨hrun, hj⟩ := mul_add_inj hj hj' heq
    exact Prod.ext (hbij.injOn hi hi' hrun) hj
  · intro k hk
    have hpositive : 0 < info.shape.getD (flattenAxis order info) 0 := by
      refine Nat.pos_of_ne_zero fun hzero => ?_
      rw [hzero, Nat.mul_zero] at hmul
      exact absurd (hmul ▸ hk) (Nat.not_lt_zero k)
    obtain ⟨i, hi, hrun⟩ := hbij.surjOn (show k / info.shape.getD (flattenAxis order info) 0 <
      flattenTads order info from (Nat.div_lt_iff_lt_mul hpositive).mpr (hmul.symm ▸ hk))
    refine ⟨(i, k % info.shape.getD (flattenAxis order info) 0), ⟨hi, Nat.mod_lt k hpositive⟩, ?_⟩
    simp only [resultOffset_eq hpos hi, hrun]
    exact Nat.div_add_mod' k _

/-- The first cell of a tensor's elements. -/
def runBase (order : Char) (info : ShapeInfo) (i : Nat) : Int :=
  dot (decode (info.shape.eraseIdx (flattenAxis order info)) i)
    (info.stride.eraseIdx (flattenAxis order info))

theorem runBase_eq (order : Char) (info : ShapeInfo) (i : Nat) :
    runBase order info i = offsetAt (info.axes.eraseIdx (flattenAxis order info)) i := by
  rw [offsetAt_eq_dot, dims_eraseIdx, ← List.eraseIdx_map, info.map_snd_axes, runBase]

/-- An index in C order that is cut at the last axis. -/
theorem offsetAt_last {axes : List (Nat × Int)} (hne : axes ≠ [])
    (hi : i < volume (axes.eraseIdx (axes.length - 1)))
    (hj : j < (axes.getD (axes.length - 1) default).1) :
    offsetAt axes (i * (axes.getD (axes.length - 1) default).1 + j) =
      offsetAt (axes.eraseIdx (axes.length - 1)) i +
        j * (axes.getD (axes.length - 1) default).2 := by
  obtain rfl | ⟨front, a, rfl⟩ := List.eq_nil_or_concat' axes
  · exact absurd rfl hne
  have hlast : (front ++ [a]).getD ((front ++ [a]).length - 1) default = a := by simp
  rw [List.eraseIdx_length_sub_one, List.dropLast_concat] at hi ⊢
  rw [hlast] at hj ⊢
  have hvolume : volume [a] = a.1 := by rw [volume_cons, volume_nil, mul_one]
  have hpos : 0 < a.1 := Nat.zero_lt_of_lt hj
  have hk : i * a.1 + j < volume front * volume [a] := by
    rw [hvolume]
    calc i * a.1 + j < (i + 1) * a.1 := by rw [Nat.succ_mul]; exact Nat.add_lt_add_left hj _
      _ ≤ volume front * a.1 := Nat.mul_le_mul_right _ hi
  rw [offsetAt_append _ _ hk, hvolume, Nat.add_comm, Nat.add_mul_div_right _ _ hpos,
    Nat.div_eq_of_lt hj, Nat.zero_add, Nat.add_mul_mod_self_right, Nat.mod_eq_of_lt hj,
    offsetAt_cons, volume_nil, Nat.div_one, Nat.mod_one, offsetAt_zero, add_zero, nsmul_eq_mul]

/-- An index in F order that is cut at the first axis. -/
theorem offsetAtF_first {axes : List (Nat × Int)} (hpos : ∀ d ∈ dims axes, 0 < d) (hne : axes ≠ [])
    (hi : i < volume (axes.eraseIdx 0)) (hj : j < (axes.getD 0 default).1) :
    offsetAtF axes (transposeIndex (dims axes).tail.reverse i * (axes.getD 0 default).1 + j) =
      offsetAt (axes.eraseIdx 0) i + j * (axes.getD 0 default).2 := by
  obtain ⟨a, rest, rfl⟩ := List.exists_cons_of_ne_nil hne
  change i < volume rest at hi
  change j < a.1 at hj
  show offsetAtF (a :: rest) (transposeIndex (dims rest).reverse i * a.1 + j) =
    offsetAt rest i + j * a.2
  have hrest : ∀ d ∈ dims rest, 0 < d := fun d hd => hpos d (List.mem_cons_of_mem _ hd)
  have hlt : transposeIndex (dims rest).reverse i < volume rest := by
    have hbound := @transposeIndex_lt (dims rest).reverse
      (fun d hd => hrest d (List.mem_reverse.mp hd)) i
    rw [List.prod_reverse] at hbound
    exact hbound hi
  have hk : transposeIndex (dims rest).reverse i * a.1 + j < a.1 * volume rest := by
    calc transposeIndex (dims rest).reverse i * a.1 + j
        < (transposeIndex (dims rest).reverse i + 1) * a.1 := by
          rw [Nat.succ_mul]
          exact Nat.add_lt_add_left hj _
      _ ≤ volume rest * a.1 := Nat.mul_le_mul_right _ hlt
      _ = a.1 * volume rest := mul_comm _ _
  rw [offsetAtF_cons a rest hk, Nat.add_comm (_ * a.1), Nat.add_mul_mod_self_right,
    Nat.mod_eq_of_lt hj, Nat.add_mul_div_right _ _ (Nat.zero_lt_of_lt hj), Nat.div_eq_of_lt hj,
    Nat.zero_add, offsetAtF_eq_dot rest hlt, decodeF_transposeIndex hrest hi, offsetAt_eq_dot,
    nsmul_eq_mul, add_comm]

/-- A run holds the elements of its vector, in the requested order. -/
theorem elementOffset_position (hpos : info.Positive) (hrank : 0 < info.rank)
    (hi : i < flattenTads order info) (hj : j < info.shape.getD (flattenAxis order info) 0) :
    elementOffset (order = 'f') info.axes (resultOffset order info i + j) =
      runBase order info i + j * info.stride.getD (flattenAxis order info) 0 := by
  have hk : resultOffset order info i + j < volume info.axes := by
    rw [info.volume_axes]
    exact (bijOn_position hpos hrank).mapsTo (show (i, j) ∈ _ from ⟨hi, hj⟩)
  have haxis := getD_axes info (flattenAxis order info)
  have hvolume : volume (info.axes.eraseIdx (flattenAxis order info)) = flattenTads order info := by
    rw [volume, dims_eraseIdx, flattenTads]
  have hne : info.axes ≠ [] := by
    rw [← List.length_pos_iff, info.length_axes]
    exact hrank
  have hj' : j < (info.axes.getD (flattenAxis order info) default).1 := by rwa [haxis]
  rw [elementOffset_eq_ite _ _ hk, runBase_eq, resultOffset_eq hpos hi, runIndex]
  by_cases horder : order = 'f'
  · rw [← hvolume] at hi
    rw [flattenAxis, if_pos horder] at hi hj' haxis ⊢
    have hfirst := offsetAtF_first (by rwa [info.dims_axes]) hne hi hj'
    rw [info.dims_axes, haxis] at hfirst
    simpa only [horder, decide_true, if_true] using hfirst
  · rw [← hvolume] at hi
    rw [flattenAxis, if_neg horder, ← info.length_axes] at hi hj' haxis ⊢
    have hlast := offsetAt_last hne hi hj'
    rw [haxis] at hlast
    simpa only [horder, decide_false, if_false, Bool.false_eq_true] using hlast

end Runs

/-! ## The copies -/

section Copies

variable {order : Char} {resultShapeInfo info : ShapeInfo}

/-- A loop behind a pointer, with a cell of its own for each step, fills the first cells and touches
nothing else, in whatever order the steps come, exactly if some step brings each element. -/
theorem fills_iff {ι : Type} {cell source : ι → Int} {steps : List ι} {n : Nat}
    {element : Nat → Int} (hcells : ∀ v ∈ steps, ∀ w ∈ steps, cell v = cell w → v = w)
    (hbounds : ∀ v ∈ steps, ∃ k < n, cell v = (k : Nat)) :
    (∀ (T : Type) (input result : Int → T) (offset : Int) (schedule : List ι),
      schedule.Perm steps →
      (∀ k < n, atPointer offset (storeAll cell (fun v _ => input (source v)) schedule) result
        (offset + k) = input (element k)) ∧
      ∀ i, (∀ k < n, i ≠ offset + (k : Nat)) →
        atPointer offset (storeAll cell (fun v _ => input (source v)) schedule) result i =
          result i) ↔
      ∀ k < n, ∃ v ∈ steps, cell v = (k : Nat) ∧ source v = element k := by
  constructor
  · intro h k hk
    refine exists_of_copies fun x z => ?_
    have hfilled := (h Bool x z 0 steps (List.Perm.refl _)).1 k hk
    rw [atPointer_apply] at hfilled
    simpa only [zero_add] using hfilled
  · intro h T input result offset schedule hperm
    refine ⟨fun k hk => ?_, fun i hi => ?_⟩
    · obtain ⟨v, hv, hcell, hsource⟩ := h k hk
      rw [atPointer_apply]
      refine storeAll_of_agree ⟨v, hperm.mem_iff.mpr hv, hcell⟩ (fun w hw hcell' _ => ?_) _
      rw [hcells w (hperm.mem_iff.mp hw) v hv (hcell'.trans hcell.symm), hsource]
    · have heq : i = offset + (i - offset) := by omega
      rw [heq, atPointer_apply]
      refine storeAll_of_not_written (fun v hv hcell => ?_) _
      obtain ⟨k, hk, hbound⟩ := hbounds v (hperm.mem_iff.mp hv)
      exact hi k hk (by omega)

/-- `flattenGeneric` writes the elements in the requested order behind the offset and nothing else,
for all contents and schedules. -/
def Flattens (order : Char) (resultShapeInfo info : ShapeInfo) (hrank : 0 < info.rank) : Prop :=
  ∀ (T : Type) (input result : Int → T) (offset : Int) (positions : List Nat)
    (elements : List (Nat × Nat)),
    positions.Perm (List.range (intLength info)) →
    elements.Perm (List.range (flattenTads order info) ×ˢ
      List.range (info.shape.getD (flattenAxis order info) 0)) →
    (∀ k < info.length, flattenGeneric offset order result resultShapeInfo input info hrank
      positions elements (offset + k) = input (elementOffset (order = 'f') info.axes k)) ∧
    ∀ i, (∀ k < info.length, i ≠ offset + (k : Nat)) →
      flattenGeneric offset order result resultShapeInfo input info hrank positions elements i =
        result i

/-- What is kept in an `int` fits. -/
def FlattenFits (order : Char) (info : ShapeInfo) : Prop :=
  if info.order = order then
    info.length < 2 ^ 31 ∧ (info.elementWiseStride ≥ 1 ∨ ∀ k < info.length,
      toInt32 (elementOffset (order = 'f') info.axes k) = elementOffset (order = 'f') info.axes k)
  else
    ∀ i < flattenTads order info, toInt32 (runBase order info i) = runBase order info i

/-- The tensors are numbered in C order: the shortcut for whole arrays, which numbers tensors of one
element by their place in memory, does not meet an F order. -/
def NumbersInC (order : Char) (info : ShapeInfo) : Prop :=
  2 < info.rank → info.shape.getD (flattenAxis order info) 0 = 1 → info.elementWiseStride = 1 →
    info.isFOrder = false ∨ (squeeze (info.axes.eraseIdx (flattenAxis order info))).length ≤ 1

instance (order : Char) (info : ShapeInfo) : Decidable (NumbersInC order info) :=
  inferInstanceAs (Decidable (_ → _ → _ → _))

theorem sameOrderCells_eq (hresult : resultShapeInfo.elementWiseStride = 1)
    (hsame : info.order = order) (hpos : info.Positive) (hews : info.HonestEws) {i : Nat}
    (hi : i < info.length) :
    sameOrderCells order resultShapeInfo.elementWiseStride info i =
      ((i : Int), if info.elementWiseStride ≥ 1 then elementOffset (order = 'f') info.axes i
        else toInt32 (elementOffset (order = 'f') info.axes i)) := by
  have horder : info.isFOrder = decide (order = 'f') := by rw [ShapeInfo.isFOrder, hsame]
  rw [hresult, sameOrderCells]
  by_cases hslot : info.elementWiseStride ≥ 1
  · have hcell := hews hslot i hi
    rw [horder] at hcell
    rw [if_pos hslot, hcell]
    by_cases hone : info.elementWiseStride = 1
    · rw [if_pos ⟨rfl, hone⟩, hone, mul_one]
    · rw [if_neg (fun h => hone h.2), if_pos ⟨le_refl 1, hslot⟩, mul_one]
  · have hone : info.elementWiseStride ≠ 1 := fun h => hslot h.ge
    rw [if_neg (fun h => hone h.2), if_neg (fun h => hslot h.2), if_neg hslot]
    by_cases hf : order = 'f'
    · simp only [if_pos hf, getOffset_ind2sub_eq hpos hi, zero_add, decide_eq_true hf]
    · simp only [if_neg hf, getOffset_ind2subC hpos hi, zero_add, decide_eq_false hf]
      rw [elementOffset_eq_ite _ _ (by rwa [info.volume_axes])]
      rfl

/-- An array in the requested order. -/
theorem flattens_same_iff (hrank : 0 < info.rank) (hpos : info.Positive) (hews : info.HonestEws)
    (hresult : resultShapeInfo.elementWiseStride = 1) (hsame : info.order = order) :
    Flattens order resultShapeInfo info hrank ↔ FlattenFits order info := by
  have hcells : ∀ i < info.length,
      (sameOrderCells order resultShapeInfo.elementWiseStride info i).1 = i := fun i hi => by
    rw [sameOrderCells_eq hresult hsame hpos hews hi]
  have hlt : ∀ i ∈ List.range (intLength info), i < info.length := fun i hi =>
    (List.mem_range.mp hi).trans_le (intLength_le info)
  have hiff : Flattens order resultShapeInfo info hrank ↔
      ∀ k < info.length, ∃ i ∈ List.range (intLength info),
        (sameOrderCells order resultShapeInfo.elementWiseStride info i).1 = k ∧
        (sameOrderCells order resultShapeInfo.elementWiseStride info i).2 =
          elementOffset (order = 'f') info.axes k := by
    rw [← fills_iff]
    · simp only [Flattens, flattenGeneric, if_pos hsame]
      exact ⟨fun h T input result offset schedule hperm =>
          h T input result offset schedule _ hperm (List.Perm.refl _),
        fun h T input result offset positions _ hperm _ =>
          h T input result offset positions hperm⟩
    · intro v hv w hw heq
      rw [hcells v (hlt v hv), hcells w (hlt w hw)] at heq
      exact Nat.cast_injective heq
    · intro v hv
      exact ⟨v, hlt v hv, hcells v (hlt v hv)⟩
  have hstep : ∀ k < info.length, (∃ i ∈ List.range (intLength info),
        (sameOrderCells order resultShapeInfo.elementWiseStride info i).1 = k ∧
        (sameOrderCells order resultShapeInfo.elementWiseStride info i).2 =
          elementOffset (order = 'f') info.axes k) ↔
      k < intLength info ∧ (info.elementWiseStride ≥ 1 ∨
        toInt32 (elementOffset (order = 'f') info.axes k) =
          elementOffset (order = 'f') info.axes k) := by
    intro k hk
    have hsource : (sameOrderCells order resultShapeInfo.elementWiseStride info k).2 =
        elementOffset (order = 'f') info.axes k ↔ info.elementWiseStride ≥ 1 ∨
          toInt32 (elementOffset (order = 'f') info.axes k) =
            elementOffset (order = 'f') info.axes k := by
      rw [sameOrderCells_eq hresult hsame hpos hews hk]
      by_cases hslot : info.elementWiseStride ≥ 1
      · rw [if_pos hslot]
        exact iff_of_true rfl (Or.inl hslot)
      · rw [if_neg hslot, or_iff_right hslot]
    constructor
    · rintro ⟨i, hi, hcell, heq⟩
      rw [hcells i (hlt i hi)] at hcell
      obtain rfl : i = k := Nat.cast_injective hcell
      exact ⟨List.mem_range.mp hi, hsource.mp heq⟩
    · rintro ⟨hi, heq⟩
      exact ⟨k, List.mem_range.mpr hi, hcells k hk, hsource.mpr heq⟩
  rw [hiff, forall₂_congr hstep, FlattenFits, if_pos hsame, ← le_intLength_iff]
  constructor
  · intro h
    refine ⟨not_lt.mp fun hshort => Nat.lt_irrefl _ (h (intLength info) hshort).1, ?_⟩
    by_cases hslot : info.elementWiseStride ≥ 1
    · exact Or.inl hslot
    · exact Or.inr fun k hk => (h k hk).2.resolve_left hslot
  · rintro ⟨hlength, hfits⟩ k hk
    exact ⟨hk.trans_le hlength, hfits.imp id fun h => h k hk⟩

/-- The offsets of the tensors, narrowed, are the right ones exactly if these fit and the tensors
are numbered in C order. -/
theorem narrowed_iff (hrank : 0 < info.rank) (hpos : info.Positive) (hews : info.HonestEws) :
    (∀ i < flattenTads order info, toInt32 ((TAD.init info (singleDimension (flattenAxis order info)
        (flattenAxis_lt order hrank))).tadOffset i) = runBase order info i) ↔
      (∀ i < flattenTads order info, toInt32 (runBase order info i) = runBase order info i) ∧
        NumbersInC order info := by
  have hlt := flattenAxis_lt order hrank
  have hnum := numTads_single hpos hlt
  have hstarts : (∀ i < flattenTads order info, (TAD.init info (singleDimension
      (flattenAxis order info) hlt)).tadOffset i = runBase order info i) ↔
      NumbersInC order info := by
    rw [NumbersInC, ← createOffsets_single_iff hpos hews hlt]
    refine forall₂_congr fun i hi => ?_
    rw [getD_createOffsets _ (hnum.symm ▸ hi)]
    rfl
  rw [← hstarts]
  constructor
  · intro h
    have hfits : ∀ i < flattenTads order info,
        toInt32 (runBase order info i) = runBase order info i := fun i hi => by
      rw [← h i hi, toInt32, toInt32, Int.bmod_bmod]
    refine ⟨hfits, fun i hi => ?_⟩
    have hvolume := volume_leftOver_init hlt
    cases hwhole : (TAD.init info (singleDimension (flattenAxis order info) hlt)).wholeThing with
    | true =>
        have hindex : ∀ t, (TAD.init info (singleDimension (flattenAxis order info) hlt)).tadOffset
            t = t := fun t => by rw [TAD.tadOffset, if_pos hwhole]
        have hsmall : toInt32 i = i := by
          by_cases hproper : 1 < info.rank
          · -- the numbers are the offsets of all tensors in some order
            obtain ⟨u, hbij, hbase⟩ := @offsets_of_wholeThing info (singleDimension _ hlt) hpos hews
              hproper hwhole
            have hu := hbij.mapsTo (show i < volume _ from hvolume.symm ▸ hi)
            obtain ⟨t, ht, heq⟩ :=
              ((TAD.init info (singleDimension _ hlt)).bijOn_decode_leftOver hpos).surjOn hu
            have ht : t < flattenTads order info := ht.trans_eq hvolume
            have hcell : runBase order info t = i := by
              rw [runBase, ← base_singleDimension hlt, ← hindex i,
                hbase i (hvolume.symm ▸ hi), ← heq]
              rfl
            have hfit := hfits t ht
            rwa [hcell] at hfit
          · have hlength : (info.shape.eraseIdx (flattenAxis order info)).length = 0 := by
              rw [List.length_eraseIdx_of_lt hlt]
              exact Nat.sub_eq_zero_of_le (Nat.not_lt.mp hproper)
            rw [flattenTads, List.eq_nil_of_length_eq_zero hlength, List.prod_nil] at hi
            rw [Nat.lt_one_iff.mp hi]
            rfl
        rw [hindex, ← hsmall, ← hindex i, h i hi]
    | false =>
        rw [tadOffset_of_not_wholeThing hpos hwhole (hvolume.symm ▸ hi)]
        exact base_singleDimension hlt i
  · rintro ⟨hfits, hright⟩ i hi
    rw [hright i hi, hfits i hi]

/-- An array in another order. -/
theorem flattens_other_iff (hrank : 0 < info.rank) (hpos : info.Positive) (hews : info.HonestEws)
    (hother : info.order ≠ order) :
    Flattens order resultShapeInfo info hrank ↔
      FlattenFits order info ∧ NumbersInC order info := by
  have hbij := @bijOn_position order info hpos hrank
  have hmem : ∀ {i j : Nat}, (i, j) ∈ List.range (flattenTads order info) ×ˢ
      List.range (info.shape.getD (flattenAxis order info) 0) ↔
      i < flattenTads order info ∧ j < info.shape.getD (flattenAxis order info) 0 := by
    intro i j
    rw [← List.mem_range, ← List.mem_range]
    exact List.pair_mem_product
  have hcast : ∀ i j : Nat, (otherOrderCells order info hrank i j).1 =
      (resultOffset order info i + j : Nat) := fun i j => (Nat.cast_add _ _).symm
  have hcells : ∀ v ∈ List.range (flattenTads order info) ×ˢ
      List.range (info.shape.getD (flattenAxis order info) 0),
      ∀ w ∈ List.range (flattenTads order info) ×ˢ
        List.range (info.shape.getD (flattenAxis order info) 0),
      (otherOrderCells order info hrank v.1 v.2).1 = (otherOrderCells order info hrank w.1 w.2).1 →
      v = w := by
    rintro ⟨i, j⟩ hq ⟨i', j'⟩ hq' heq
    rw [hcast, hcast, Nat.cast_inj] at heq
    exact hbij.injOn (hmem.mp hq) (hmem.mp hq') heq
  have hbounds : ∀ v ∈ List.range (flattenTads order info) ×ˢ
      List.range (info.shape.getD (flattenAxis order info) 0),
      ∃ k < info.length, (otherOrderCells order info hrank v.1 v.2).1 = (k : Nat) := by
    rintro ⟨i, j⟩ hq
    have hlt : resultOffset order info i + j < info.length :=
      hbij.mapsTo (show (i, j) ∈ _ from hmem.mp hq)
    exact ⟨_, hlt, hcast i j⟩
  have hfills := @fills_iff _ _ (fun q => (otherOrderCells order info hrank q.1 q.2).2) _ _
    (fun k => elementOffset (order = 'f') info.axes k) hcells hbounds
  have hiff : Flattens order resultShapeInfo info hrank ↔
      ∀ k < info.length, ∃ q ∈ List.range (flattenTads order info) ×ˢ
        List.range (info.shape.getD (flattenAxis order info) 0),
        (otherOrderCells order info hrank q.1 q.2).1 = k ∧
        (otherOrderCells order info hrank q.1 q.2).2 =
          elementOffset (order = 'f') info.axes k := by
    rw [← hfills]
    simp only [Flattens, flattenGeneric, if_neg hother]
    exact ⟨fun h T input result offset schedule hperm =>
        h T input result offset _ schedule (List.Perm.refl _) hperm,
      fun h T input result offset _ elements _ hperm =>
        h T input result offset elements hperm⟩
  rw [hiff, FlattenFits, if_neg hother, ← narrowed_iff hrank hpos hews]
  have hextent : 0 < info.shape.getD (flattenAxis order info) 0 := by
    have hlt : flattenAxis order info < info.shape.length := flattenAxis_lt order hrank
    rw [List.getD_eq_getElem?_getD, List.getElem?_eq_getElem hlt]
    exact hpos _ (List.getElem_mem hlt)
  constructor
  · intro h i hi
    have hstart : (i, 0) ∈ {q : Nat × Nat | q.1 < flattenTads order info ∧
        q.2 < info.shape.getD (flattenAxis order info) 0} := ⟨hi, hextent⟩
    obtain ⟨⟨i', j'⟩, hq, hcell, hsource⟩ := h _ (hbij.mapsTo hstart)
    rw [hcast, Nat.cast_inj] at hcell
    have heq := hbij.injOn (hmem.mp hq) hstart hcell
    rw [Prod.mk.injEq] at heq
    obtain ⟨rfl, rfl⟩ := heq
    rw [elementOffset_position hpos hrank hi hextent] at hsource
    simpa only [otherOrderCells, Nat.cast_zero, zero_mul, add_zero] using hsource
  · intro h k hk
    obtain ⟨⟨i, j⟩, ⟨hi, hj⟩, rfl⟩ := hbij.surjOn hk
    refine ⟨(i, j), hmem.mpr ⟨hi, hj⟩, hcast i j, ?_⟩
    rw [elementOffset_position hpos hrank hi hj, ← h i hi]
    rfl

/-- The elements are written in the requested order exactly if everything kept in an `int` fits and
an array in another order has its tensors numbered in C order. -/
theorem flattens_iff (order : Char) (hrank : 0 < info.rank) (hpos : info.Positive)
    (hews : info.HonestEws) (hresult : resultShapeInfo.elementWiseStride = 1) :
    Flattens order resultShapeInfo info hrank ↔
      FlattenFits order info ∧ (info.order = order ∨ NumbersInC order info) := by
  by_cases hsame : info.order = order
  · rw [flattens_same_iff hrank hpos hews hresult hsame, and_iff_left (Or.inl hsame)]
  · rw [flattens_other_iff hrank hpos hews hsame, or_iff_right hsame]

/-- Two matrices of two rows, one behind the other, with a last axis of extent one in F order. -/
def fortranColumns : ShapeInfo :=
  ShapeInfo.ofAxes [(2, 1), (2, 2), (1, 4)] 0 1 'f'

/-- Room for four elements. -/
def fourCells : ShapeInfo :=
  ShapeInfo.ofAxes [(1, 1), (4, 1)] 0 1 'c'

theorem flattens_iff_fortranColumns :
    Flattens 'c' fourCells fortranColumns (by decide) ↔ FlattenFits 'c' fortranColumns ∧
      (fortranColumns.order = 'c' ∨ NumbersInC 'c' fortranColumns) :=
  flattens_iff 'c' (by decide) (by decide) (by decide) rfl

/-- The elements stay in F order, as they lie in memory. -/
theorem not_flattens_always :
    ¬ ∀ (order : Char) (resultShapeInfo info : ShapeInfo) (hrank : 0 < info.rank), info.Positive →
      info.HonestEws → resultShapeInfo.elementWiseStride = 1 →
      Flattens order resultShapeInfo info hrank := by
  intro h
  have hflattens := h 'c' fourCells fortranColumns (by decide) (by decide) (by decide) rfl
  rw [flattens_other_iff (by decide) (by decide) (by decide) (by decide)] at hflattens
  exact absurd hflattens.2 (by decide)

end Copies

end Arrays
end LibND4J
