import LibND4J.Loops.PairwiseTransform
import LibND4J.Shape.SingleTad
import LibND4J.Shape.TadOffset
import LibND4J.Shape.WholeTad

/-!
# Broadcasting along dimensions

`Broadcast::exec` combines every tensor of an array along some dimensions with one
other array.  `NDArray::applyBroadcast` hands it the tensors of the array itself for
the target as well, whatever the strides of the target are.

As for the pairwise transforms, the model lists the addresses that each application of the
operation reads and writes; the tensors are run in any order.

Main results:

- Theorems `writesBroadcast_of_visits` and `visits_of_writesBroadcast`: which
  visits combine the right elements into the right cells, for all contents of the buffers.
- Theorem `broadcasts_iff`: the layouts of the three arrays for which a broadcast is
  right.
-/

namespace LibND4J
namespace Loops

open Strided Shape Selection

/-! ## The loops -/

/-- The loops over one tensor. -/
def broadcastTad (tadShapeInfo tadShapeInfoZ yShapeInfo : ShapeInfo)
    (dimensionLength tadLength : Nat) (offset offsetZ : Int) : List Visit :=
  let tadEWS := tadShapeInfo.elementWiseStride
  let yStride := yShapeInfo.elementWiseStride
  let zEWS := tadShapeInfoZ.elementWiseStride
  if tadEWS > 0 ∧ yStride > 0 ∧ zEWS > 0 ∧ dimensionLength = 1 then
    (List.range tadLength).map fun (f : Nat) =>
      if tadEWS = 1 ∧ yStride = 1 ∧ zEWS = 1 then
        (offset + f, (f : Int), offsetZ + f)
      else
        (offset + f * tadEWS, f * yStride, offsetZ + f * zEWS)
  else
    (List.range tadLength).map fun f =>
      let (xCoord, yCoord) :=
        if tadShapeInfo.order = 'c' then
          (ind2subC tadShapeInfo.shape f, ind2subC yShapeInfo.shape f)
        else
          (ind2sub tadShapeInfo.shape f, ind2sub yShapeInfo.shape f)
      let zCoord :=
        if tadShapeInfoZ.order = 'c' then ind2subC tadShapeInfoZ.shape f
        else ind2sub tadShapeInfoZ.shape f
      (getOffset offset tadShapeInfo.shape tadShapeInfo.stride xCoord,
        getOffset 0 yShapeInfo.shape yShapeInfo.stride yCoord,
        getOffset offsetZ tadShapeInfoZ.shape tadShapeInfoZ.stride zCoord)

/-- `Broadcast::exec`: the visits of each tensor. -/
def broadcastExec (xShapeInfo yShapeInfo : ShapeInfo) (dimension : Dimensions xShapeInfo.rank)
    (tadShapeInfo : ShapeInfo) (tadOffset : List Int) (tadShapeInfoZ : ShapeInfo)
    (tadOffsetZ : List Int) : List (List Visit) :=
  let tadLength := Shape.tadLength xShapeInfo.shape dimension.toList
  let tads := xShapeInfo.length / tadLength
  (List.range tads).map fun i =>
    broadcastTad tadShapeInfo tadShapeInfoZ yShapeInfo dimension.toList.length tadLength
      (tadOffset.getD i 0) (tadOffsetZ.getD i 0)

/-- Distinct axes in any order. -/
structure AxisList (rank : Nat) where
  toList : List Nat
  nodup : toList.Nodup
  lt_rank : ∀ d ∈ toList, d < rank

theorem nodup_one : [1].Nodup :=
  List.nodup_singleton 1

/-- Sorting a list of axes. -/
def AxisList.sort {rank : Nat} (axes : AxisList rank) (hne : axes.toList ≠ []) :
    Dimensions rank where
  toList := if axes.toList.length > 1 then axes.toList.insertionSort (· ≤ ·) else axes.toList
  ne_nil := by
    split
    · intro hnil
      have hlen := List.length_insertionSort (· ≤ ·) axes.toList
      rw [hnil] at hlen
      exact hne (List.eq_nil_of_length_eq_zero hlen.symm)
    · exact hne
  sorted := by
    split
    · have hsorted := List.pairwise_insertionSort (· ≤ ·) axes.toList
      have hdistinct := (List.perm_insertionSort (· ≤ ·) axes.toList).nodup_iff.mpr axes.nodup
      exact hsorted.imp₂ (fun a b hle hne => lt_of_le_of_ne hle hne) hdistinct
    · rename_i hshort
      match axes.toList, hshort with
      | [], _ => exact List.Pairwise.nil
      | [d], _ => exact List.pairwise_singleton _ d
      | d :: e :: rest, hshort => simp at hshort
  lt_rank := by
    intro d hd
    split at hd
    · exact axes.lt_rank d ((List.mem_insertionSort _).mp hd)
    · exact axes.lt_rank d hd

/-- `NDArray::applyBroadcast`; without axes it returns at once.  `none` is passed on from the
slices. -/
def applyBroadcast (shapeInfo : ShapeInfo) (dimensions : AxisList shapeInfo.rank)
    (tadArray : ShapeInfo) : Except String (Option (List (List Visit))) :=
  if hne : dimensions.toList = [] then
    .ok (some [])
  else
    let copy := dimensions.sort hne
    let tadLength := Shape.tadLength shapeInfo.shape copy.toList
    if tadLength ≠ tadArray.length then
      .error "Tad length mismatch"
    else
      let tad := TAD.init shapeInfo copy
      .ok (tad.shapeInfoOnlyShapeAndStride.map fun tadOnlyShapeInfo =>
        broadcastExec shapeInfo tadArray copy tadOnlyShapeInfo tad.createOffsets tadOnlyShapeInfo
          tad.createOffsets)

/-! ## Row vectors -/

/-- The second axis of a matrix. -/
def columnsAxis {rank : Nat} (hrank : rank = 2) : AxisList rank where
  toList := [1]
  nodup := nodup_one
  lt_rank := by
    intro d hd
    rw [List.mem_singleton.mp hd, hrank]
    exact Nat.one_lt_two

/-- `NDArray::isRowVector`. -/
def isRowVectorArray (info : ShapeInfo) : Bool :=
  ¬ isScalar info ∧ isRowVector info

/-- Combine every row of a matrix with a row vector. -/
def rowVector (opNum : Nat) (message : String) (shapeInfo row target : ShapeInfo) :
    Except String (Nat × Option (List (List Visit))) :=
  if h : shapeInfo.rank ≠ 2 ∨ target.rank ≠ 2 ∨
      shapeInfo.shape.getD 0 0 ≠ target.shape.getD 0 0 ∨
      shapeInfo.shape.getD 1 0 ≠ target.shape.getD 1 0 ∨ ¬ isRowVectorArray row ∨
      shapeInfo.shape.getD 1 0 ≠ row.shape.getD 1 0 then
    .error message
  else
    have hrank : shapeInfo.rank = 2 := not_not.mp fun hne => h (Or.inl hne)
    let dimension := (columnsAxis hrank).sort (one_ne_nil)
    let tad := TAD.init shapeInfo dimension
    .ok (opNum, tad.shapeInfoOnlyShapeAndStride.map fun tadOnlyShapeInfo =>
      broadcastExec shapeInfo row dimension tadOnlyShapeInfo tad.createOffsets tadOnlyShapeInfo
        tad.createOffsets)

/-- `NDArray::addRowVector`. -/
def addRowVector (shapeInfo row target : ShapeInfo) :
    Except String (Nat × Option (List (List Visit))) :=
  rowVector 0 "NDArray::addRowVector: wrong arguments !" shapeInfo row target

/-- `NDArray::subRowVector`. -/
def subRowVector (shapeInfo row target : ShapeInfo) :
    Except String (Nat × Option (List (List Visit))) :=
  rowVector 1 "NDArray::subRowVector: wrong arguments !" shapeInfo row target

/-- `NDArray::mulRowVector`; its error names the division. -/
def mulRowVector (shapeInfo row target : ShapeInfo) :
    Except String (Nat × Option (List (List Visit))) :=
  rowVector 2 "NDArray::divRowVector: wrong arguments !" shapeInfo row target

/-- `NDArray::divRowVector`. -/
def divRowVector (shapeInfo row target : ShapeInfo) :
    Except String (Nat × Option (List (List Visit))) :=
  rowVector 3 "NDArray::divRowVector: wrong arguments !" shapeInfo row target

/-- The first four of the `BROADCAST_OPS`. -/
def broadcastOp {T : Type} [Field T] (opNum : Nat) : Option (T → T → T) :=
  match opNum with
  | 0 => some fun d1 d2 => d1 + d2
  | 1 => some fun d1 d2 => d1 - d2
  | 2 => some fun d1 d2 => d1 * d2
  | 3 => some fun d1 d2 => d1 / d2
  | _ => none

/-! ## What a broadcast means -/

/-- The entries at the chosen axes. -/
def AxisList.kept {α : Type} {rank : Nat} (axes : AxisList rank) (data : List α) : List α :=
  pick (fun i => decide (i ∈ axes.toList)) 0 data

/-- The offset in `y` of the element that belongs to a coordinate: its part at the chosen
axes, in C order. -/
def broadcastOffset (x y : ShapeInfo) (axes : AxisList x.rank) (coords : List Nat) : Int :=
  offsetAt y.axes (encode (axes.kept x.shape) (axes.kept coords))

/-- Perform the visits of a schedule one after the other.  In place, the first operand is
read from the target itself. -/
def runBroadcast {T : Type} (op : T → T → T) (inPlace : Bool) (x y : Int → T)
    (schedule : List Visit) (target : Int → T) : Int → T :=
  Stores.storeAll (fun v : Visit => v.2.2)
    (fun v m => op (if inPlace then m v.1 else x v.1) (y v.2.1)) schedule target

/-- Every schedule of the work combines each element of `x` with the element of `y` that
belongs to its coordinate, and keeps every other cell of the target. -/
def WritesBroadcast {T : Type} (op : T → T → T) (x y z : ShapeInfo) (axes : AxisList x.rank)
    (inPlace : Bool) (work : List (List Visit)) : Prop :=
  ∀ schedule : List Visit, schedule.Perm work.flatten →
    ∀ xs ys zs : Int → T, (inPlace → zs = xs) →
      (∀ c, InBox x.shape c → runBroadcast op inPlace xs ys schedule zs (dot c z.stride) =
        op (xs (dot c x.stride)) (ys (broadcastOffset x y axes c))) ∧
      ∀ cell, (∀ c, InBox x.shape c → cell ≠ dot c z.stride) →
        runBroadcast op inPlace xs ys schedule zs cell = zs cell

/-- The visits read and write one place of both arrays, they are those of the coordinates,
and no cell is visited twice in place. -/
structure VisitsBroadcast (x y z : ShapeInfo) (axes : AxisList x.rank) (inPlace : Bool)
    (visits : List Visit) : Prop where
  target_eq : ∀ c, InBox x.shape c → dot c z.stride = dot c x.stride
  sound : ∀ v ∈ visits, ∃ c, InBox x.shape c ∧ dot c x.stride = v.1
  complete : ∀ c, InBox x.shape c → ∃ v ∈ visits, dot c x.stride = v.1
  reads : ∀ v ∈ visits, ∀ c, InBox x.shape c → dot c x.stride = v.1 →
    v.2.1 = broadcastOffset x y axes c
  once : inPlace → (visits.map Prod.fst).Nodup

section Visits

variable {x y z : ShapeInfo} {axes : AxisList x.rank} {inPlace : Bool} {work : List (List Visit)}

/-- Visits of the coordinates combine the right elements. -/
theorem writesBroadcast_of_visits (hsame : ∀ v ∈ work.flatten, v.2.2 = v.1)
    (h : VisitsBroadcast x y z axes inPlace work.flatten) {T : Type} (op : T → T → T) :
    WritesBroadcast op x y z axes inPlace work := by
  intro schedule hschedule xs ys zs hplace
  have hmem : ∀ v, v ∈ schedule ↔ v ∈ work.flatten := fun v => hschedule.mem_iff
  constructor
  · intro c hc
    obtain ⟨v, hv, hcell⟩ := h.complete c hc
    have hwrite : v.2.2 = dot c z.stride := by rw [hsame v hv, h.target_eq c hc, hcell]
    cases inPlace with
    | false =>
        refine Stores.storeAll_of_agree ⟨v, (hmem v).mpr hv, hwrite⟩ (fun w hw hw' memory => ?_) zs
        have hw := (hmem w).mp hw
        have hread : dot c x.stride = w.1 := by rw [← hsame w hw, hw', h.target_eq c hc]
        simp only [Bool.false_eq_true, if_false]
        rw [h.reads w hw c hc hread, hread]
    | true =>
        have hnodup : (schedule.map fun v : Visit => v.2.2).Nodup := by
          refine (hschedule.map _).nodup_iff.mpr ?_
          have hcells : work.flatten.map (fun v : Visit => v.2.2) = work.flatten.map Prod.fst :=
            List.map_congr_left fun v hv => hsame v hv
          rw [hcells]
          exact h.once rfl
        have hreads : ∀ v ∈ schedule, ∀ w ∈ schedule, v.2.2 ≠ w.2.2 →
            Stores.Ignores (fun m : Int → T => op (if true then m v.1 else xs v.1) (ys v.2.1))
              w.2.2 := by
          intro v hv w hw hne memory b
          have hother : v.1 ≠ w.2.2 := by
            rw [← hsame v ((hmem v).mp hv)]
            exact hne
          simp only [if_true]
          rw [Function.update_of_ne hother]
        have hvalue := Stores.storeAll_of_independent hnodup hreads zs ((hmem v).mpr hv)
        rw [hwrite] at hvalue
        refine hvalue.trans ?_
        simp only [if_true]
        rw [hplace rfl, h.reads v hv c hc hcell, hcell]
  · intro cell hcell
    apply Stores.storeAll_of_not_written
    intro v hv heq
    have hv := (hmem v).mp hv
    obtain ⟨c, hc, hread⟩ := h.sound v hv
    refine hcell c hc ?_
    rw [← heq, hsame v hv, ← hread, h.target_eq c hc]

/-- An operation on lists that keeps what it has read. -/
def record (a b : List Int) : List Int :=
  a ++ b

/-- In place, every cell records the elements that were combined into it. -/
theorem runBroadcast_record_inPlace (xs : Int → List Int) {schedule : List Visit}
    (hsame : ∀ v ∈ schedule, v.2.2 = v.1) (target : Int → List Int) (cell : Int) :
    runBroadcast record true xs (fun k => [k]) schedule target cell =
      target cell ++ (schedule.filter fun v => v.1 = cell).map fun v => v.2.1 := by
  induction schedule generalizing target with
  | nil => simp [runBroadcast]
  | cons v schedule ih =>
      have hv := hsame v List.mem_cons_self
      rw [runBroadcast, Stores.storeAll_cons]
      refine (ih (fun w hw => hsame w (List.mem_cons_of_mem v hw)) _).trans ?_
      by_cases hcell : v.1 = cell
      · rw [List.filter_cons_of_pos (by simpa using hcell), List.map_cons, hv, hcell,
          Function.update_self, if_pos rfl, record, List.append_assoc]
        rfl
      · rw [List.filter_cons_of_neg (by simpa using hcell), hv,
          Function.update_of_ne (Ne.symm hcell)]

/-- Off place, a written cell records the elements of one visit to it. -/
theorem runBroadcast_record {schedule : List Visit} (hsame : ∀ v ∈ schedule, v.2.2 = v.1)
    {cell : Int} (hwritten : ∃ v ∈ schedule, v.1 = cell) (target : Int → List Int) :
    ∃ v ∈ schedule, v.1 = cell ∧
      runBroadcast record false (fun k => [k]) (fun k => [k]) schedule target cell =
        [cell, v.2.1] := by
  have hcells : ∃ v ∈ schedule, v.2.2 = cell := by
    obtain ⟨v, hv, hcell⟩ := hwritten
    exact ⟨v, hv, (hsame v hv).trans hcell⟩
  obtain ⟨v, hv, hcell, m, hm⟩ := Stores.storeAll_of_written hcells target
  have hread : v.1 = cell := (hsame v hv).symm.trans hcell
  refine ⟨v, hv, hread, hm.trans ?_⟩
  rw [hread]
  rfl

/-- A broadcast of recording lists into a target of its own shows which elements it
combines. -/
theorem visits_of_writesBroadcast (hsame : ∀ v ∈ work.flatten, v.2.2 = v.1)
    (h : WritesBroadcast record x y z axes false work) :
    VisitsBroadcast x y z axes false work.flatten := by
  have hrun := h work.flatten (List.Perm.refl _) (fun k => [k]) (fun k => [k]) (fun _ => [])
    (fun hplace => absurd hplace Bool.false_ne_true)
  obtain ⟨hvalue, hframe⟩ := hrun
  have hunwritten : ∀ cell, (¬ ∃ v ∈ work.flatten, v.1 = cell) →
      runBroadcast record false (fun k => [k]) (fun k => [k]) work.flatten (fun _ => []) cell =
        [] := by
    intro cell hcell
    apply Stores.storeAll_of_not_written
    intro v hv heq
    exact hcell ⟨v, hv, (hsame v hv).symm.trans heq⟩
  have htarget : ∀ c, InBox x.shape c → dot c z.stride = dot c x.stride ∧
      ∃ v ∈ work.flatten, dot c x.stride = v.1 := by
    intro c hc
    have hc' := hvalue c hc
    by_cases hcell : ∃ v ∈ work.flatten, v.1 = dot c z.stride
    · obtain ⟨v, hv, hread, hrecord⟩ := runBroadcast_record hsame hcell (fun _ => [])
      rw [hrecord, record, List.singleton_append, List.cons.injEq] at hc'
      exact ⟨hc'.1, v, hv, hc'.1.symm.trans hread.symm⟩
    · rw [hunwritten _ hcell, record] at hc'
      exact absurd hc' (by simp)
  refine ⟨fun c hc => (htarget c hc).1, fun v hv => ?_, fun c hc => (htarget c hc).2,
    fun v hv c hc hread => ?_, fun hplace => absurd hplace Bool.false_ne_true⟩
  · by_contra hnone
    have hcell := hframe v.1 fun c hc heq => hnone ⟨c, hc, (heq.trans (htarget c hc).1).symm⟩
    obtain ⟨w, -, -, hrecord⟩ := runBroadcast_record hsame ⟨v, hv, rfl⟩ (fun _ => [])
    rw [hrecord] at hcell
    exact absurd hcell (by simp)
  · -- a schedule that performs the visit last
    obtain ⟨before, after, hsplit⟩ := List.append_of_mem hv
    have hperm : (before ++ after ++ [v]).Perm work.flatten := by
      rw [hsplit, List.append_assoc]
      exact (List.perm_append_singleton v after).append_left before
    have hlast := (h _ hperm (fun k => [k]) (fun k => [k]) (fun _ => [])
      (fun hplace => absurd hplace Bool.false_ne_true)).1 c hc
    rw [(htarget c hc).1, hread, ← hsame v hv, runBroadcast,
      Stores.storeAll_snoc] at hlast
    simp only [Bool.false_eq_true, if_false, record, List.singleton_append, List.cons.injEq,
      and_true] at hlast
    exact hlast.2

/-- In place, a broadcast of recording lists also shows that no cell is visited twice. -/
theorem visits_of_writesBroadcast_inPlace (hsame : ∀ v ∈ work.flatten, v.2.2 = v.1)
    (h : WritesBroadcast record x y x axes true work) :
    VisitsBroadcast x y x axes true work.flatten := by
  obtain ⟨hvalue, hframe⟩ := h work.flatten (List.Perm.refl _) (fun k => [k]) (fun k => [k])
    (fun k => [k]) fun _ => rfl
  simp only [runBroadcast_record_inPlace _ hsame, record] at hvalue hframe
  have honce : ∀ c, InBox x.shape c →
      ((work.flatten.filter fun v => v.1 = dot c x.stride).map fun v => v.2.1) =
        [broadcastOffset x y axes c] :=
    fun c hc => List.append_cancel_left (hvalue c hc)
  have hsound : ∀ v ∈ work.flatten, ∃ c, InBox x.shape c ∧ dot c x.stride = v.1 := by
    intro v hv
    by_contra hnone
    have hcell := hframe v.1 fun c hc heq => hnone ⟨c, hc, heq.symm⟩
    rw [List.append_right_eq_self, List.map_eq_nil_iff, List.filter_eq_nil_iff] at hcell
    exact hcell v hv (by simp)
  refine ⟨fun _ _ => rfl, hsound, fun c hc => ?_, fun v hv c hc hread => ?_, fun _ => ?_⟩
  · obtain ⟨v, hv⟩ := List.exists_mem_of_ne_nil
      (work.flatten.filter fun v => v.1 = dot c x.stride) (fun hnil => by
        have hone := honce c hc
        rw [hnil] at hone
        cases hone)
    obtain ⟨hmem, hread⟩ := List.mem_filter.mp hv
    exact ⟨v, hmem, (of_decide_eq_true hread).symm⟩
  · have hmem : v.2.1 ∈ [broadcastOffset x y axes c] := by
      rw [← honce c hc]
      exact List.mem_map_of_mem (List.mem_filter.mpr ⟨hv, by simp [hread]⟩)
    exact List.mem_singleton.mp hmem
  · rw [List.nodup_iff_count_le_one]
    intro cell
    by_cases hcell : cell ∈ work.flatten.map Prod.fst
    · obtain ⟨v, hv, rfl⟩ := List.mem_map.mp hcell
      obtain ⟨c, hc, hread⟩ := hsound v hv
      have hlength := congrArg List.length (honce c hc)
      rw [List.length_map, List.length_singleton, hread] at hlength
      rw [List.count_eq_countP, List.countP_map, List.countP_eq_length_filter]
      refine le_of_eq (Eq.trans ?_ hlength)
      rfl
    · rw [List.count_eq_zero_of_not_mem hcell]
      exact Nat.zero_le 1

end Visits

/-! ## The tensors -/

/-- The loops walk an axis by its element-wise stride. -/
def WalksByStride (ret y : ShapeInfo) {rank : Nat} (dimension : Dimensions rank) : Prop :=
  0 < ret.elementWiseStride ∧ 0 < y.elementWiseStride ∧ dimension.toList.length = 1

instance (ret y : ShapeInfo) {rank : Nat} (dimension : Dimensions rank) :
    Decidable (WalksByStride ret y dimension) :=
  inferInstanceAs (Decidable (_ ∧ _ ∧ _))

/-- The `f`-th step through a tensor: the index along the dimensions, in C order, and the
offset in `y`. -/
def broadcastStep (ret y : ShapeInfo) {rank : Nat} (dimension : Dimensions rank)
    (shape : List Nat) (f : Nat) : Nat × Int :=
  if WalksByStride ret y dimension then
    (f, f * y.elementWiseStride)
  else if ret.order = 'c' then
    (f, offsetAt y.axes f)
  else
    (encode (dimension.kept shape) (decodeF (dimension.kept shape) f), offsetAtF y.axes f)

section Tensors

variable {x y ret : ShapeInfo} {dimension : Dimensions x.rank}

/-- Both arrays have elements, as many in `y` as in a tensor, and the tensors are cut along
the dimensions. -/
structure Matched (x y ret : ShapeInfo) (dimension : Dimensions x.rank) : Prop where
  positive : x.Positive
  length_eq : y.length = (dimension.kept x.shape).prod
  ret_eq : (TAD.init x dimension).shapeInfoOnlyShapeAndStride = some ret
  moves : MovesAlong ret (dimension.kept x.axes)

theorem prod_kept_pos (hpos : x.Positive) : 0 < (dimension.kept x.shape).prod :=
  prod_pos_of_pos (hpos.kept dimension)

theorem positive_of_length_pos {info : ShapeInfo} (h : 0 < info.length) : info.Positive := by
  intro d hd
  apply Nat.pos_of_ne_zero
  rintro rfl
  rw [ShapeInfo.length, List.prod_eq_zero hd] at h
  exact lt_irrefl 0 h

variable (h : Matched x y ret dimension)

include h

theorem Matched.y_positive : y.Positive := by
  apply positive_of_length_pos
  rw [h.length_eq]
  exact prod_kept_pos h.positive

theorem Matched.length_ret : ret.length = (dimension.kept x.shape).prod := by
  rw [← ret.volume_axes, h.moves.volume_eq, volume, dims_kept]

theorem Matched.ret_positive : ret.Positive := by
  apply positive_of_length_pos
  rw [h.length_ret]
  exact prod_kept_pos h.positive

/-- The steps go through all indices along the dimensions. -/
theorem bijOn_broadcastStep :
    Set.BijOn (fun f => (broadcastStep ret y dimension x.shape f).1)
      {f | f < (dimension.kept x.shape).prod} {j | j < (dimension.kept x.shape).prod} := by
  have hpos := h.positive.kept dimension
  have hidentity : Set.BijOn (fun f : Nat => f) {f | f < (dimension.kept x.shape).prod}
      {j | j < (dimension.kept x.shape).prod} := Set.bijOn_id _
  unfold broadcastStep
  by_cases hwalk : WalksByStride ret y dimension
  · simpa only [if_pos hwalk] using hidentity
  · by_cases horder : ret.order = 'c'
    · simpa only [if_neg hwalk, if_pos horder] using hidentity
    · simp only [if_neg hwalk, if_neg horder]
      refine Set.BijOn.comp ?_ (bijOn_decodeF hpos)
      refine ⟨fun c hc => encode_lt hc, fun c hc c' hc' heq => ?_, fun j hj => ?_⟩
      · rw [← decode_encode hc, ← decode_encode hc', heq]
      · exact ⟨_, inBox_decode hpos hj, encode_decode hpos hj⟩

/-- Walking a tensor backwards in its axes is walking its elements in column-major order. -/
theorem offsetAtF_ret {f : Nat} (hf : f < (dimension.kept x.shape).prod) :
    offsetAtF ret.axes f = offsetAt (dimension.kept x.axes)
      (encode (dimension.kept x.shape) (decodeF (dimension.kept x.shape) f)) := by
  have hvolume : volume (dimension.kept x.axes) = (dimension.kept x.shape).prod := by
    rw [volume, dims_kept]
  have hbox : InBox (dimension.kept x.shape) (decodeF (dimension.kept x.shape) f) :=
    (bijOn_decodeF (h.positive.kept dimension)).mapsTo hf
  have hreverse : offsetAtF ret.axes f = offsetAtF (dimension.kept x.axes) f := by
    apply offsetAt_congr_squeeze
    · rw [squeeze_reverse, h.moves.squeeze_eq, squeeze_reverse]
    · rw [volume_reverse, h.moves.volume_eq, hvolume]
      exact hf
  rw [hreverse, offsetAtF_eq_dot _ (hvolume ▸ hf), offsetAt_eq_dot, dims_kept, map_snd_kept,
    decode_encode hbox]

/-- The loops over a tensor take its steps. -/
theorem broadcastTad_eq (offset : Int) :
    broadcastTad ret ret y dimension.toList.length (dimension.kept x.shape).prod offset offset =
      (List.range (dimension.kept x.shape).prod).map fun f =>
        (offset + offsetAt (dimension.kept x.axes) (broadcastStep ret y dimension x.shape f).1,
          (broadcastStep ret y dimension x.shape f).2,
          offset + offsetAt (dimension.kept x.axes)
            (broadcastStep ret y dimension x.shape f).1) := by
  have hvolume : volume (dimension.kept x.axes) = (dimension.kept x.shape).prod := by
    rw [volume, dims_kept]
  unfold broadcastTad broadcastStep
  by_cases hwalk : WalksByStride ret y dimension
  · obtain ⟨hstride, hy, hone⟩ := id hwalk
    simp only
    rw [if_pos ⟨hstride, hy, hstride, hone⟩]
    refine List.map_congr_left fun f hf => ?_
    have hf := List.mem_range.mp hf
    have hoffset : offsetAt (dimension.kept x.axes) f = f * ret.elementWiseStride := by
      rw [← offsetAt_congr_squeeze h.moves.squeeze_eq
        (by rw [h.moves.volume_eq, hvolume]; exact hf),
        h.moves.linear hstride f (hvolume ▸ hf)]
    simp only [if_pos hwalk, hoffset]
    split
    · rename_i hunit
      rw [hunit.1, hunit.2.1, mul_one]
    · rfl
  · simp only
    rw [if_neg fun hboth => hwalk ⟨hboth.1, hboth.2.1, hboth.2.2.2⟩]
    refine List.map_congr_left fun f hf => ?_
    have hf := List.mem_range.mp hf
    have hy : f < y.length := h.length_eq ▸ hf
    simp only [if_neg hwalk]
    by_cases horder : ret.order = 'c'
    · simp only [if_pos horder]
      rw [h.moves.getOffset_eq (hvolume ▸ hf), getOffset_ind2subC h.y_positive hy, zero_add]
    · simp only [if_neg horder]
      rw [getOffset_ind2sub h.ret_positive (h.length_ret.symm ▸ hf),
        getOffset_ind2sub h.y_positive hy, zero_add, offsetAtF_ret h hf]

end Tensors

section Coordinates

variable {x y ret : ShapeInfo} {axes : AxisList x.rank} {hne : axes.toList ≠ []}

variable (axes)

variable (hne)

theorem mem_sort_iff (i : Nat) : i ∈ (axes.sort hne).toList ↔ i ∈ axes.toList := by
  unfold AxisList.sort
  simp only
  split
  · exact List.mem_insertionSort _
  · rfl

theorem length_sort : (axes.sort hne).toList.length = axes.toList.length := by
  unfold AxisList.sort
  simp only
  split
  · exact List.length_insertionSort _ _
  · rfl

/-- Sorting the axes does not change what they choose. -/
theorem kept_sort {α : Type} (data : List α) : (axes.sort hne).kept data = axes.kept data := by
  rw [Dimensions.kept, AxisList.kept]
  congr 1
  funext i
  rw [Dimensions.mem, decide_eq_decide]
  exact mem_sort_iff axes hne i

variable {hne}

variable {axes}

/-- The coordinate in tensor number `t` at the step `f`. -/
def stepCoordinate (ret y : ShapeInfo) {rank : Nat} (dimension : Dimensions rank)
    (shape : List Nat) (u : Nat → List Nat) (q : Nat × Nat) : List Nat :=
  dimension.coordinate (u q.1)
    (decode (dimension.kept shape) (broadcastStep ret y dimension shape q.2).1)

/-- The visit in tensor number `t` at the step `f`. -/
def stepVisit (x ret y : ShapeInfo) (dimension : Dimensions x.rank) (q : Nat × Nat) : Visit :=
  let offset := (TAD.init x dimension).tadOffset q.1 +
    offsetAt (dimension.kept x.axes) (broadcastStep ret y dimension x.shape q.2).1
  (offset, (broadcastStep ret y dimension x.shape q.2).2, offset)

/-- Every step of every tensor. -/
def allSteps (tads tadLength : Nat) : List (Nat × Nat) :=
  List.range tads ×ˢ List.range tadLength

theorem mem_allSteps {tads tadLength : Nat} {q : Nat × Nat} :
    q ∈ allSteps tads tadLength ↔ q.1 < tads ∧ q.2 < tadLength := by
  rw [allSteps, ← Prod.mk.eta (p := q), List.mem_product, List.mem_range, List.mem_range]

theorem allSteps_eq_flatMap (tads tadLength : Nat) :
    allSteps tads tadLength =
      (List.range tads).flatMap fun t => (List.range tadLength).map (Prod.mk t) :=
  rfl

theorem nodup_allSteps (tads tadLength : Nat) : (allSteps tads tadLength).Nodup :=
  List.nodup_range.product List.nodup_range

/-- The work of a broadcast, tensor by tensor and step by step. -/
theorem flatten_broadcastExec (h : Matched x y ret (axes.sort hne)) :
    (broadcastExec x y (axes.sort hne) ret (TAD.init x (axes.sort hne)).createOffsets ret
      (TAD.init x (axes.sort hne)).createOffsets).flatten =
      (allSteps ((axes.sort hne).leftOver x.shape).prod ((axes.sort hne).kept x.shape).prod).map
        (stepVisit x ret y (axes.sort hne)) := by
  have hnum : (TAD.init x (axes.sort hne)).numTads = ((axes.sort hne).leftOver x.shape).prod := by
    rw [numTads_init h.positive, volume, TAD.dims_leftOver]
    rfl
  have htads : x.length / Shape.tadLength x.shape (axes.sort hne).toList =
      ((axes.sort hne).leftOver x.shape).prod := hnum
  have hlength : Shape.tadLength x.shape (axes.sort hne).toList =
      ((axes.sort hne).kept x.shape).prod := tadLength_eq _ rfl
  unfold broadcastExec
  simp only
  rw [htads, hlength, ← List.flatMap_def, allSteps_eq_flatMap, List.map_flatMap]
  apply List.flatMap_congr
  intro t ht
  rw [getD_createOffsets _ (hnum ▸ List.mem_range.mp ht), broadcastTad_eq h, List.map_map]
  rfl

variable {u : Nat → List Nat}

/-- Every coordinate belongs to one step of one tensor. -/
theorem bijOn_stepCoordinate (h : Matched x y ret (axes.sort hne))
    (hu : Set.BijOn u {t | t < ((axes.sort hne).leftOver x.shape).prod}
      {c | InBox ((axes.sort hne).leftOver x.shape) c}) :
    Set.BijOn (stepCoordinate ret y (axes.sort hne) x.shape u)
      {q | q.1 < ((axes.sort hne).leftOver x.shape).prod ∧
        q.2 < ((axes.sort hne).kept x.shape).prod} {c | InBox x.shape c} := by
  have hsteps := (bijOn_decode (h.positive.kept (axes.sort hne))).comp (bijOn_broadcastStep h)
  exact (bijOn_coordinate (axes.sort hne) rfl).comp (hu.prodMap hsteps)

theorem dot_stepCoordinate (h : Matched x y ret (axes.sort hne))
    (hu : Set.BijOn u {t | t < ((axes.sort hne).leftOver x.shape).prod}
      {c | InBox ((axes.sort hne).leftOver x.shape) c})
    (hstart : ∀ t < ((axes.sort hne).leftOver x.shape).prod,
      (TAD.init x (axes.sort hne)).tadOffset t = (TAD.init x (axes.sort hne)).base (u t))
    {q : Nat × Nat} (hq : q.1 < ((axes.sort hne).leftOver x.shape).prod ∧
      q.2 < ((axes.sort hne).kept x.shape).prod) :
    dot (stepCoordinate ret y (axes.sort hne) x.shape u q) x.stride =
      (stepVisit x ret y (axes.sort hne) q).1 := by
  have hstep : (broadcastStep ret y (axes.sort hne) x.shape q.2).1 <
      volume ((axes.sort hne).kept x.axes) := by
    rw [volume, dims_kept]
    exact (bijOn_broadcastStep h).mapsTo hq.2
  refine (@TAD.dot_coordinate (TAD.init x (axes.sort hne)) h.positive _ (hu.mapsTo hq.1) _
    hstep).trans ?_
  rw [← hstart q.1 hq.1]
  rfl

theorem broadcastOffset_stepCoordinate (h : Matched x y ret (axes.sort hne))
    (hu : Set.BijOn u {t | t < ((axes.sort hne).leftOver x.shape).prod}
      {c | InBox ((axes.sort hne).leftOver x.shape) c})
    {q : Nat × Nat} (hq : q.1 < ((axes.sort hne).leftOver x.shape).prod ∧
      q.2 < ((axes.sort hne).kept x.shape).prod) :
    broadcastOffset x y axes (stepCoordinate ret y (axes.sort hne) x.shape u q) =
      offsetAt y.axes (broadcastStep ret y (axes.sort hne) x.shape q.2).1 := by
  have hpos := h.positive.kept (axes.sort hne)
  have hstep := (bijOn_broadcastStep h).mapsTo hq.2
  have hpick : (axes.sort hne).kept (stepCoordinate ret y (axes.sort hne) x.shape u q) =
      decode ((axes.sort hne).kept x.shape)
        (broadcastStep ret y (axes.sort hne) x.shape q.2).1 :=
    (merge_spec (hu.mapsTo hq.1) (inBox_decode hpos hstep)).2.2
  rw [broadcastOffset, ← kept_sort axes hne, ← kept_sort axes hne, hpick, encode_decode hpos hstep]

/-- Tensors that start right are combined right exactly if the target has the places of
`x`, coordinates that share a cell agree, and every step reads its own element of `y`. -/
theorem visitsBroadcast_iff (h : Matched x y ret (axes.sort hne))
    (hu : Set.BijOn u {t | t < ((axes.sort hne).leftOver x.shape).prod}
      {c | InBox ((axes.sort hne).leftOver x.shape) c})
    (hstart : ∀ t < ((axes.sort hne).leftOver x.shape).prod,
      (TAD.init x (axes.sort hne)).tadOffset t = (TAD.init x (axes.sort hne)).base (u t))
    (z : ShapeInfo) (inPlace : Bool) :
    VisitsBroadcast x y z axes inPlace
        ((allSteps ((axes.sort hne).leftOver x.shape).prod
          ((axes.sort hne).kept x.shape).prod).map (stepVisit x ret y (axes.sort hne))) ↔
      (∀ c, InBox x.shape c → dot c z.stride = dot c x.stride) ∧
      (∀ c c', InBox x.shape c → InBox x.shape c' → dot c x.stride = dot c' x.stride →
        if inPlace then c = c' else broadcastOffset x y axes c = broadcastOffset x y axes c') ∧
      ∀ f < ((axes.sort hne).kept x.shape).prod,
        (broadcastStep ret y (axes.sort hne) x.shape f).2 =
          offsetAt y.axes (broadcastStep ret y (axes.sort hne) x.shape f).1 := by
  have hcoord := bijOn_stepCoordinate h hu
  have hdot := fun q hq => @dot_stepCoordinate x y ret axes hne u h hu hstart q hq
  have hoffset := fun q hq => @broadcastOffset_stepCoordinate x y ret axes hne u h hu q hq
  have hfirst : 0 < ((axes.sort hne).leftOver x.shape).prod :=
    prod_pos_of_pos (h.positive.leftOver _)
  constructor
  · intro hvisits
    have hreads : ∀ f < ((axes.sort hne).kept x.shape).prod,
        (broadcastStep ret y (axes.sort hne) x.shape f).2 =
          offsetAt y.axes (broadcastStep ret y (axes.sort hne) x.shape f).1 := by
      intro f hf
      have hq : (0, f).1 < ((axes.sort hne).leftOver x.shape).prod ∧
          (0, f).2 < ((axes.sort hne).kept x.shape).prod := ⟨hfirst, hf⟩
      rw [← hoffset (0, f) hq]
      exact hvisits.reads _ (List.mem_map_of_mem (mem_allSteps.mpr hq)) _ (hcoord.mapsTo hq)
        (hdot (0, f) hq)
    refine ⟨hvisits.target_eq, fun c c' hc hc' heq => ?_, hreads⟩
    obtain ⟨q, hq, rfl⟩ := hcoord.surjOn hc
    obtain ⟨q', hq', rfl⟩ := hcoord.surjOn hc'
    cases inPlace with
    | true =>
        have honce := hvisits.once rfl
        rw [List.map_map, List.nodup_map_iff_inj_on (nodup_allSteps _ _)] at honce
        rw [hdot q hq, hdot q' hq'] at heq
        rw [if_pos rfl, honce q (mem_allSteps.mpr hq) q' (mem_allSteps.mpr hq') heq]
    | false =>
        have hv := List.mem_map_of_mem (f := stepVisit x ret y (axes.sort hne)) (mem_allSteps.mpr hq)
        rw [if_neg Bool.false_ne_true,
          ← hvisits.reads _ hv _ (hcoord.mapsTo hq) (hdot q hq),
          ← hvisits.reads _ hv _ (hcoord.mapsTo hq') (heq.symm.trans (hdot q hq))]
  · rintro ⟨htarget, hcells, hreads⟩
    constructor
    · exact htarget
    · intro v hv
      obtain ⟨q, hq, rfl⟩ := List.mem_map.mp hv
      have hq := mem_allSteps.mp hq
      exact ⟨_, hcoord.mapsTo hq, hdot q hq⟩
    · intro c hc
      obtain ⟨q, hq, rfl⟩ := hcoord.surjOn hc
      exact ⟨_, List.mem_map_of_mem (mem_allSteps.mpr hq), hdot q hq⟩
    · intro v hv c hc hread
      obtain ⟨q, hq, rfl⟩ := List.mem_map.mp hv
      have hq := mem_allSteps.mp hq
      have hsame := hcells _ c (hcoord.mapsTo hq) hc ((hdot q hq).trans hread.symm)
      refine (hreads q.2 hq.2).trans ((hoffset q hq).symm.trans ?_)
      cases inPlace with
      | true =>
          rw [if_pos rfl] at hsame
          rw [hsame]
      | false =>
          rw [if_neg Bool.false_ne_true] at hsame
          exact hsame
    · intro hplace
      rw [List.map_map, List.nodup_map_iff_inj_on (nodup_allSteps _ _)]
      intro q hq q' hq' heq
      have hq := mem_allSteps.mp hq
      have hq' := mem_allSteps.mp hq'
      have hsame := hcells _ _ (hcoord.mapsTo hq) (hcoord.mapsTo hq')
        ((hdot q hq).trans (heq.trans (hdot q' hq').symm))
      rw [if_pos hplace] at hsame
      exact hcoord.injOn hq hq' hsame

end Coordinates

/-! ## Where the tensors start -/

section Starts

variable {x y ret : ShapeInfo} {dimension : Dimensions x.rank}

/-- No tensor of several dimensions starts below the error marker. -/
def AboveMarker (x : ShapeInfo) (dimension : Dimensions x.rank) : Prop :=
  dimension.toList.length = 1 ∨ ∀ c, InBox (dimension.leftOver x.shape) c →
    -1 ≤ dot c (dimension.leftOver x.stride)

/-- Above the marker the tensors start at the left-over coordinates, in some order. -/
theorem exists_starts (hpos : x.Positive) (hews : x.HonestEws) (hmax : x.rank ≤ maxDimension)
    (hrank : 2 ≤ x.rank) (habove : AboveMarker x dimension) :
    ∃ u : Nat → List Nat,
      Set.BijOn u {t | t < (dimension.leftOver x.shape).prod}
        {c | InBox (dimension.leftOver x.shape) c} ∧
      ∀ t < (dimension.leftOver x.shape).prod,
        (TAD.init x dimension).tadOffset t = (TAD.init x dimension).base (u t) := by
  have hvolume : volume (TAD.init x dimension).leftOver = (dimension.leftOver x.shape).prod := by
    rw [volume, TAD.dims_leftOver]
    rfl
  by_cases hproper : dimension.toList.length < x.rank
  · have hstarts := (exists_offsets_iff hpos hews hproper).mpr habove
    rwa [hvolume] at hstarts
  · -- all axes: one tensor, which is the whole array
    have hsum := length_kept_add dimension (rfl : x.shape.length = x.rank)
    have hnil : dimension.leftOver x.shape = [] := List.eq_nil_of_length_eq_zero (by omega)
    have hone : volume (TAD.init x dimension).leftOver = 1 := by
      rw [hvolume, hnil]
      rfl
    refine ⟨decode (dimension.leftOver x.shape), ?_, fun t ht => ?_⟩
    · rw [← hvolume]
      exact (TAD.init x dimension).bijOn_decode_leftOver hpos
    · rw [← hvolume] at ht
      rw [startsAtCoordinates_of_one hpos hone t (numTads_init hpos ▸ ht), dot_start hpos ht]

/-- The lowest cell of an array is only visited when no tensor is raised to the marker. -/
theorem aboveMarker_of_complete (h : Matched x y ret dimension) (hews : x.HonestEws)
    (hmax : x.rank ≤ maxDimension) (hrank : 2 ≤ x.rank)
    (hproper : dimension.toList.length < x.rank)
    (hcomplete : ∀ c, InBox x.shape c → ∃ t < (dimension.leftOver x.shape).prod,
      ∃ j < (dimension.kept x.shape).prod, dot c x.stride =
        (TAD.init x dimension).tadOffset t + offsetAt (dimension.kept x.axes) j) :
    AboveMarker x dimension := by
  by_contra hbelow
  obtain ⟨hseveral, hlow⟩ := not_or.mp hbelow
  push Not at hlow
  obtain ⟨c₀, hc₀, hlow⟩ := hlow
  have hsome := List.length_pos_of_ne_nil dimension.ne_nil
  have hvolume : volume (TAD.init x dimension).leftOver = (dimension.leftOver x.shape).prod := by
    rw [volume, TAD.dims_leftOver]
    rfl
  have hkept : volume (dimension.kept x.axes) = (dimension.kept x.shape).prod := by
    rw [volume, dims_kept]
  -- the shortcut takes no negative offsets, so it is not taken
  have hwhole : (TAD.init x dimension).wholeThing = false := by
    cases hwhole : (TAD.init x dimension).wholeThing with
    | false => rfl
    | true =>
        exact absurd ((exists_offsets_iff h.positive hews hproper).mp
          (offsets_of_wholeThing h.positive hews hproper hwhole)) hbelow
  obtain ⟨j₀, hj₀, hleast⟩ := Finset.exists_min_image
    (Finset.range (dimension.kept x.shape).prod) (offsetAt (dimension.kept x.axes))
    ⟨0, Finset.mem_range.mpr (prod_kept_pos h.positive)⟩
  have hj₀ := Finset.mem_range.mp hj₀
  obtain ⟨t₀, ht₀, rfl⟩ := (bijOn_decode (h.positive.leftOver dimension)).surjOn hc₀
  have ht₀ : t₀ < (dimension.leftOver x.shape).prod := ht₀
  have hu : InBox (dimension.leftOver x.shape) (decode (dimension.leftOver x.shape) t₀) :=
    inBox_decode (h.positive.leftOver dimension) ht₀
  have hv : InBox (dimension.kept x.shape) (decode (dimension.kept x.shape) j₀) :=
    inBox_decode (h.positive.kept dimension) hj₀
  have hdot := @TAD.dot_coordinate (TAD.init x dimension) h.positive _ hu j₀
    (show j₀ < volume (dimension.kept x.axes) by rwa [hkept])
  obtain ⟨t, ht, j, hj, hcell⟩ := hcomplete _ ((bijOn_coordinate dimension rfl).mapsTo
    (show (_, _) ∈ _ from ⟨hu, hv⟩))
  have hoffset := @tadOffset_of_not_wholeThing (TAD.init x dimension) h.positive hwhole t
    (by rwa [hvolume])
  rw [if_pos (show (TAD.init x dimension).dimension.toList.length > 1 from by
    show dimension.toList.length > 1
    omega)] at hoffset
  have hraised : -1 ≤ (TAD.init x dimension).tadOffset t := by
    rw [hoffset]
    exact le_max_right _ _
  have hlowest := hleast j (Finset.mem_range.mpr hj)
  have hbase : (TAD.init x dimension).base (decode (dimension.leftOver x.shape) t₀) =
      dot (decode (dimension.leftOver x.shape) t₀) (dimension.leftOver x.stride) := rfl
  have hsame := hdot.symm.trans hcell
  have hkeptAxes : offsetAt (TAD.init x dimension).kept j₀ = offsetAt (dimension.kept x.axes) j₀ :=
    rfl
  omega

/-- Along all axes there is one tensor, which starts at the first element. -/
theorem aboveMarker_of_all (hall : ¬ dimension.toList.length < x.rank) :
    AboveMarker x dimension := by
  right
  intro c hc
  have hsum := length_kept_add dimension (rfl : x.shape.length = x.rank)
  have hnil : dimension.leftOver x.shape = [] := List.eq_nil_of_length_eq_zero (by omega)
  rw [hnil] at hc
  cases hc
  rw [dot_nil_left]
  decide

end Starts

/-! ## When a broadcast is right -/

/-- The loops read the elements of `y` in C order along the dimensions. -/
def ReadsInOrder (ret y : ShapeInfo) {rank : Nat} (dimension : Dimensions rank)
    (shape : List Nat) : Prop :=
  if WalksByStride ret y dimension then
    ∀ f < (dimension.kept shape).prod, f * y.elementWiseStride = offsetAt y.axes f
  else
    ret.order = 'c' ∨ ∀ f < (dimension.kept shape).prod, offsetAtF y.axes f =
      offsetAt y.axes (encode (dimension.kept shape) (decodeF (dimension.kept shape) f))

theorem readsInOrder_iff (ret y : ShapeInfo) {rank : Nat} (dimension : Dimensions rank)
    (shape : List Nat) :
    ReadsInOrder ret y dimension shape ↔ ∀ f < (dimension.kept shape).prod,
      (broadcastStep ret y dimension shape f).2 =
        offsetAt y.axes (broadcastStep ret y dimension shape f).1 := by
  unfold ReadsInOrder broadcastStep
  by_cases hwalk : WalksByStride ret y dimension
  · simp only [if_pos hwalk]
  · by_cases horder : ret.order = 'c'
    · simp [if_neg hwalk, horder]
    · simp only [if_neg hwalk, if_neg horder, or_iff_right horder]

/-- The layouts for which a broadcast is right. -/
structure BroadcastsRight (x : ShapeInfo) (axes : AxisList x.rank) (y : ShapeInfo)
    (target : Option ShapeInfo) : Prop where
  ne_nil : axes.toList ≠ []
  /-- An axis is left over, or the last one does not matter. -/
  axes_left : axes.toList.length < x.rank ∨ 2 ≤ x.rank ∧ x.shape.getLastD 1 = 1
  strides_eq : ∀ z, target = some z → squeeze z.axes = squeeze x.axes
  starts : AboveMarker x (axes.sort ne_nil)
  cells : ∀ c c', InBox x.shape c → InBox x.shape c' → dot c x.stride = dot c' x.stride →
    if target.isNone then c = c' else broadcastOffset x y axes c = broadcastOffset x y axes c'
  reads : ∀ ret, (TAD.init x (axes.sort ne_nil)).shapeInfoOnlyShapeAndStride = some ret →
    ReadsInOrder ret y (axes.sort ne_nil) x.shape

/-- `applyBroadcast` writes every element of the target, for all operations; and so do the
routines for row vectors when they take the arguments. -/
structure Broadcasts (x : ShapeInfo) (axes : AxisList x.rank) (y : ShapeInfo)
    (target : Option ShapeInfo) : Prop where
  apply : ∃ work, applyBroadcast x axes y = .ok (some work) ∧
    ∀ (T : Type) (op : T → T → T),
      WritesBroadcast op x y (target.getD x) axes target.isNone work
  rows : axes.toList = [1] → ∀ (T : Type) [Field T], ∀ q ∈
      [(addRowVector, fun d1 d2 : T => d1 + d2), (subRowVector, fun d1 d2 => d1 - d2),
        (mulRowVector, fun d1 d2 => d1 * d2), (divRowVector, fun d1 d2 => d1 / d2)],
    ∀ opNum result, q.1 x y (target.getD x) = .ok (opNum, result) →
      broadcastOp opNum = some q.2 ∧
      ∃ work, result = some work ∧
        WritesBroadcast q.2 x y (target.getD x) axes target.isNone work

section Right

variable {x y : ShapeInfo} {axes : AxisList x.rank} {target : Option ShapeInfo}

/-- The work of `applyBroadcast`. -/
theorem applyBroadcast_eq (hne : axes.toList ≠ [])
    (hlength : y.length = (axes.kept x.shape).prod) :
    applyBroadcast x axes y =
      .ok ((TAD.init x (axes.sort hne)).shapeInfoOnlyShapeAndStride.map fun ret =>
        broadcastExec x y (axes.sort hne) ret (TAD.init x (axes.sort hne)).createOffsets ret
          (TAD.init x (axes.sort hne)).createOffsets) := by
  have hsame : Shape.tadLength x.shape (axes.sort hne).toList = y.length := by
    have hkept := tadLength_eq (axes.sort hne) (rfl : x.shape.length = x.rank)
    rw [hkept, kept_sort, hlength]
  unfold applyBroadcast
  simp only
  rw [dif_neg hne, if_neg (not_not.mpr hsame)]

/-- With the tensors of `x` for the target, every visit writes the cell it reads. -/
theorem same_of_mem_broadcastExec {ret : ShapeInfo} {dimension : Dimensions x.rank}
    {offsets : List Int} {v : Visit}
    (hv : v ∈ (broadcastExec x y dimension ret offsets ret offsets).flatten) : v.2.2 = v.1 := by
  obtain ⟨visits, hvisits, hv⟩ := List.mem_flatten.mp hv
  obtain ⟨i, -, rfl⟩ := List.mem_map.mp hvisits
  unfold broadcastTad at hv
  simp only at hv
  split at hv
  · obtain ⟨f, -, rfl⟩ := List.mem_map.mp hv
    split <;> rfl
  · obtain ⟨f, -, rfl⟩ := List.mem_map.mp hv
    by_cases horder : ret.order = 'c'
    · simp only [if_pos horder]
    · simp only [if_neg horder]

theorem length_of_all (hne : axes.toList ≠ []) (hall : ¬ axes.toList.length < x.rank) :
    (axes.sort hne).toList.length = x.rank := by
  have hsum := length_kept_add (axes.sort hne) (rfl : x.shape.length = x.rank)
  have hsort := length_sort axes hne
  omega

theorem exists_last_axis (hrank : 0 < x.rank) : ∃ front a, x.axes = front ++ [a] := by
  rcases List.eq_nil_or_concat x.axes with hnil | ⟨front, a, hsplit⟩
  · rw [← x.length_axes, hnil] at hrank
    exact absurd hrank (Nat.lt_irrefl 0)
  · exact ⟨front, a, hsplit.trans (List.concat_eq_append ..)⟩

theorem getLastD_shape {front : List (Nat × Int)} {a : Nat × Int} (haxes : x.axes = front ++ [a]) :
    x.shape.getLastD 1 = a.1 := by
  rw [← x.dims_axes, haxes, dims_append]
  simp

/-- Right axes have tensors that are cut along them. -/
theorem exists_matched (hpos : x.Positive) (hews : x.HonestEws) (hmax : x.rank ≤ maxDimension)
    (hlength : y.length = (axes.kept x.shape).prod) (hne : axes.toList ≠ [])
    (hleft : axes.toList.length < x.rank ∨ 2 ≤ x.rank ∧ x.shape.getLastD 1 = 1) :
    ∃ ret, Matched x y ret (axes.sort hne) := by
  have hsome := List.length_pos_of_ne_nil hne
  have hlength' : y.length = ((axes.sort hne).kept x.shape).prod := by rw [kept_sort, hlength]
  by_cases hproper : axes.toList.length < x.rank
  · obtain ⟨ret, hret, hmoves⟩ := @shapeInfoOnlyShapeAndStride_spec
      (TAD.init x (axes.sort hne)) hpos hews (show 2 ≤ x.rank by omega) hmax
      ((length_sort axes hne).trans_lt hproper)
    exact ⟨ret, hpos, hlength', hret, hmoves⟩
  · obtain ⟨htwo, hone⟩ := hleft.resolve_left hproper
    have hall : (TAD.init x (axes.sort hne)).dimension.toList.length = x.rank :=
      length_of_all hne hproper
    obtain ⟨front, a, haxes⟩ := exists_last_axis (x := x) (by omega)
    have hlast : a.1 = 1 := by rwa [getLastD_shape haxes] at hone
    obtain ⟨ret, hret, hews, -, hsqueeze⟩ := @shapeInfoOnlyShapeAndStride_all
      (TAD.init x (axes.sort hne)) hpos htwo hall (firstSlice_init _) front a haxes
    refine ⟨ret, hpos, hlength', hret, hsqueeze hlast, fun h => absurd h ?_⟩
    rw [hews]
    decide

/-- Two layouts of one shape have the same places if they have the same strides, but for
the axes of extent one. -/
theorem squeeze_axes_eq_iff (hpos : x.Positive) {z : ShapeInfo} (hshape : z.shape = x.shape) :
    squeeze z.axes = squeeze x.axes ↔
      ∀ c, InBox x.shape c → dot c z.stride = dot c x.stride := by
  have hdims : dims z.axes = dims x.axes := by rw [z.dims_axes, x.dims_axes, hshape]
  rw [squeeze_eq_iff hdims hpos.axes, x.volume_axes]
  constructor
  · intro hsame c hc
    obtain ⟨k, hk, rfl⟩ := (bijOn_decode hpos).surjOn hc
    have hk' := hsame k hk
    rwa [offsetAt_eq_dot, offsetAt_eq_dot, hdims, x.dims_axes, z.map_snd_axes,
      x.map_snd_axes] at hk'
  · intro hsame k hk
    rw [offsetAt_eq_dot, offsetAt_eq_dot, hdims, x.dims_axes, z.map_snd_axes, x.map_snd_axes]
    exact hsame _ (inBox_decode hpos hk)

/-- Right layouts are broadcast right. -/
theorem writesBroadcast_of_right (hpos : x.Positive) (hews : x.HonestEws)
    (hmax : x.rank ≤ maxDimension) (hlength : y.length = (axes.kept x.shape).prod)
    (hshape : ∀ z, target = some z → z.shape = x.shape) (h : BroadcastsRight x axes y target) :
    ∃ work, applyBroadcast x axes y = .ok (some work) ∧
      ∀ (T : Type) (op : T → T → T),
        WritesBroadcast op x y (target.getD x) axes target.isNone work := by
  obtain ⟨ret, hmatched⟩ := exists_matched hpos hews hmax hlength h.ne_nil h.axes_left
  have hsome := List.length_pos_of_ne_nil h.ne_nil
  have hrank : 2 ≤ x.rank := by
    rcases h.axes_left with hproper | ⟨htwo, -⟩ <;> omega
  obtain ⟨u, hu, hstart⟩ := exists_starts hpos hews hmax hrank h.starts
  refine ⟨_, by rw [applyBroadcast_eq h.ne_nil hlength, hmatched.ret_eq]; rfl, fun T op => ?_⟩
  refine writesBroadcast_of_visits (fun v hv => same_of_mem_broadcastExec hv) ?_ op
  rw [flatten_broadcastExec hmatched]
  refine (visitsBroadcast_iff hmatched hu hstart _ _).mpr ⟨?_, h.cells, ?_⟩
  · -- the target has the places of `x`
    cases target with
    | none => exact fun _ _ => rfl
    | some z =>
        exact (squeeze_axes_eq_iff hpos (hshape z rfl)).mp (h.strides_eq z rfl)
  · exact (readsInOrder_iff ret y _ _).mp (h.reads ret hmatched.ret_eq)

/-- A routine for row vectors does the work of `applyBroadcast` along the columns. -/
theorem rowVector_eq (hne : axes.toList ≠ []) (hlength : y.length = (axes.kept x.shape).prod)
    (hcolumns : axes.toList = [1]) {opNum k : Nat} {message : String} {z : ShapeInfo}
    {result : Option (List (List Visit))}
    (h : rowVector opNum message x y z = .ok (k, result)) :
    k = opNum ∧ applyBroadcast x axes y = .ok result := by
  unfold rowVector at h
  split at h
  · cases h
  · rename_i haccepts
    have hrank : x.rank = 2 := not_not.mp fun hne => haccepts (Or.inl hne)
    have haxes : columnsAxis hrank = axes := by
      cases axes with
      | mk toList nodup lt_rank =>
          simp only at hcolumns
          subst hcolumns
          rfl
    subst haxes
    simp only [Except.ok.injEq, Prod.mk.injEq] at h
    refine ⟨h.1.symm, ?_⟩
    rw [applyBroadcast_eq hne hlength, ← h.2]

theorem broadcasts_of_right (hpos : x.Positive) (hews : x.HonestEws)
    (hmax : x.rank ≤ maxDimension) (hlength : y.length = (axes.kept x.shape).prod)
    (hshape : ∀ z, target = some z → z.shape = x.shape) (h : BroadcastsRight x axes y target) :
    Broadcasts x axes y target := by
  obtain ⟨work, happly, hwrites⟩ := writesBroadcast_of_right hpos hews hmax hlength hshape h
  refine ⟨⟨work, happly, hwrites⟩, fun hcolumns T _ q hq opNum result hrow => ?_⟩
  have hroutine : ∀ {k : Nat} {message : String},
      rowVector k message x y (target.getD x) = .ok (opNum, result) →
        opNum = k ∧ result = some work := by
    intro k message hrow
    obtain ⟨hop, hresult⟩ := rowVector_eq h.ne_nil hlength hcolumns hrow
    rw [happly] at hresult
    cases hresult
    exact ⟨hop, rfl⟩
  simp only [List.mem_cons, List.not_mem_nil, or_false] at hq
  rcases hq with rfl | rfl | rfl | rfl
  all_goals
    obtain ⟨rfl, rfl⟩ := hroutine hrow
    exact ⟨rfl, work, rfl, hwrites T _⟩

end Right

section Wrong

variable {x y : ShapeInfo} {axes : AxisList x.rank} {target : Option ShapeInfo}

/-- A broadcast that is right for recording lists shows its visits. -/
theorem visitsBroadcast_of_writes {work : List (List Visit)}
    (hsame : ∀ v ∈ work.flatten, v.2.2 = v.1)
    (h : ∀ (T : Type) (op : T → T → T),
      WritesBroadcast op x y (target.getD x) axes target.isNone work) :
    VisitsBroadcast x y (target.getD x) axes target.isNone work.flatten := by
  cases target with
  | none => exact visits_of_writesBroadcast_inPlace hsame (h _ record)
  | some z => exact visits_of_writesBroadcast hsame (h _ record)

/-- A work that reaches every place of an array without shared cells has no two visits in
one cell among as many visits as there are elements. -/
theorem injOn_of_complete (hpos : x.Positive)
    (hcells : ∀ c c', InBox x.shape c → InBox x.shape c' → dot c x.stride = dot c' x.stride →
      c = c') {cell : Nat → Int}
    (hcomplete : ∀ c, InBox x.shape c → ∃ f < x.length, dot c x.stride = cell f) :
    Set.InjOn cell {f | f < x.length} := by
  have hplaces : Set.InjOn (fun k => dot (decode x.shape k) x.stride) (Finset.range x.length) := by
    intro k hk k' hk' heq
    rw [Finset.coe_range] at hk hk'
    have hbij := bijOn_decode hpos
    exact hbij.injOn hk hk' (hcells _ _ (hbij.mapsTo hk) (hbij.mapsTo hk') heq)
  have hsubset : (Finset.range x.length).image (fun k => dot (decode x.shape k) x.stride) ⊆
      (Finset.range x.length).image cell := by
    intro place hplace
    obtain ⟨k, hk, rfl⟩ := Finset.mem_image.mp hplace
    obtain ⟨f, hf, heq⟩ := hcomplete _ (inBox_decode hpos (Finset.mem_range.mp hk))
    exact Finset.mem_image.mpr ⟨f, Finset.mem_range.mpr hf, heq.symm⟩
  have hcard := Finset.card_le_card hsubset
  rw [Finset.card_image_of_injOn hplaces] at hcard
  have hinj := Finset.injOn_of_card_image_eq (le_antisymm Finset.card_image_le hcard)
  rwa [Finset.coe_range] at hinj

/-- The cell of a step that is decoded in the order of the tensor. -/
def stepCell (ret : ShapeInfo) (offset : Int) (f : Nat) : Int :=
  getOffset offset ret.shape ret.stride
    (if ret.order = 'c' then ind2subC ret.shape f else ind2sub ret.shape f)

/-- Steps past the elements of a tensor collide. -/
theorem collision_stepCell {ret : ShapeInfo} (hpos : ret.Positive) {n : Nat}
    (hn : 2 * ret.length ≤ n) (offset : Int) :
    ∃ f f', f < f' ∧ f' < n ∧ stepCell ret offset f = stepCell ret offset f' := by
  unfold stepCell
  by_cases horder : ret.order = 'c'
  · obtain ⟨f, f', hlt, hf', hsame⟩ := collision_ind2subC hpos hn
    exact ⟨f, f', hlt, hf', by simpa only [if_pos horder] using hsame offset⟩
  · obtain ⟨f, f', hlt, hf', hsame⟩ := collision_ind2sub hpos hn
    exact ⟨f, f', hlt, hf', by simpa only [if_neg horder] using hsame offset⟩

/-- Along all axes there is one tensor, of all elements. -/
theorem mem_broadcastExec_all (hpos : x.Positive) {dimension : Dimensions x.rank}
    (hall : dimension.toList.length = x.rank) {ret : ShapeInfo}
    (hews : ret.elementWiseStride = -1) {offsets : List Int} {v : Visit}
    (hv : v ∈ (broadcastExec x y dimension ret offsets ret offsets).flatten) :
    ∃ f < x.length, v.1 = stepCell ret (offsets.getD 0 0) f := by
  have hkept : dimension.kept x.shape = x.shape := by
    have hdims := TAD.dims_kept (TAD.init x dimension)
    rw [@kept_all (TAD.init x dimension) hall] at hdims
    exact hdims.symm.trans x.dims_axes
  have hlength : Shape.tadLength x.shape dimension.toList = x.length := by
    rw [tadLength_eq dimension rfl, hkept]
    rfl
  unfold broadcastExec at hv
  simp only at hv
  rw [hlength, Nat.div_self hpos.length_pos, List.range_one, List.map_singleton,
    List.flatten_singleton] at hv
  unfold broadcastTad at hv
  simp only at hv
  rw [if_neg fun hboth => by rw [hews] at hboth; exact absurd hboth.1 (by decide)] at hv
  obtain ⟨f, hf, rfl⟩ := List.mem_map.mp hv
  refine ⟨f, List.mem_range.mp hf, ?_⟩
  unfold stepCell
  by_cases horder : ret.order = 'c'
  · simp only [if_pos horder]
  · simp only [if_neg horder]

/-- Along all axes, with a last extent above one, no broadcast is right. -/
theorem last_of_all (hpos : x.Positive) (hlength : y.length = (axes.kept x.shape).prod)
    (hrank : 2 ≤ x.rank) (hne : axes.toList ≠ []) (hall : ¬ axes.toList.length < x.rank)
    (hcells : ∀ c c', InBox x.shape c → InBox x.shape c' → dot c x.stride = dot c' x.stride →
      c = c')
    (h : Broadcasts x axes y target) : x.shape.getLastD 1 = 1 := by
  obtain ⟨work, happly, hwrites⟩ := h.apply
  obtain ⟨front, a, haxes⟩ := exists_last_axis (x := x) (by omega)
  have hallDimensions : (TAD.init x (axes.sort hne)).dimension.toList.length = x.rank :=
    length_of_all hne hall
  rw [applyBroadcast_eq hne hlength, Except.ok.injEq] at happly
  obtain ⟨ret, hret, hews, hshort, -⟩ := @shapeInfoOnlyShapeAndStride_all
    (TAD.init x (axes.sort hne)) hpos hrank hallDimensions (firstSlice_init _) front a haxes
  rw [hret, Option.map_some, Option.some.injEq] at happly
  subst happly
  rw [getLastD_shape haxes]
  by_contra hone
  have hvisits := visitsBroadcast_of_writes (fun v hv => same_of_mem_broadcastExec hv) hwrites
  have hcomplete : ∀ c, InBox x.shape c → ∃ f < x.length, dot c x.stride =
      stepCell ret ((TAD.init x (axes.sort hne)).createOffsets.getD 0 0) f := by
    intro c hc
    obtain ⟨v, hv, hcell⟩ := hvisits.complete c hc
    obtain ⟨f, hf, hstep⟩ := mem_broadcastExec_all hpos hallDimensions hews hv
    exact ⟨f, hf, hcell.trans hstep⟩
  have hinj := injOn_of_complete hpos hcells hcomplete
  have ha : 0 < a.1 := hpos.axes a (by simp [haxes])
  have htwice : 2 * ret.length ≤ x.length := by
    rw [← x.volume_axes, haxes, volume_append, volume_cons, volume_nil, mul_one, hshort, mul_comm]
    exact Nat.mul_le_mul_left _ (by omega)
  have hret_pos : ret.Positive := by
    apply positive_of_length_pos
    rw [hshort]
    exact volume_pos fun b hb => hpos.axes b (by simp [haxes, hb])
  obtain ⟨f, f', hlt, hf', hsame⟩ := collision_stepCell hret_pos htwice
    ((TAD.init x (axes.sort hne)).createOffsets.getD 0 0)
  exact absurd (hinj (hlt.trans hf') hf' hsame) (Nat.ne_of_lt hlt)

/-- Without axes nothing is written. -/
theorem ne_nil_of_broadcasts (hpos : x.Positive) (h : Broadcasts x axes y target) :
    axes.toList ≠ [] := by
  intro hnil
  obtain ⟨work, happly, hwrites⟩ := h.apply
  unfold applyBroadcast at happly
  rw [dif_pos hnil, Except.ok.injEq, Option.some.injEq] at happly
  subst happly
  have hvisits := visitsBroadcast_of_writes (fun v hv => absurd hv List.not_mem_nil) hwrites
  obtain ⟨v, hv, -⟩ := hvisits.complete _ (inBox_decode hpos hpos.length_pos)
  exact absurd hv List.not_mem_nil

theorem right_of_broadcasts (hpos : x.Positive) (hews : x.HonestEws)
    (hmax : x.rank ≤ maxDimension) (hlength : y.length = (axes.kept x.shape).prod)
    (hshape : ∀ z, target = some z → z.shape = x.shape) (hrank : 2 ≤ x.rank)
    (hcells : axes.toList.length < x.rank ∨ ∀ c c', InBox x.shape c → InBox x.shape c' →
      dot c x.stride = dot c' x.stride → c = c')
    (h : Broadcasts x axes y target) : BroadcastsRight x axes y target := by
  have hne := ne_nil_of_broadcasts hpos h
  have hleft : axes.toList.length < x.rank ∨ 2 ≤ x.rank ∧ x.shape.getLastD 1 = 1 := by
    by_cases hproper : axes.toList.length < x.rank
    · exact Or.inl hproper
    · right
      exact ⟨hrank, last_of_all hpos hlength hrank hne hproper (hcells.resolve_left hproper) h⟩
  obtain ⟨ret, hmatched⟩ := exists_matched hpos hews hmax hlength hne hleft
  obtain ⟨work, happly, hwrites⟩ := h.apply
  rw [applyBroadcast_eq hne hlength, hmatched.ret_eq, Option.map_some, Except.ok.injEq,
    Option.some.injEq] at happly
  subst happly
  have hvisits := visitsBroadcast_of_writes (fun v hv => same_of_mem_broadcastExec hv) hwrites
  rw [flatten_broadcastExec hmatched] at hvisits
  have habove : AboveMarker x (axes.sort hne) := by
    by_cases hproper : axes.toList.length < x.rank
    · refine aboveMarker_of_complete hmatched hews hmax hrank
        ((length_sort axes hne).trans_lt hproper) fun c hc => ?_
      obtain ⟨v, hv, hcell⟩ := hvisits.complete c hc
      obtain ⟨q, hq, rfl⟩ := List.mem_map.mp hv
      have hq := mem_allSteps.mp hq
      exact ⟨q.1, hq.1, _, (bijOn_broadcastStep hmatched).mapsTo hq.2, hcell⟩
    · apply aboveMarker_of_all
      rwa [length_sort]
  obtain ⟨u, hu, hstart⟩ := exists_starts hpos hews hmax hrank habove
  obtain ⟨htarget, hshared, hreads⟩ := (visitsBroadcast_iff hmatched hu hstart _ _).mp hvisits
  refine ⟨hne, hleft, fun z hz => ?_, habove, hshared, fun ret' hret' => ?_⟩
  · subst hz
    exact (squeeze_axes_eq_iff hpos (hshape z rfl)).mpr htarget
  · have hsame := hmatched.ret_eq.symm.trans hret'
    cases hsame
    exact (readsInOrder_iff ret y _ _).mpr hreads

end Wrong

section Main

variable {x y : ShapeInfo} {axes : AxisList x.rank} {target : Option ShapeInfo}

end Main

/-- A matrix in C order. -/
def rowMajorSquare : ShapeInfo where
  shape := [2, 2]
  stride := [2, 1]
  offset := 0
  elementWiseStride := 1
  order := 'c'
  stride_length := by decide

/-- The same shape in F order. -/
def columnMajorSquare : ShapeInfo where
  shape := [2, 2]
  stride := [1, 2]
  offset := 0
  elementWiseStride := 1
  order := 'f'
  stride_length := Eq.refl [2, 2].length

/-- A row of two elements. -/
def pairRow : ShapeInfo where
  shape := [1, 2]
  stride := [2, 1]
  offset := 0
  elementWiseStride := 1
  order := 'c'
  stride_length := by decide

/-- The columns of the matrix. -/
def squareColumns : AxisList rowMajorSquare.rank :=
  columnsAxis rfl

end Loops
end LibND4J
