import LibND4J.Arrays.Matrices
import LibND4J.Loops.Elementwise

/-!
# Operations in place

The pairwise transforms and the broadcasts that an array takes into itself, from an array in another
buffer.  A view is a part of a buffer that starts at some cell; what is stored in it is stored in
the buffer.

Main results:

- Theorem `pairwiseInto_spec`: which elements are combined, also of arrays of two shapes.
- Theorem `pairwiseInto_coordinates`: arrays of one shape are combined element by element.
- Theorem `broadcastColumns_spec` and `rowVector_spec`: a line is combined with every row
  of a matrix.
-/

namespace LibND4J
namespace Arrays

open Strided Shape Loops

/-! ## The routines -/

section Routines

variable {T : Type}

/-- `applyPairwiseTransform` of a part of a buffer and an array in another buffer, into the part. -/
def pairwiseInto (op : T → T → T) (run : Runtime T) (x : ShapeInfo) (dx : Int) (y : ShapeInfo)
    (dy : Int) (source buffer : Int → T) : Except Failure (Int → T) :=
  if y.length ≠ x.length then
    .error (.thrown
      "NDArray::applyPairwiseTransform method - lengths of arrays are mismatched")
  else
    match exec x.length run.settings x y x dx dy dx with
    | none => .error .undefined
    | some work => .ok (runBroadcast op true buffer source (run.schedule work) buffer)

namespace NDArray

/-- `applyPairwiseTransform` of an array, into itself. -/
def pairwise (op : T → T → T) (run : Runtime T) (array other : NDArray T) :
    Except Failure (NDArray T) :=
  (pairwiseInto op run array.shapeInfo 0 other.shapeInfo 0 other.buffer array.buffer).map
    fun buffer => ⟨array.shapeInfo, buffer⟩

/-- `applyBroadcast` of an array, into itself. -/
def broadcastAlong (op : T → T → T) (run : Runtime T) (array tadArray : NDArray T)
    (dimensions : AxisList array.shapeInfo.rank) : Except Failure (NDArray T) :=
  match applyBroadcast array.shapeInfo dimensions tadArray.shapeInfo with
  | .error message => .error (.thrown message)
  | .ok none => .error .undefined
  | .ok (some work) => .ok ⟨array.shapeInfo,
      runBroadcast op true array.buffer tadArray.buffer (run.schedule work) array.buffer⟩

end NDArray

end Routines

/-! ## Pairs -/

section Pairs

variable {T : Type} {x y : ShapeInfo}

/-- The spans of the threads fit their variable. -/
def SpanFits (settings : Settings) (length : Nat) : Prop :=
  length / numThreads length settings.elementThreshold settings.maxThreads + 8 < 2 ^ 31

instance (settings : Settings) (length : Nat) : Decidable (SpanFits settings length) :=
  inferInstanceAs (Decidable (_ < 2 ^ 31))

/-- Which elements are combined, also of arrays of two shapes. -/
theorem pairwiseInto_spec (op : T → T → T) (run : Runtime T) (dx dy : Int) (hx : x.Positive)
    (hxe : x.HonestEws) (hcells : CellsApart x) (hy : y.Positive) (hye : y.HonestEws)
    (hlength : y.length = x.length) (hrank : x.shape ≠ [])
    (hspan : SpanFits run.settings x.length) (source buffer : Int → T) :
    ∃ buffer', pairwiseInto op run x dx y dy source buffer = .ok buffer' ∧
      (∀ k < x.length, buffer' (dx + elementOffset (decide (PairsByColumns x y x)) x.axes k) =
        op (buffer (dx + elementOffset (decide (PairsByColumns x y x)) x.axes k))
          (source (dy + elementOffset (decide (PairsByColumns x y x)) y.axes k))) ∧
      ∀ i, (∀ k < x.length, i ≠ dx + elementOffset (decide (PairsByColumns x y x)) x.axes k) →
        buffer' i = buffer i := by
  obtain ⟨work, hwork, hperm⟩ := @exec_numbered x y x dx dy dx run.settings rfl hlength hrank hx hy
    hxe hye hxe hspan fun _ => rfl
  have hinj : ∀ k < x.length, ∀ k' < x.length,
      dx + elementOffset (decide (PairsByColumns x y x)) x.axes k =
        dx + elementOffset (decide (PairsByColumns x y x)) x.axes k' → k = k' :=
    fun k hk k' hk' heq => elementOffset_inj hx hcells _ hk hk' (Int.add_left_cancel heq)
  have hrun := @Stores.storeAll_of_numbered Visit Int T _ (fun v => v.2.2)
    (fun v m => op (if true then m v.1 else buffer v.1) (source v.2.1)) _ _ _
    ((run.schedule_perm work).trans hperm) hinj (fun k hk k' hk' hne m b => ?_) buffer
  · refine ⟨_, ?_, hrun⟩
    rw [pairwiseInto, if_neg (not_not.mpr hlength), hwork]
    rfl
  · have hother := fun heq => hne (hinj k hk k' hk' heq)
    simp only [numberedVisit, if_true]
    rw [Function.update_of_ne hother]

/-- Arrays of one shape are combined element by element. -/
theorem pairwiseInto_coordinates (op : T → T → T) (run : Runtime T) (dx dy : Int)
    (hx : x.Positive) (hxe : x.HonestEws) (hcells : CellsApart x) (hye : y.HonestEws) (hshape : y.shape = x.shape)
    (hrank : x.shape ≠ []) (hspan : SpanFits run.settings x.length) (source buffer : Int → T) :
    ∃ buffer', pairwiseInto op run x dx y dy source buffer = .ok buffer' ∧
      (∀ c, InBox x.shape c → buffer' (dx + dot c x.stride) =
        op (buffer (dx + dot c x.stride)) (source (dy + dot c y.stride))) ∧
      ∀ i, (∀ c, InBox x.shape c → i ≠ dx + dot c x.stride) → buffer' i = buffer i := by
  have hy : y.Positive := by rwa [ShapeInfo.Positive, hshape]
  obtain ⟨buffer', hrun, hvalue, hframe⟩ := pairwiseInto_spec op run dx dy hx hxe hcells
    hy hye (congrArg List.prod hshape) hrank hspan source buffer
  refine ⟨buffer', hrun, fun c hc => ?_, fun i hi => hframe i fun k hk heq => ?_⟩
  · obtain ⟨k, hk, rfl⟩ :=
      (bijOn_coordinateOf (decide (PairsByColumns x y x)) hx).surjOn hc
    have hk' := hvalue k hk
    rwa [elementOffset_eq_dot, elementOffset_eq_dot, hshape] at hk'
  · rw [elementOffset_eq_dot] at heq
    exact hi _ ((bijOn_coordinateOf _ hx).mapsTo hk) heq

/-- An array that is combined with another one of its shape. -/
theorem pairwise_elements (op : T → T → T) (run : Runtime T) (array other : NDArray T)
    (hpos : array.shapeInfo.Positive) (hews : array.shapeInfo.HonestEws)
    (hcells : CellsApart array.shapeInfo) (hother : other.shapeInfo.HonestEws)
    (hshape : other.shapeInfo.shape = array.shapeInfo.shape) (hrank : array.shapeInfo.shape ≠ [])
    (hspan : SpanFits run.settings array.shapeInfo.length) :
    ∃ buffer, array.pairwise op run other = .ok ⟨array.shapeInfo, buffer⟩ ∧
      ∀ c, InBox array.shapeInfo.shape c →
        (NDArray.mk array.shapeInfo buffer).element c = op (array.element c) (other.element c) := by
  obtain ⟨buffer, hrun, hvalue, -⟩ := pairwiseInto_coordinates op run 0 0 hpos hews
    hcells hother hshape hrank hspan other.buffer array.buffer
  refine ⟨buffer, ?_, fun c hc => ?_⟩
  · rw [NDArray.pairwise, hrun]
    rfl
  · have hcell : (NDArray.mk array.shapeInfo buffer).element c =
        buffer (dot c array.shapeInfo.stride) := element_eq hc
    have hc' := hvalue c hc
    rw [zero_add, zero_add] at hc'
    rw [hcell, hc', element_eq hc, element_eq (hshape ▸ hc)]

end Pairs

/-! ## Rows -/

section Rows

variable {T : Type} {array row : NDArray T} {M N : Nat} {rank : Nat} {x : ShapeInfo}

theorem kept_columnsAxis {α : Type} (hrank : rank = 2) (a b : α) :
    (columnsAxis hrank).kept [a, b] = [b] :=
  rfl

theorem columnsAxis_ne_nil (hrank : rank = 2) : (columnsAxis hrank).toList ≠ [] :=
  List.cons_ne_nil 1 []

/-- The loops of a broadcast read a line from its first element to its last. -/
theorem readsInOrder_line {info : ShapeInfo} (hpos : info.Positive) (hline : IsLine info.shape)
    (hews : info.HonestEws) {ret : ShapeInfo} {dimension : Dimensions rank} {shape : List Nat}
    (hkept : dimension.kept shape = [info.length]) : ReadsInOrder ret info dimension shape := by
  have hsame : ∀ f < info.length, elementOffset true info.axes f = elementOffset false info.axes f := by
    intro f hf
    rw [elementOffset_eq_dot, elementOffset_eq_dot, (forall_coordinateOf_iff hpos).mpr hline f hf]
  have hvolume : ∀ f < info.length, f < volume info.axes := fun f hf => by rwa [info.volume_axes]
  have horder : ∀ f < info.length, offsetAtF info.axes f = offsetAt info.axes f := by
    intro f hf
    have hboth := hsame f hf
    rwa [elementOffset_eq_ite _ _ (hvolume f hf), elementOffset_eq_ite _ _ (hvolume f hf), if_pos rfl,
      if_neg Bool.false_ne_true] at hboth
  unfold ReadsInOrder
  rw [hkept, List.prod_singleton]
  split
  · rename_i hwalk
    intro f hf
    rw [← hews hwalk.2.1 f hf, elementOffset_eq_ite _ _ (hvolume f hf)]
    split
    · exact horder f hf
    · rfl
  · right
    intro f hf
    have hindex : encode [info.length] (decodeF [info.length] f) = f := by
      simp [decodeF, decode, encode]
    rw [hindex, horder f hf]

/-- The work of a broadcast along one axis of a line with an entry for each place of the axis. -/
theorem applyBroadcast_line {y : ShapeInfo} {axes : AxisList x.rank}
    (hsingle : axes.toList.length = 1) (hrank : 1 < x.rank) (hmax : x.rank ≤ maxDimension)
    (hpos : x.Positive) (hews : x.HonestEws) (hcells : CellsApart x) (hy : y.Positive)
    (hline : IsLine y.shape) (hyews : y.HonestEws) (hkept : axes.kept x.shape = [y.length]) :
    ∃ work, applyBroadcast x axes y = .ok (some work) ∧
      ∀ (T : Type) (op : T → T → T) (inPlace : Bool),
        WritesBroadcast op x y x axes inPlace work := by
  have hne : axes.toList ≠ [] := fun hnil => by
    rw [hnil] at hsingle
    cases hsingle
  have hlength : y.length = (axes.kept x.shape).prod := by rw [hkept, List.prod_singleton]
  have hright : ∀ target : Option ShapeInfo, (∀ z, target = some z → z = x) →
      ∃ work, applyBroadcast x axes y = .ok (some work) ∧ ∀ (T : Type) (op : T → T → T),
        WritesBroadcast op x y (target.getD x) axes target.isNone work := by
    intro target hsame
    refine writesBroadcast_of_right hpos hews hmax hlength (fun z hz => by rw [hsame z hz]) ?_
    exact
      { ne_nil := hne
        axes_left := Or.inl (hsingle.trans_lt hrank)
        strides_eq := fun z hz => by rw [hsame z hz]
        starts := Or.inl ((length_sort axes hne).trans hsingle)
        cells := by
          intro c c' hc hc' heq
          have hsame := hcells c c' hc hc' heq
          split
          · exact hsame
          · rw [hsame]
        reads := fun ret _ => readsInOrder_line hy hline hyews (by rw [kept_sort, hkept]) }
  obtain ⟨work, hwork, hinto⟩ := hright none fun z hz => by cases hz
  obtain ⟨work', hwork', haside⟩ := hright (some x) fun z hz => (Option.some.inj hz).symm
  rw [hwork, Except.ok.injEq, Option.some.injEq] at hwork'
  subst hwork'
  refine ⟨work, hwork, fun T op inPlace => ?_⟩
  cases inPlace with
  | false => exact haside T op
  | true => exact hinto T op

/-- The element of a line that a broadcast along the columns reads. -/
theorem broadcastOffset_line (hshape : array.shapeInfo.shape = [M, N])
    (hpos : row.shapeInfo.Positive) (hlength : row.shapeInfo.length = N)
    (hrank : array.shapeInfo.rank = 2) {r c : Nat} (hc : c < N) :
    row.buffer (broadcastOffset array.shapeInfo row.shapeInfo (columnsAxis hrank) [r, c]) =
      row.element (decode row.shapeInfo.shape c) := by
  have hbox : InBox row.shapeInfo.shape (decode row.shapeInfo.shape c) :=
    inBox_decode hpos (hc.trans_eq hlength.symm)
  have hindex : encode [N] [c] = c := by simp [encode]
  rw [element_eq hbox, broadcastOffset, hshape, kept_columnsAxis, kept_columnsAxis, hindex,
    offsetAt_eq_dot, ShapeInfo.dims_axes, ShapeInfo.map_snd_axes]

/-- A line is combined with every row of a matrix. -/
theorem broadcastColumns_spec (array row : NDArray T) (op : T → T → T) (run : Runtime T)
    (hshape : array.shapeInfo.shape = [M, N]) (hM : 0 < M) (hN : 0 < N)
    (hews : array.shapeInfo.HonestEws) (hcells : CellsApart array.shapeInfo)
    (hpos : row.shapeInfo.Positive) (hline : IsLine row.shapeInfo.shape)
    (hlength : row.shapeInfo.length = N) (hrowEws : row.shapeInfo.HonestEws)
    (hrank : array.shapeInfo.rank = 2) :
    ∃ buffer, array.broadcastAlong op run row (columnsAxis hrank) = .ok ⟨array.shapeInfo, buffer⟩ ∧
      ∀ r < M, ∀ c < N, (NDArray.mk array.shapeInfo buffer).element [r, c] =
        op (array.element [r, c]) (row.element (decode row.shapeInfo.shape c)) := by
  have hpositive : array.shapeInfo.Positive := by
    rw [ShapeInfo.Positive, hshape]
    simp [hM, hN]
  obtain ⟨work, hwork, hwrites⟩ := @applyBroadcast_line array.shapeInfo row.shapeInfo
    (columnsAxis hrank) rfl (by omega) (by rw [hrank]; decide) hpositive hews hcells hpos hline
    hrowEws (by rw [hshape, kept_columnsAxis, hlength])
  refine ⟨_, by rw [NDArray.broadcastAlong, hwork], fun r hr c hc => ?_⟩
  have hbox : InBox array.shapeInfo.shape [r, c] := by
    rw [hshape]
    exact .cons hr (.cons hc .nil)
  have hvalue := (hwrites T op true _ (run.schedule_perm work) array.buffer row.buffer array.buffer
    fun _ => rfl).1 [r, c] hbox
  rw [broadcastOffset_line hshape hpos hlength hrank hc] at hvalue
  have hcell : ∀ buffer : Int → T, (NDArray.mk array.shapeInfo buffer).element [r, c] =
      buffer (dot [r, c] array.shapeInfo.stride) := fun buffer => element_eq hbox
  rw [hcell, element_eq hbox]
  exact hvalue

/-- A line of another length is refused. -/
theorem broadcastColumns_of_length (op : T → T → T) (run : Runtime T)
    (hshape : array.shapeInfo.shape = [M, N]) (hrank : array.shapeInfo.rank = 2)
    (hrow : row.shapeInfo.length ≠ N) :
    array.broadcastAlong op run row (columnsAxis hrank) = .error (.thrown "Tad length mismatch") := by
  have hne := columnsAxis_ne_nil hrank
  have hlength : Shape.tadLength array.shapeInfo.shape ((columnsAxis hrank).sort hne).toList = N := by
    rw [tadLength_eq ((columnsAxis hrank).sort hne) rfl, kept_sort, hshape, kept_columnsAxis,
      List.prod_singleton]
  rw [NDArray.broadcastAlong, applyBroadcast]
  simp only
  rw [dif_neg hne, if_pos (by rw [hlength]; exact hrow.symm)]

/-! ## Row vectors -/

/-- Every row of a matrix is combined with a row vector, in the cells of the matrix. -/
def CombinesRows (x row : ShapeInfo) (M N : Nat) (inPlace : Bool) (work : List (List Visit)) :
    Prop :=
  ∀ (T : Type) (op : T → T → T) (schedule : List Visit), schedule.Perm work.flatten →
    ∀ xs ys zs : Int → T, (inPlace → zs = xs) →
      (∀ r < M, ∀ c < N, runBroadcast op inPlace xs ys schedule zs (dot [r, c] x.stride) =
        op (xs (dot [r, c] x.stride)) (ys (dot [0, c] row.stride))) ∧
      ∀ cell, (∀ r < M, ∀ c < N, cell ≠ dot [r, c] x.stride) →
        runBroadcast op inPlace xs ys schedule zs cell = zs cell

theorem inBox_pair {r c : Nat} : InBox [M, N] [r, c] ↔ r < M ∧ c < N := by
  simp [InBox]

theorem isLine_row (N : Nat) : IsLine [1, N] := by
  by_cases hN : N = 1
  · simp [IsLine, hN]
  · simp [IsLine, hN]

theorem isRowVectorArray_row {info : ShapeInfo} (hshape : info.shape = [1, N]) :
    isRowVectorArray info = true ↔ N ≠ 1 := by
  simp [isRowVectorArray, isScalar, isRowVector, isVector, ShapeInfo.rank, hshape]

/-- What a broadcast along the columns of a matrix writes. -/
theorem combinesRows_of_writes {row : ShapeInfo} (hshape : x.shape = [M, N])
    (hrow : row.shape = [1, N]) (hrank : x.rank = 2) {inPlace : Bool} {work : List (List Visit)}
    (h : ∀ (T : Type) (op : T → T → T), WritesBroadcast op x row x (columnsAxis hrank) inPlace work)
    :
    CombinesRows x row M N inPlace work := by
  intro T op schedule hschedule xs ys zs hplace
  obtain ⟨hvalue, hframe⟩ := h T op schedule hschedule xs ys zs hplace
  refine ⟨fun r hr c hc => ?_, fun cell hcell => hframe cell fun coords hcoords => ?_⟩
  · have hoffset : broadcastOffset x row (columnsAxis hrank) [r, c] = dot [0, c] row.stride := by
      have hindex : encode [N] [c] = c := by simp [encode]
      rw [broadcastOffset, hshape, kept_columnsAxis, kept_columnsAxis, hindex, offsetAt_eq_dot,
        ShapeInfo.dims_axes, ShapeInfo.map_snd_axes, hrow]
      simp [decode, Nat.div_eq_of_lt hc, Nat.mod_eq_of_lt hc]
    rw [← hoffset]
    exact hvalue [r, c] (hshape ▸ inBox_pair.mpr ⟨hr, hc⟩)
  · rw [hshape] at hcoords
    rcases hcoords with - | ⟨hr, - | ⟨hc, - | -⟩⟩
    exact hcell _ hr _ hc

/-- The row vector operations return, and combine the rows. -/
theorem rowVector_spec (opNum : Nat) (message : String) {row target : ShapeInfo}
    (hshape : x.shape = [M, N]) (hM : 0 < M) (hN : 2 ≤ N) (hews : x.HonestEws)
    (hcells : CellsApart x) (htarget : target.shape = [M, N]) (hrow : row.shape = [1, N])
    (hrowEws : row.HonestEws) :
    ∃ work, rowVector opNum message x row target = .ok (opNum, some work) ∧
      ∀ inPlace, CombinesRows x row M N inPlace work := by
  have hrank : x.rank = 2 := by rw [ShapeInfo.rank, hshape]; rfl
  have hpos : x.Positive := by
    rw [ShapeInfo.Positive, hshape]
    simp only [List.mem_cons, List.not_mem_nil, or_false]
    rintro d (rfl | rfl) <;> omega
  have hrowPos : row.Positive := by
    rw [ShapeInfo.Positive, hrow]
    simp only [List.mem_cons, List.not_mem_nil, or_false]
    rintro d (rfl | rfl) <;> omega
  have hline : IsLine row.shape := by
    rw [hrow]
    exact isLine_row N
  have hlength : row.length = N := by simp [ShapeInfo.length, hrow]
  have hmatches : row.length = ((columnsAxis hrank).kept x.shape).prod := by
    rw [hshape, kept_columnsAxis, List.prod_singleton, hlength]
  have haccepts : ¬ (x.rank ≠ 2 ∨ target.rank ≠ 2 ∨ x.shape.getD 0 0 ≠ target.shape.getD 0 0 ∨
      x.shape.getD 1 0 ≠ target.shape.getD 1 0 ∨ ¬ isRowVectorArray row ∨
      x.shape.getD 1 0 ≠ row.shape.getD 1 0) := by
    have hvector := (isRowVectorArray_row hrow).mpr (by omega)
    simp [hshape, htarget, hrow, hvector, ShapeInfo.rank]
  obtain ⟨result, hresult⟩ : ∃ result, rowVector opNum message x row target =
      .ok (opNum, result) := by
    unfold rowVector
    rw [dif_neg haccepts]
    exact ⟨_, rfl⟩
  have happly := (rowVector_eq (columnsAxis_ne_nil hrank) hmatches rfl hresult).2
  obtain ⟨work, hwork, hwrites⟩ := @applyBroadcast_line x row (columnsAxis hrank) rfl (by omega)
    (by rw [hrank]; decide) hpos hews hcells hrowPos hline hrowEws
    (by rw [hshape, kept_columnsAxis, hlength])
  rw [happly, Except.ok.injEq] at hwork
  exact ⟨work, by rw [hresult, hwork], fun inPlace =>
    combinesRows_of_writes hshape hrow hrank fun T op => hwrites T op inPlace⟩

end Rows

end Arrays
end LibND4J
