import LibND4J.Arrays.Reshapei
import LibND4J.Loops.Broadcast
import LibND4J.Shape.HonestSlots

/-!
# Operations on arrays

The routines of `NDArray` that the operations on images are made of, on whole arrays.  What
the machine decides, such as the order in which the threads of a loop do their work, is a
parameter; the results are those of every machine.

Main results:

- Theorem `reshape_view` and `reshape_copy`: a reshaped array keeps its buffer if it can
  be viewed, and is copied in C order otherwise.
- Theorem `assign_spec` and `dup_spec`: the elements of a copy.
- Theorem `addiRowVector_spec`: a row is added to every row of a matrix.
-/

namespace LibND4J
namespace Arrays

open Strided Shape

/-- What the machine decides: the settings of the loops, the order in which the work of the threads
is done, the order of the iterations of a parallel loop, and what memory holds before it is
written. -/
structure Runtime (T : Type) where
  settings : Loops.Settings
  schedule : List (List Loops.Visit) → List Loops.Visit
  schedule_perm : ∀ work, (schedule work).Perm work.flatten
  iterations : Nat → List Nat
  iterations_perm : ∀ n, (iterations n).Perm (List.range n)
  fresh : Int → T

/-- One thread that does its work in the order of the loops. -/
def oneThread {T : Type} (fresh : Int → T) : Runtime T where
  settings := Loops.Settings.initial 1 Nat.one_pos
  schedule := List.flatten
  schedule_perm := fun _ => List.Perm.refl _
  iterations := List.range
  iterations_perm := fun _ => List.Perm.refl _
  fresh := fresh

/-- Why a routine does not return an array: it throws, a condition of the operation fails, or it
follows a null pointer or reads past an array. -/
inductive Failure
  | thrown (message : String)
  | validation (message : String)
  | undefined
deriving DecidableEq, Repr

/-! ## The routines -/

/-- The shape information of a new array: every order but `f` is the C order. -/
def newShapeInfo (order : Char) (shape : List Nat) : ShapeInfo :=
  if order = 'f' then shapeBufferFortran shape else shapeBuffer shape

/-- Shape information with another element-wise stride. -/
def withEws (info : ShapeInfo) (elementWiseStride : Int) : ShapeInfo :=
  { info with elementWiseStride := elementWiseStride }

namespace NDArray

variable {T : Type}

/-- The constructor from an order and a shape. -/
def ofShape [Zero T] (order : Char) (shape : List Nat) : NDArray T :=
  ⟨newShapeInfo order shape, fun _ => 0⟩

/-- The constructor from rows and columns; it sets the slot of the element-wise stride. -/
def ofMatrix [Zero T] (rows columns : Nat) (order : Char) : NDArray T :=
  ⟨withEws (newShapeInfo order [rows, columns]) 1, fun _ => 0⟩

/-- `NDArray::permute`. -/
def permute (array : NDArray T) (dimensions : List Nat) : Except Failure (NDArray T) :=
  if dimensions.length ≠ array.shapeInfo.rank then
    .error (.thrown ("Wrong arguments in permute method: either array is nullptr or rank is not " ++
      "suitable!"))
  else .ok ⟨permuteShapeBuffer array.shapeInfo dimensions, array.buffer⟩

/-- `NDArray::permutei`; for another rank it returns with nothing changed. -/
def permutei (array : NDArray T) (dimensions : List Nat) : NDArray T :=
  if dimensions.length ≠ array.shapeInfo.rank then array
  else ⟨permuteShapeBuffer array.shapeInfo dimensions, array.buffer⟩

/-- `NDArray::reshapei`, and `NDArray::reshape`, which does the same to a second array on the
buffer. -/
def reshape (run : Runtime T) (order : Char) (cshape : List Int) (array : NDArray T) :
    Except Failure (NDArray T) :=
  match reshapei run.settings order cshape array.shapeInfo with
  | .error message => .error (.thrown message)
  | .ok none => .error .undefined
  | .ok (some (.view shapeInfoNew)) => .ok ⟨shapeInfoNew, array.buffer⟩
  | .ok (some (.copy shapeInfoNew work)) =>
      .ok ⟨shapeInfoNew, runCopies array.buffer (run.schedule work) run.fresh⟩

/-- `NDArray::assign`, from an array that shares no cell with this one. -/
def assign (run : Runtime T) (array other : NDArray T) : Except Failure (NDArray T) :=
  if other.shapeInfo.length ≠ array.shapeInfo.length then
    .error (.thrown "Lengths of arrays are mismatched")
  else if array.shapeInfo.order = other.shapeInfo.order ∧
      array.shapeInfo.elementWiseStride = 1 ∧ other.shapeInfo.elementWiseStride = 1 then
    .ok ⟨array.shapeInfo, Stores.storeAll (fun i : Nat => (i : Int)) (fun i _ => other.buffer i)
      (List.range array.shapeInfo.length) array.buffer⟩
  else
    match Loops.exec array.shapeInfo.length run.settings array.shapeInfo other.shapeInfo
        array.shapeInfo 0 0 0 with
    | none => .error .undefined
    | some work =>
        .ok ⟨array.shapeInfo, runCopies other.buffer (run.schedule work) array.buffer⟩

/-- `NDArray::dup`; it sets the slot of the element-wise stride before it assigns. -/
def dup (run : Runtime T) (newOrder : Char) (array : NDArray T) : Except Failure (NDArray T) :=
  assign run ⟨withEws (newShapeInfo newOrder array.shapeInfo.shape) 1, run.fresh⟩ array

/-- `NDArray::addiRowVector`. -/
def addiRowVector [Add T] (run : Runtime T) (array row : NDArray T) : Except Failure (NDArray T) :=
  if h : array.shapeInfo.rank ≠ 2 ∨ ¬ Loops.isRowVectorArray row.shapeInfo ∨
      array.shapeInfo.shape.getD 1 0 ≠ row.shapeInfo.shape.getD 1 0 then
    .error (.thrown "NDArray::addiRowVector: wrong arguments !")
  else
    have hrank : array.shapeInfo.rank = 2 := not_not.mp fun hne => h (Or.inl hne)
    let dimension := (Loops.columnsAxis hrank).sort (one_ne_nil)
    let tad := TAD.init array.shapeInfo dimension
    match tad.shapeInfoOnlyShapeAndStride with
    | none => .error .undefined
    | some tadOnlyShapeInfo =>
        let work := Loops.broadcastExec array.shapeInfo row.shapeInfo dimension tadOnlyShapeInfo
          tad.createOffsets tadOnlyShapeInfo tad.createOffsets
        .ok ⟨array.shapeInfo, Loops.runBroadcast (fun d1 d2 => d1 + d2) true array.buffer row.buffer
          (run.schedule work) array.buffer⟩

end NDArray

/-- A list of calls that all return. -/
theorem mapM_eq_ok {α β ε : Type} {f : α → Except ε β} {g : α → β} {xs : List α}
    (h : ∀ a ∈ xs, f a = .ok (g a)) : xs.mapM f = .ok (xs.map g) := by
  induction xs with
  | nil => rfl
  | cons a xs ih =>
      rw [List.mapM_cons, h a List.mem_cons_self, ih fun b hb => h b (List.mem_cons_of_mem _ hb)]
      rfl

/-! ## Elements -/

section Elements

variable {T : Type} {array : NDArray T} {info : ShapeInfo} {shape : List Nat} {order : Char}
    {c : List Nat}

theorem element_eq (hc : InBox array.shapeInfo.shape c) :
    array.element c = array.buffer (dot c array.shapeInfo.stride) := by
  rw [NDArray.element, getOffset_eq hc array.shapeInfo.stride_length, zero_add]

@[simp]
theorem shape_newShapeInfo (order : Char) (shape : List Nat) :
    (newShapeInfo order shape).shape = shape := by
  rw [newShapeInfo]
  split <;> simp

@[simp]
theorem shape_withEws (info : ShapeInfo) (e : Int) : (withEws info e).shape = info.shape :=
  rfl

@[simp]
theorem stride_withEws (info : ShapeInfo) (e : Int) : (withEws info e).stride = info.stride :=
  rfl

@[simp]
theorem axes_withEws (info : ShapeInfo) (e : Int) : (withEws info e).axes = info.axes :=
  rfl

theorem newShapeInfo_eq (horder : order = 'c' ∨ order = 'f') (shape : List Nat) :
    newShapeInfo order shape = freshShapeInfo order shape := by
  rcases horder with rfl | rfl <;> rfl

theorem order_newShapeInfo (horder : order = 'c' ∨ order = 'f') (shape : List Nat) :
    (newShapeInfo order shape).order = order := by
  rw [newShapeInfo_eq horder, order_freshShapeInfo horder]

/-- The elements lie one after the other. -/
def Consecutive (isFOrder : Bool) (info : ShapeInfo) : Prop :=
  ∀ k < info.length, elementOffset isFOrder info.axes k = k

/-- The cell of an element of a dense array. -/
theorem Consecutive.dot_eq {isFOrder : Bool} (h : Consecutive isFOrder info) {k : Nat} (hk : k < info.length) :
    dot (coordinateOf isFOrder info.shape k) info.stride = k := by
  rw [← h k hk, elementOffset, ShapeInfo.dims_axes, ShapeInfo.map_snd_axes]
  cases isFOrder <;> rfl

/-- The cell of a coordinate of a dense array in C order. -/
theorem Consecutive.dot_encode (h : Consecutive false info) (hc : InBox info.shape c) :
    dot c info.stride = encode info.shape c := by
  have hcell := h.dot_eq (encode_lt hc)
  rwa [show coordinateOf false info.shape (encode info.shape c) = c from decode_encode hc] at hcell

theorem Consecutive.cellsApart {isFOrder : Bool} (h : Consecutive isFOrder info) (hpos : info.Positive) :
    CellsApart info :=
  fun _ _ hc hc' heq => injOn_dense hpos h hc hc' heq

theorem dense_newShapeInfo (horder : order = 'c' ∨ order = 'f') (shape : List Nat) :
    Consecutive (order = 'f') (newShapeInfo order shape) := by
  intro k hk
  rw [ShapeInfo.length, shape_newShapeInfo] at hk
  rcases horder with rfl | rfl
  · have hdense := elementOffset_calcStrides hk
    rw [← axes_shapeBuffer] at hdense
    exact hdense
  · have hdense := elementOffset_calcStridesFortran hk
    rw [← axes_shapeBufferFortran] at hdense
    exact hdense

/-- The cell of a coordinate of a new array in C order. -/
theorem dot_shapeBuffer (hc : InBox shape c) :
    dot c (newShapeInfo 'c' shape).stride = encode shape c := by
  have hcell := (dense_newShapeInfo (Or.inl rfl) shape).dot_eq (k := encode shape c)
    (by
      rw [ShapeInfo.length, shape_newShapeInfo]
      exact encode_lt hc)
  have hcoordinate : coordinateOf (decide ('c' = 'f')) shape (encode shape c) = c :=
    decode_encode hc
  rwa [shape_newShapeInfo, hcoordinate] at hcell

/-- The element of a new array in C order. -/
theorem element_shapeBuffer {buffer : Int → T} (hc : InBox shape c) :
    (NDArray.mk (shapeBuffer shape) buffer).element c = buffer (encode shape c) := by
  have hbox : InBox (shapeBuffer shape).shape c := by rwa [shape_shapeBuffer]
  rw [element_eq hbox]
  exact congrArg buffer (dot_shapeBuffer hc)

/-- Enumerating a new array in C order in F order transposes the indices. -/
theorem elementOffset_shapeBuffer (hpos : ∀ d ∈ shape, 0 < d) {k : Nat} (hk : k < shape.prod) :
    elementOffset true (shapeBuffer shape).axes k = transposeIndex shape k := by
  have hcell : dot (decodeF shape k) (shapeBuffer shape).stride =
      encode shape (decodeF shape k) := dot_shapeBuffer ((bijOn_decodeF hpos).mapsTo hk)
  rw [elementOffset, if_pos rfl, ShapeInfo.dims_axes, ShapeInfo.map_snd_axes, shape_shapeBuffer,
    hcell, transposeIndex]

/-- The elements of a buffer with one cell that is not zero. -/
theorem element_single [Zero T] {c₀ : List Nat} (hc : InBox shape c) (hc₀ : InBox shape c₀)
    (v : T) : (NDArray.mk (shapeBuffer shape) (Pi.single (encode shape c₀ : Int) v)).element c =
      if c = c₀ then v else 0 := by
  rw [element_shapeBuffer hc, Pi.single_apply]
  by_cases heq : c = c₀
  · rw [if_pos (congrArg (fun d => (encode shape d : Int)) heq), if_pos heq]
  · rw [if_neg heq, if_neg]
    intro hcell
    exact heq (encode_inj hc hc₀ (Int.ofNat_inj.mp hcell))

theorem positive_newShapeInfo (hpos : ∀ d ∈ shape, 0 < d) (order : Char) :
    (newShapeInfo order shape).Positive :=
  fun d hd => hpos d (shape_newShapeInfo order shape ▸ hd)

theorem cellsApart_newShapeInfo (horder : order = 'c' ∨ order = 'f') (hpos : ∀ d ∈ shape, 0 < d) :
    CellsApart (newShapeInfo order shape) :=
  (dense_newShapeInfo horder shape).cellsApart (positive_newShapeInfo hpos order)

theorem honestEws_newShapeInfo (horder : order = 'c' ∨ order = 'f') (hpos : ∀ d ∈ shape, 0 < d) :
    (newShapeInfo order shape).HonestEws := by
  rw [newShapeInfo_eq horder]
  exact honestEws_freshShapeInfo order hpos

end Elements

/-! ## Views -/

section Views

variable {T : Type} {array : NDArray T} {shape : List Nat} {order : Char} {cshape : List Int}

/-- A shape without negative extents is taken as it is. -/
theorem admissible_of_nat {lengthOf : Nat} (hpos : ∀ d ∈ shape, 0 < d)
    (hprod : shape.prod = lengthOf) : Admissible lengthOf (shape.map Nat.cast) shape where
  resolves := by
    have hnone : (shape.map (Nat.cast : Nat → Int)).findIdx? (· < 0) = none := by
      rw [List.findIdx?_eq_none_iff]
      intro d hd
      obtain ⟨n, -, rfl⟩ := List.mem_map.mp hd
      simp
    rw [resolveShape, hnone]
  positive := hpos
  prod_eq := hprod

/-- An extent of minus one behind another one. -/
theorem admissible_columns {rows n : Nat} (hrows : 0 < rows) (hn : 0 < n) :
    Admissible (rows * n) [(rows : Int), -1] [rows, n] where
  resolves := by
    have hfilter : ([(rows : Int), -1].filter (· ≥ 1)) = [(rows : Int)] := by
      have hone : (1 : Int) ≤ rows := by omega
      simp [hone]
    have hquotient : (((rows * n : Nat) : Int) / rows).natAbs = n := by
      rw [Nat.cast_mul, Int.mul_ediv_cancel_left _ (by omega), Int.natAbs_natCast]
    have hfirst : [(rows : Int), -1].findIdx? (· < 0) = some 1 := by
      have hnot : ¬ ((rows : Int) < 0) := by omega
      simp [List.findIdx?_cons, hnot]
    rw [resolveShape, hfirst]
    simp only [hfilter, List.prod_singleton, hquotient]
    rfl
  positive := by simp [hrows, hn]
  prod_eq := by rw [List.prod_cons, List.prod_singleton]

/-- An extent of minus one before another one. -/
theorem admissible_rows {rows n : Nat} (hrows : 0 < rows) (hn : 0 < n) :
    Admissible (rows * n) [-1, (n : Int)] [rows, n] where
  resolves := by
    have hfilter : ([-1, (n : Int)].filter (· ≥ 1)) = [(n : Int)] := by
      have hone : (1 : Int) ≤ n := by omega
      simp [hone]
    have hquotient : (((rows * n : Nat) : Int) / n).natAbs = rows := by
      rw [Nat.cast_mul, Int.mul_ediv_cancel _ (by omega), Int.natAbs_natCast]
    have hfirst : [-1, (n : Int)].findIdx? (· < 0) = some 0 := rfl
    rw [resolveShape, hfirst]
    simp only [hfilter, List.prod_singleton, hquotient]
    rfl
  positive := by simp [hrows, hn]
  prod_eq := by rw [List.prod_cons, List.prod_singleton]

variable {dimensions : List Nat} {info : ShapeInfo} {isFOrder : Bool}

theorem permute_eq (h : dimensions.length = array.shapeInfo.rank) :
    array.permute dimensions = .ok ⟨permuteShapeBuffer array.shapeInfo dimensions, array.buffer⟩ := by
  rw [NDArray.permute, if_neg (not_not.mpr h)]

theorem permutei_eq (h : dimensions.length = array.shapeInfo.rank) :
    array.permutei dimensions = ⟨permuteShapeBuffer array.shapeInfo dimensions, array.buffer⟩ := by
  rw [NDArray.permutei, if_neg (not_not.mpr h)]

theorem fst_getD_axes (info : ShapeInfo) (i : Nat) :
    (info.axes.getD i default).1 = info.shape.getD i 0 := by
  rw [← info.dims_axes, dims, List.getD_eq_getElem?_getD, List.getD_eq_getElem?_getD,
    List.getElem?_map]
  cases info.axes[i]? <;> rfl

theorem snd_getD_axes (info : ShapeInfo) (i : Nat) :
    (info.axes.getD i default).2 = info.stride.getD i 0 := by
  rw [← info.map_snd_axes, List.getD_eq_getElem?_getD, List.getD_eq_getElem?_getD,
    List.getElem?_map]
  cases info.axes[i]? <;> rfl

variable (hperm : dimensions.Perm (List.range info.rank))

include hperm

/-- A permutation of the axes permutes the extents. -/
theorem shape_permuteShapeBuffer :
    (permuteShapeBuffer info dimensions).shape = dimensions.map (info.shape.getD · 0) := by
  rw [← ShapeInfo.dims_axes, axes_permuteShapeBuffer hperm, dims, List.map_map]
  exact List.map_congr_left fun i _ => fst_getD_axes info i

/-- A permutation of the axes permutes the strides. -/
theorem stride_permuteShapeBuffer :
    (permuteShapeBuffer info dimensions).stride = dimensions.map (info.stride.getD · 0) := by
  rw [← ShapeInfo.map_snd_axes, axes_permuteShapeBuffer hperm, List.map_map]
  exact List.map_congr_left fun i _ => snd_getD_axes info i

/-- A permutation of the axes permutes the coordinates of the elements. -/
theorem element_permuteShapeBuffer {buffer : Int → T} {c : List Nat} (hc : InBox info.shape c) :
    (NDArray.mk (permuteShapeBuffer info dimensions) buffer).element
        (dimensions.map (c.getD · 0)) = (NDArray.mk info buffer).element c := by
  have hlength : c.length = info.rank := hc.length_eq.symm
  have hbox : InBox (permuteShapeBuffer info dimensions).shape (dimensions.map (c.getD · 0)) := by
    rw [shape_permuteShapeBuffer hperm]
    exact inBox_map_getD hc fun i hi => List.mem_range.mp (hperm.mem_iff.mp hi)
  rw [element_eq hbox, element_eq hc]
  apply congrArg buffer
  rw [stride_permuteShapeBuffer hperm]
  exact dot_map_getD (by rwa [hlength]) (by rw [info.stride_length, hc.length_eq])

omit hperm

/-- The slots that a view gets. -/
theorem reshapeCF_slots {target : ShapeInfo} (h : reshapeCF info shape isFOrder = .yes target) :
    target.order = (if isFOrder then 'f' else 'c') ∧ target.elementWiseStride = -1 := by
  unfold reshapeCF at h
  split at h
  · cases h
  · cases h
  · cases h
    exact ⟨rfl, rfl⟩

/-- Strides that show the elements in the order of the flag are found. -/
theorem canReshape_of_sameElements (hpos : info.Positive) (hshape : ∀ d ∈ shape, 0 < d)
    {strides : List Int} (hlength : strides.length = shape.length)
    (hsame : SameElements isFOrder (shape.zip strides) info.axes) :
    canReshape info shape isFOrder = .yes () := by
  rcases reshape_cases hpos hshape isFOrder with ⟨hyes, -⟩ | ⟨-, -, hnone⟩
  · exact hyes
  · exact absurd hsame (hnone strides hlength)

/-- An array that can be viewed keeps its buffer. -/
theorem reshape_view (run : Runtime T) (hpos : array.shapeInfo.Positive)
    (horder : order = 'c' ∨ order = 'f') (hadm : Admissible array.shapeInfo.length cshape shape)
    (hyes : canReshape array.shapeInfo shape (order = 'f') = .yes ()) :
    ∃ target, array.reshape run order cshape = .ok ⟨target, array.buffer⟩ ∧
      target.shape = shape ∧ target.order = order ∧ target.elementWiseStride = -1 ∧
      SameElements (order = 'f') target.axes array.shapeInfo.axes := by
  rcases reshape_cases hpos hadm.positive (decide (order = 'f')) with
    ⟨-, target, htarget, hshape, hview⟩ | ⟨hno, -⟩
  · obtain ⟨hslot, hews⟩ := reshapeCF_slots htarget
    refine ⟨target, ?_, hshape, ?_, hews, hview⟩
    · rw [NDArray.reshape, reshapei_eq run.settings hadm, hyes, htarget]
    · rw [hslot]
      rcases horder with rfl | rfl <;> rfl
  · rw [hyes] at hno
    cases hno

/-- A dense array is viewed, and the view is dense. -/
theorem reshape_dense (run : Runtime T) (hpos : array.shapeInfo.Positive)
    (horder : order = 'c' ∨ order = 'f') (hadm : Admissible array.shapeInfo.length cshape shape)
    (hdense : Consecutive (order = 'f') array.shapeInfo) :
    ∃ target, array.reshape run order cshape = .ok ⟨target, array.buffer⟩ ∧
      target.shape = shape ∧ target.order = order ∧ target.elementWiseStride = -1 ∧
      Consecutive (order = 'f') target := by
  have hlength : (newShapeInfo order shape).length = array.shapeInfo.length := by
    rw [ShapeInfo.length, shape_newShapeInfo, hadm.prod_eq]
  -- the strides of a new array view the dense one
  have hyes : canReshape array.shapeInfo shape (order = 'f') = .yes () := by
    have haxes : shape.zip (newShapeInfo order shape).stride = (newShapeInfo order shape).axes := by
      rw [ShapeInfo.axes, shape_newShapeInfo]
    have hstrides : (newShapeInfo order shape).stride.length = shape.length := by
      rw [ShapeInfo.stride_length, shape_newShapeInfo]
    refine canReshape_of_sameElements hpos hadm.positive hstrides ?_
    rw [haxes]
    refine ⟨by rw [ShapeInfo.volume_axes, ShapeInfo.volume_axes, hlength], fun k hk => ?_⟩
    rw [ShapeInfo.volume_axes] at hk
    rw [dense_newShapeInfo horder shape k hk, hdense k (hlength ▸ hk)]
  obtain ⟨target, htarget, hshape, hslot, hews, hview⟩ := reshape_view run hpos horder hadm hyes
  refine ⟨target, htarget, hshape, hslot, hews, fun k hk => ?_⟩
  rw [← target.volume_axes] at hk
  have hold : k < array.shapeInfo.length := by rwa [hview.1, ShapeInfo.volume_axes] at hk
  rw [hview.2 k hk, hdense k hold]

/-- Reversing the axes turns the C order into the F order. -/
theorem Consecutive.reverseAxes (h : Consecutive false info) :
    Consecutive true (reverseAxes info) := by
  intro k hk
  have hlength : (Shape.reverseAxes info).length = info.length := by
    rw [← ShapeInfo.volume_axes, axes_reverseAxes, volume_reverse, ShapeInfo.volume_axes]
  rw [hlength] at hk
  have hold := h k hk
  rw [elementOffset_eq_ite _ _ (by rwa [ShapeInfo.volume_axes])] at hold
  rw [elementOffset_eq_ite _ _ (by rwa [ShapeInfo.volume_axes, hlength]), axes_reverseAxes,
    if_pos rfl, offsetAtF, List.reverse_reverse]
  exact hold

/-- The elements that a view shows are those of the array, in the order of the flag. -/
theorem element_view {target : ShapeInfo} (hpos : array.shapeInfo.Positive)
    (htarget : target.Positive) (hview : SameElements isFOrder target.axes array.shapeInfo.axes)
    {k : Nat} (hk : k < array.shapeInfo.length) :
    (NDArray.mk target array.buffer).element (coordinateOf isFOrder target.shape k) =
      array.element (coordinateOf isFOrder array.shapeInfo.shape k) := by
  have hlength : target.length = array.shapeInfo.length := by
    rw [← target.volume_axes, hview.1, ShapeInfo.volume_axes]
  have hnew := element_coordinateOf ⟨target, array.buffer⟩ htarget isFOrder (hlength.symm ▸ hk)
  have hold := element_coordinateOf array hpos isFOrder hk
  have hsame := hview.2 k (by rw [target.volume_axes, hlength]; exact hk)
  rw [hnew, hold]
  exact congrArg array.buffer hsame

/-- An array that cannot be viewed is copied in C order. -/
theorem reshape_copy (run : Runtime T) (hpos : array.shapeInfo.Positive)
    (hews : array.shapeInfo.HonestEws) (horder : order = 'c' ∨ order = 'f')
    (hadm : Admissible array.shapeInfo.length cshape shape)
    (hno : canReshape array.shapeInfo shape (order = 'f') = .no) :
    ∃ buffer, array.reshape run order cshape = .ok ⟨freshShapeInfo order shape, buffer⟩ ∧
      ∀ k < array.shapeInfo.length,
        (NDArray.mk (freshShapeInfo order shape) buffer).element (decode shape k) =
          array.element (decode array.shapeInfo.shape k) := by
  have hslot := not_copiesBySlot hews hpos horder hadm.positive hadm.prod_eq
  obtain ⟨r, hr, hpairs⟩ := reshapei_spec run.settings hpos horder hadm hslot
  have hpairs : Pairs false array.shapeInfo shape r := by
    rcases hpairs with ⟨hyes, -⟩ | ⟨-, hpairs⟩
    · rw [hno] at hyes
      cases hyes
    · exact hpairs
  rw [reshapei_eq run.settings hadm, hno] at hr
  simp only [Except.ok.injEq] at hr
  obtain ⟨work, hwork, rfl⟩ := Option.map_eq_some_iff.mp hr
  refine ⟨runCopies array.buffer (run.schedule work) run.fresh, ?_, fun k hk => ?_⟩
  · rw [NDArray.reshape, reshapei_eq run.settings hadm, hno]
    simp only
    rw [hwork]
    rfl
  · exact hpairs.element_eq
      (.copy (freshShapeInfo order shape) work _ (run.schedule_perm work) run.fresh) k hk

end Views

/-! ## Copies -/

section Copies

variable {T : Type} {array other : NDArray T} {order : Char}

/-- With an honest slot of one the elements lie one after the other. -/
theorem consecutive_of_ews {info : ShapeInfo} (hews : info.HonestEws)
    (hone : info.elementWiseStride = 1) : Consecutive info.isFOrder info := by
  intro k hk
  have hcell := hews (by rw [hone]) k hk
  rwa [hone, mul_one] at hcell

/-- Fresh strides are dense. -/
theorem consecutive_updateStrides (shape : List Nat) {order : Char}
    (horder : order = 'c' ∨ order = 'f') :
    Consecutive (order = 'f') (updateStrides shape order) := by
  have hews := honestSlots_updateStrides shape order horder
  have hflag : (updateStrides shape order).isFOrder = decide (order = 'f') := isFOrder_eq rfl
  rw [← hflag]
  exact consecutive_of_ews hews rfl

variable (run : Runtime T)

/-- A copy has the elements of its source, if a slot of one tells how they lie. -/
theorem assign_of_slot (hshape : other.shapeInfo.shape = array.shapeInfo.shape)
    (hrank : array.shapeInfo.shape ≠ []) (hpos : array.shapeInfo.Positive)
    (hews : array.shapeInfo.HonestEws) (hslot : array.shapeInfo.elementWiseStride ≤ 1)
    (hother : array.shapeInfo.order = other.shapeInfo.order →
      other.shapeInfo.elementWiseStride = 1 →
        Consecutive other.shapeInfo.isFOrder other.shapeInfo)
    (hcells : CellsApart array.shapeInfo) :
    ∃ buffer, array.assign run other = .ok ⟨array.shapeInfo, buffer⟩ ∧
      ∀ c, InBox array.shapeInfo.shape c →
        buffer (dot c array.shapeInfo.stride) = other.element c := by
  have hlength : other.shapeInfo.length = array.shapeInfo.length := by
    rw [ShapeInfo.length, hshape, ShapeInfo.length]
  have helement : ∀ c, InBox array.shapeInfo.shape c →
      other.element c = other.buffer (dot c other.shapeInfo.stride) :=
    fun c hc => element_eq (hshape ▸ hc)
  unfold NDArray.assign
  rw [if_neg (not_not.mpr hlength)]
  by_cases hmemcpy : array.shapeInfo.order = other.shapeInfo.order ∧
      array.shapeInfo.elementWiseStride = 1 ∧ other.shapeInfo.elementWiseStride = 1
  · rw [if_pos hmemcpy]
    obtain ⟨horder, hone, hone'⟩ := hmemcpy
    refine ⟨_, rfl, fun c hc => ?_⟩
    obtain ⟨k, hk, rfl⟩ := (bijOn_coordinateOf array.shapeInfo.isFOrder hpos).surjOn hc
    have hk : k < array.shapeInfo.length := hk
    have hsame : other.shapeInfo.isFOrder = array.shapeInfo.isFOrder := by
      rw [ShapeInfo.isFOrder, ShapeInfo.isFOrder, horder]
    have hread := (hother horder hone').dot_eq (hlength.symm ▸ hk)
    rw [hsame, hshape] at hread
    rw [helement _ hc, hread, (consecutive_of_ews hews hone).dot_eq hk]
    refine Stores.storeAll_of_agree ⟨k, List.mem_range.mpr hk, rfl⟩ (fun i _ hi _ => ?_) _
    rw [hi]
  · rw [if_neg hmemcpy]
    have hlinear : ¬ Loops.WalksLinearly array.shapeInfo other.shapeInfo array.shapeInfo := by
      rintro ⟨hge, hge', -, horder, -, -, hequal⟩
      exact hmemcpy ⟨horder, by omega, by omega⟩
    obtain ⟨work, hwork, hperm⟩ := Loops.exec_visits_raw run.settings hshape.symm rfl hrank hpos
      hlinear (le_refl array.shapeInfo.length) 0 0 0
    rw [hwork]
    refine ⟨_, rfl, fun c hc => ?_⟩
    have hmem : ∀ v, v ∈ run.schedule work ↔ ∃ d, InBox array.shapeInfo.shape d ∧
        Loops.visitAt array.shapeInfo other.shapeInfo array.shapeInfo 0 0 0 d = v :=
      fun v => ((run.schedule_perm work).trans hperm).mem_iff.trans
        (Loops.mem_coordinateVisits hpos)
    have hcell : (Loops.visitAt array.shapeInfo other.shapeInfo array.shapeInfo 0 0 0 c).2.2 =
        dot c array.shapeInfo.stride := zero_add _
    refine Stores.storeAll_of_agree ⟨_, (hmem _).mpr ⟨c, hc, rfl⟩, hcell⟩ (fun v hv hv' _ => ?_) _
    obtain ⟨d, hd, rfl⟩ := (hmem v).mp hv
    have hsame : d = c := hcells d c hd hc ((zero_add _).symm.trans hv')
    rw [hsame, helement c hc]
    exact congrArg other.buffer (zero_add _)

/-- A copy has the elements of its source. -/
theorem assign_spec (hshape : other.shapeInfo.shape = array.shapeInfo.shape)
    (hrank : array.shapeInfo.shape ≠ []) (hpos : array.shapeInfo.Positive)
    (hews : array.shapeInfo.HonestEws) (hslot : array.shapeInfo.elementWiseStride ≤ 1)
    (hother : other.shapeInfo.HonestEws) (hcells : CellsApart array.shapeInfo) :
    ∃ buffer, array.assign run other = .ok ⟨array.shapeInfo, buffer⟩ ∧
      ∀ c, InBox array.shapeInfo.shape c →
        buffer (dot c array.shapeInfo.stride) = other.element c :=
  assign_of_slot run hshape hrank hpos hews hslot (fun _ hone => consecutive_of_ews hother hone) hcells

variable (horder : order = 'c' ∨ order = 'f')

include horder

theorem honestEws_withEws (shape : List Nat) :
    (withEws (newShapeInfo order shape) 1).HonestEws := by
  intro _ k hk
  have hslot : (withEws (newShapeInfo order shape) 1).isFOrder = decide (order = 'f') :=
    isFOrder_eq (order_newShapeInfo horder shape)
  rw [hslot, axes_withEws, dense_newShapeInfo horder shape k hk]
  exact (mul_one _).symm

/-- A duplicate lies densely, in the order that is asked for, if a slot of one tells how the
elements of the array lie. -/
theorem dup_of_slot (hrank : array.shapeInfo.shape ≠ []) (hpos : array.shapeInfo.Positive)
    (hslot : order = array.shapeInfo.order → array.shapeInfo.elementWiseStride = 1 →
      Consecutive array.shapeInfo.isFOrder array.shapeInfo) :
    ∃ buffer, array.dup run order =
        .ok ⟨withEws (newShapeInfo order array.shapeInfo.shape) 1, buffer⟩ ∧
      ∀ k < array.shapeInfo.length,
        buffer k = array.element (coordinateOf (order = 'f') array.shapeInfo.shape k) := by
  have hnew : (withEws (newShapeInfo order array.shapeInfo.shape) 1).shape =
      array.shapeInfo.shape := by rw [shape_withEws, shape_newShapeInfo]
  have hcells : CellsApart (withEws (newShapeInfo order array.shapeInfo.shape) 1) :=
    cellsApart_newShapeInfo horder hpos
  obtain ⟨buffer, hassign, helement⟩ := @assign_of_slot T
    ⟨withEws (newShapeInfo order array.shapeInfo.shape) 1, run.fresh⟩ array run hnew.symm
    (by rwa [hnew]) (fun d hd => hpos d (hnew ▸ hd)) (honestEws_withEws horder _) (le_refl 1)
    (fun hsame => hslot ((order_newShapeInfo horder _).symm.trans hsame)) hcells
  refine ⟨buffer, hassign, fun k hk => ?_⟩
  have hbox := (bijOn_coordinateOf (order = 'f') hpos).mapsTo hk
  have hcell := (dense_newShapeInfo horder array.shapeInfo.shape).dot_eq (k := k)
    (by rwa [ShapeInfo.length, shape_newShapeInfo])
  rw [shape_newShapeInfo] at hcell
  rw [← helement _ (hnew.symm ▸ hbox), stride_withEws, hcell]

/-- A duplicate lies densely, in the order that is asked for. -/
theorem dup_spec (hrank : array.shapeInfo.shape ≠ []) (hpos : array.shapeInfo.Positive)
    (hews : array.shapeInfo.HonestEws) :
    ∃ buffer, array.dup run order =
        .ok ⟨withEws (newShapeInfo order array.shapeInfo.shape) 1, buffer⟩ ∧
      ∀ k < array.shapeInfo.length,
        buffer k = array.element (coordinateOf (order = 'f') array.shapeInfo.shape k) :=
  dup_of_slot run horder hrank hpos fun _ hone => consecutive_of_ews hews hone

end Copies

/-! ## Rows -/

section Rows

variable {T : Type} {array row : NDArray T} {M N : Nat}

/-- Both orders walk a row by its second stride. -/
theorem offsetAt_row {axes : List (Nat × Int)} {s₀ s₁ : Int} (haxes : axes = [(1, s₀), (N, s₁)])
    {f : Nat} (hf : f < N) : offsetAt axes f = f * s₁ ∧ offsetAtF axes f = f * s₁ := by
  have hvolume : f < volume axes := by simpa [haxes] using hf
  constructor
  · simp [haxes, offsetAt_cons, Nat.div_eq_of_lt hf, Nat.mod_eq_of_lt hf]
  · rw [offsetAtF]
    simp [haxes, offsetAt_cons, Nat.mod_one]

/-- The loops of a broadcast read a row from its first element to its last. -/
theorem readsInOrder_row (hrow : row.shapeInfo.shape = [1, N]) (hews : row.shapeInfo.HonestEws)
    {ret : ShapeInfo} {rank : Nat} {dimension : Dimensions rank} {shape : List Nat}
    (hkept : dimension.kept shape = [N]) :
    Loops.ReadsInOrder ret row.shapeInfo dimension shape := by
  obtain ⟨s₀, s₁, hstride⟩ : ∃ s₀ s₁, row.shapeInfo.stride = [s₀, s₁] := by
    apply List.length_eq_two.mp
    rw [ShapeInfo.stride_length, hrow]
    rfl
  have haxes : row.shapeInfo.axes = [(1, s₀), (N, s₁)] := by
    rw [ShapeInfo.axes, hrow, hstride]
    rfl
  have hlength : row.shapeInfo.length = N := by simp [ShapeInfo.length, hrow]
  unfold Loops.ReadsInOrder
  rw [hkept, List.prod_singleton]
  split
  · rename_i hwalk
    intro f hf
    have hhonest := hews hwalk.2.1 f (hlength.symm ▸ hf)
    rw [elementOffset_eq_ite _ _ (by rwa [ShapeInfo.volume_axes, hlength]),
      (offsetAt_row haxes hf).1, (offsetAt_row haxes hf).2, ite_self] at hhonest
    rw [(offsetAt_row haxes hf).1, hhonest]
  · right
    intro f hf
    have hindex : encode [N] (decodeF [N] f) = f := by
      simp [decodeF, decode, encode]
    rw [hindex, (offsetAt_row haxes hf).1, (offsetAt_row haxes hf).2]

/-- `addiRowVector` adds the row to every row, and changes nothing else. -/
theorem addiRowVector_spec [Add T] (run : Runtime T) (hshape : array.shapeInfo.shape = [M, N])
    (hM : 0 < M) (hN : 2 ≤ N) (hews : array.shapeInfo.HonestEws)
    (hcells : CellsApart array.shapeInfo) (hrow : row.shapeInfo.shape = [1, N])
    (hrowEws : row.shapeInfo.HonestEws) :
    ∃ buffer, array.addiRowVector run row = .ok ⟨array.shapeInfo, buffer⟩ ∧
      ∀ r < M, ∀ c < N, buffer (dot [r, c] array.shapeInfo.stride) =
        array.buffer (dot [r, c] array.shapeInfo.stride) + row.element [0, c] := by
  have hrank : array.shapeInfo.rank = 2 := by rw [ShapeInfo.rank, hshape]; rfl
  have hpos : array.shapeInfo.Positive := by
    rw [ShapeInfo.Positive, hshape]
    simp only [List.mem_cons, List.not_mem_nil, or_false]
    rintro d (rfl | rfl) <;> omega
  have haccepts : ¬ (array.shapeInfo.rank ≠ 2 ∨ ¬ Loops.isRowVectorArray row.shapeInfo ∨
      array.shapeInfo.shape.getD 1 0 ≠ row.shapeInfo.shape.getD 1 0) := by
    simp [hshape, hrow, Loops.isRowVectorArray, isScalar, isRowVector, isVector, ShapeInfo.rank]
    omega
  set axes := Loops.columnsAxis hrank with haxes
  have hne : axes.toList ≠ [] := List.cons_ne_nil 1 []
  have hkeptAxes : ∀ {α : Type} (a b : α), axes.kept [a, b] = [b] := fun a b => rfl
  have hkept : axes.kept array.shapeInfo.shape = [N] := by rw [hshape, hkeptAxes]
  have hlength : row.shapeInfo.length = (axes.kept array.shapeInfo.shape).prod := by
    rw [hkept]
    simp [ShapeInfo.length, hrow]
  have hright : Loops.BroadcastsRight array.shapeInfo axes row.shapeInfo none := by
    refine ⟨hne, Or.inl ?_, fun z hz => ?_, Or.inl rfl, fun c c' hc hc' heq => ?_, fun ret _ => ?_⟩
    · exact Nat.lt_of_lt_of_eq Nat.one_lt_two hrank.symm
    · cases hz
    · exact hcells c c' hc hc' heq
    · apply readsInOrder_row hrow hrowEws
      rw [Loops.kept_sort, hkept]
  obtain ⟨work, hwork, hwrites⟩ := Loops.writesBroadcast_of_right hpos hews
    (by rw [hrank]; decide) hlength (fun z hz => by cases hz) hright
  rw [Loops.applyBroadcast_eq hne hlength, Except.ok.injEq] at hwork
  obtain ⟨ret, hret, rfl⟩ := Option.map_eq_some_iff.mp hwork
  unfold NDArray.addiRowVector
  rw [dif_neg haccepts]
  simp only
  rw [hret]
  refine ⟨_, rfl, fun r hr c hc => ?_⟩
  have hbox : InBox array.shapeInfo.shape [r, c] := by
    rw [hshape]
    exact .cons hr (.cons hc .nil)
  have hvalue := (hwrites T (fun d1 d2 => d1 + d2) _ (run.schedule_perm _) array.buffer row.buffer
    array.buffer fun _ => rfl).1 [r, c] hbox
  have hoffset : Loops.broadcastOffset array.shapeInfo row.shapeInfo axes [r, c] =
      dot [0, c] row.shapeInfo.stride := by
    rw [Loops.broadcastOffset, hkept, hkeptAxes, offsetAt_eq_dot, ShapeInfo.dims_axes,
      ShapeInfo.map_snd_axes, hrow]
    simp [encode, decode, Nat.div_eq_of_lt hc, Nat.mod_eq_of_lt hc]
  have hread : row.element [0, c] = row.buffer (dot [0, c] row.shapeInfo.stride) := by
    apply element_eq
    rw [hrow]
    exact .cons Nat.one_pos (.cons hc .nil)
  rw [hread, ← hoffset]
  exact hvalue

end Rows

end Arrays
end LibND4J
