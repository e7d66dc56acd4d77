import LibND4J.Arrays.InPlace

/-!
# Operations into another array

The elementwise routines that store their results in an array with a buffer of its own, and the
scalar operation that an array takes into itself.  The arrays have one shape.

Main results:

- Theorem `transformExec_visits`: a transform reads and writes the elements with one
  coordinate.
- Theorems `scalarTo_spec`, `scalarInto_spec`, `transformTo_spec` and
  `pairwiseTo_spec`: the elements of the results.
-/

namespace LibND4J
namespace Loops

open Strided Shape Arrays

/-- The cell that is read, and the one that is written. -/
def pairVisit (pair : Int × Int) : Visit :=
  (pair.1, pair.1, pair.2)

/-- `Transform::exec`. -/
def transformExec (settings : Settings) (x z : ShapeInfo) (dx result : Int) :
    Option (List (List Visit)) :=
  let n := x.length
  let xElementWiseStride := x.elementWiseStride
  let resultElementWiseStride := z.elementWiseStride
  if xElementWiseStride ≥ 1 ∧ resultElementWiseStride ≥ 1 ∧ x.order = z.order then
    some (execStrided settings dx xElementWiseStride dx xElementWiseStride result
      resultElementWiseStride n)
  else
    let (axes, data) := prepareTwoRawArrayIter (operandAxes x z) (dx, result)
    (odometer n axes data).map fun visits => [visits.map fun visit => pairVisit visit.2]

section Transforms

variable {x z : ShapeInfo} {dx result : Int}

/-- A transform reads and writes the elements with one coordinate. -/
theorem transformExec_visits (settings : Settings) (hshape : z.shape = x.shape) (hpos : x.Positive)
    (hxe : x.HonestEws) (hze : z.HonestEws)
    (hspan : x.length / numThreads x.length settings.elementThreshold settings.maxThreads + 8 <
      2 ^ 31) :
    ∃ work, transformExec settings x z dx result = some work ∧
      work.flatten.Perm
        ((List.range x.length).map fun k => pairVisit (numberedPair x z dx result k)) := by
  have hlength : z.length = x.length := by rw [ShapeInfo.length, hshape, ← ShapeInfo.length]
  unfold transformExec
  simp only
  split
  · rename_i hwalks
    obtain ⟨hxs, hzs, horder⟩ := hwalks
    have hflag : z.isFOrder = x.isFOrder := by rw [ShapeInfo.isFOrder, ShapeInfo.isFOrder, horder]
    have hperm := (@numberedPair_perm x z dx result hshape hpos x.isFOrder).map
      pairVisit
    rw [List.map_map, List.map_map] at hperm
    refine ⟨_, rfl, (List.Perm.of_eq ?_).trans hperm⟩
    rw [execStrided_flatten settings _ _ _ _ _ _ hspan]
    refine List.map_congr_left fun k hk => ?_
    have hk := List.mem_range.mp hk
    rw [Function.comp_apply, pairVisit, ← hxe hxs k hk, ← hze hzs k (hlength ▸ hk), hflag]
  · obtain ⟨visits, hvisits, hperm⟩ := @rawPairs_perm x z dx result hshape hpos
    obtain ⟨moves, hmoves, rfl⟩ := Option.map_eq_some_iff.mp hvisits
    refine ⟨[moves.map fun visit => pairVisit visit.2], by rw [hmoves, Option.map_some], ?_⟩
    have hpairs := hperm.map pairVisit
    rw [List.map_map, List.map_map] at hpairs
    rw [List.flatten_singleton]
    exact hpairs

end Transforms

end Loops

namespace Arrays

open Strided Shape Loops

/-! ## The routines -/

section Routines

variable {T : Type}

/-- What a loop over pairs of cells leaves; in place it reads what it writes. -/
def runPairs (op : T → T) (inPlace : Bool) (x : Int → T) (schedule : List Visit)
    (target : Int → T) : Int → T :=
  runBroadcast (fun d1 _ => op d1) inPlace x x schedule target

/-- The work of `ScalarTransform::transform`, which one thread does. -/
def scalarWork (x z : ShapeInfo) : Option (List (List Visit)) :=
  (transform x z 0 0).map fun cells => [cells.map pairVisit]

namespace NDArray

/-- `applyScalar` of a value, into another array; one with fewer elements is written past its
end. -/
def scalarTo (op : T → T → T) (run : Runtime T) (array : NDArray T) (scalar : T)
    (target : NDArray T) : Except Failure (NDArray T) :=
  if target.shapeInfo.length < array.shapeInfo.length then .error .undefined
  else
    match scalarWork array.shapeInfo target.shapeInfo with
    | none => .error .undefined
    | some work => .ok ⟨target.shapeInfo, runPairs (fun d1 => op d1 scalar) false array.buffer
        (run.schedule work) target.buffer⟩

/-- `applyScalar` of a value, into the array itself. -/
def scalarInto (op : T → T → T) (run : Runtime T) (array : NDArray T) (scalar : T) :
    Except Failure (NDArray T) :=
  match scalarWork array.shapeInfo array.shapeInfo with
  | none => .error .undefined
  | some work => .ok ⟨array.shapeInfo, runPairs (fun d1 => op d1 scalar) true array.buffer
      (run.schedule work) array.buffer⟩

/-- `applyTransform`, into another array. -/
def transformTo (op : T → T) (run : Runtime T) (array target : NDArray T) :
    Except Failure (NDArray T) :=
  if target.shapeInfo.length < array.shapeInfo.length then .error .undefined
  else
    match transformExec run.settings array.shapeInfo target.shapeInfo 0 0 with
    | none => .error .undefined
    | some work => .ok ⟨target.shapeInfo, runPairs op false array.buffer (run.schedule work)
        target.buffer⟩

/-- `applyPairwiseTransform` of arrays of one shape, into another array. -/
def pairwiseTo (op : T → T → T) (run : Runtime T) (array other target : NDArray T) :
    Except Failure (NDArray T) :=
  if other.shapeInfo.length ≠ target.shapeInfo.length then
    .error (.thrown
      "NDArray::applyPairwiseTransform method - lengths of arrays are mismatched")
  else
    match exec array.shapeInfo.length run.settings array.shapeInfo other.shapeInfo
        target.shapeInfo 0 0 0 with
    | none => .error .undefined
    | some work => .ok ⟨target.shapeInfo, runBroadcast op false array.buffer other.buffer
        (run.schedule work) target.buffer⟩

end NDArray

end Routines

/-! ## Elements -/

section Elements

variable {T : Type} {x z : ShapeInfo} {array other target : NDArray T}

theorem pairVisit_target (x z : ShapeInfo) (k : Nat) :
    (pairVisit (numberedPair x z 0 0 k)).2.2 = elementOffset false z.axes k :=
  zero_add _

theorem pairVisit_source (x z : ShapeInfo) (k : Nat) :
    (pairVisit (numberedPair x z 0 0 k)).1 = elementOffset false x.axes k :=
  zero_add _

/-- What a loop over pairs of elements leaves; in place the arrays are the same. -/
theorem runPairs_spec (op : T → T) (inPlace : Bool) {schedule : List Visit}
    (hperm : schedule.Perm ((List.range x.length).map fun k => pairVisit (numberedPair x z 0 0 k)))
    (hshape : z.shape = x.shape) (hpos : x.Positive) (hcells : CellsApart z)
    {source memory : Int → T} (hplace : inPlace = true → z = x ∧ memory = source) :
    ∀ c, InBox z.shape c →
      runPairs op inPlace source schedule memory (dot c z.stride) = op (source (dot c x.stride)) := by
  have hlength : z.length = x.length := by rw [ShapeInfo.length, hshape, ← ShapeInfo.length]
  have hzpos : z.Positive := by rwa [ShapeInfo.Positive, hshape]
  have hinj : ∀ k < x.length, ∀ k' < x.length,
      (pairVisit (numberedPair x z 0 0 k)).2.2 = (pairVisit (numberedPair x z 0 0 k')).2.2 →
        k = k' := by
    intro k hk k' hk' heq
    rw [pairVisit_target, pairVisit_target] at heq
    exact elementOffset_inj hzpos hcells false (hlength ▸ hk) (hlength ▸ hk') heq
  have hrun := @Stores.storeAll_of_numbered Visit Int T _ (fun v => v.2.2)
    (fun v m => op (if inPlace then m v.1 else source v.1)) _ _ _ hperm hinj
    (fun k hk k' hk' hne m b => ?_) memory
  · intro c hc
    obtain ⟨k, hk, rfl⟩ := (bijOn_coordinateOf false hzpos).surjOn hc
    have hvalue := hrun.1 k (hlength ▸ hk)
    rw [pairVisit_target, pairVisit_source, elementOffset_eq_dot, elementOffset_eq_dot,
      hshape] at hvalue
    rw [hshape]
    refine hvalue.trans (congrArg op ?_)
    cases inPlace with
    | false => rfl
    | true => rw [(hplace rfl).2]; rfl
  · cases inPlace with
    | false => rfl
    | true =>
        have hother : (pairVisit (numberedPair x z 0 0 k)).1 ≠
            (pairVisit (numberedPair x z 0 0 k')).2.2 := by
          rw [pairVisit_source, pairVisit_target, (hplace rfl).1]
          exact fun heq => hne (elementOffset_inj hpos ((hplace rfl).1 ▸ hcells) false hk hk' heq)
        simp only [if_true]
        rw [Function.update_of_ne hother]

/-- Work that pairs the elements of two arrays stores its results in the second. -/
theorem elements_of_pairs (op : T → T) (inPlace : Bool) (run : Runtime T)
    {work : List (List Visit)} (hshape : target.shapeInfo.shape = array.shapeInfo.shape)
    (hpos : array.shapeInfo.Positive) (hcells : CellsApart target.shapeInfo)
    (hperm : work.flatten.Perm ((List.range array.shapeInfo.length).map fun k =>
      pairVisit (numberedPair array.shapeInfo target.shapeInfo 0 0 k)))
    (hplace : inPlace = true → target = array) {c : List Nat}
    (hc : InBox array.shapeInfo.shape c) :
    (NDArray.mk target.shapeInfo (runPairs op inPlace array.buffer (run.schedule work)
      target.buffer)).element c = op (array.element c) := by
  have hbox : InBox target.shapeInfo.shape c := hshape.symm ▸ hc
  have hcell : ∀ buffer : Int → T, (NDArray.mk target.shapeInfo buffer).element c =
      buffer (dot c target.shapeInfo.stride) := fun buffer => element_eq hbox
  rw [hcell, element_eq hc]
  refine runPairs_spec op inPlace ((run.schedule_perm work).trans hperm) hshape hpos hcells
    (fun hin => ?_) c hbox
  rw [hplace hin]
  exact ⟨rfl, rfl⟩

/-- The work of a scalar operation pairs the elements. -/
theorem scalarWork_visits (hshape : z.shape = x.shape) (hpos : x.Positive) (hxe : x.HonestEws)
    (hze : z.HonestEws) (hxoffset : x.offset = 0) (hzoffset : z.offset = 0) :
    ∃ work, scalarWork x z = some work ∧
      work.flatten.Perm
        ((List.range x.length).map fun k => pairVisit (numberedPair x z 0 0 k)) := by
  obtain ⟨cells, hcells, hperm⟩ := @transform_numbered x z 0 0 hshape hpos hxe hze
    hxoffset hzoffset
  refine ⟨[cells.map pairVisit], by rw [scalarWork, hcells, Option.map_some], ?_⟩
  have hpairs := hperm.map pairVisit
  rw [List.map_map] at hpairs
  rw [List.flatten_singleton]
  exact hpairs

/-- A scalar operation into another array. -/
theorem scalarTo_spec (op : T → T → T) (run : Runtime T) (scalar : T)
    (hshape : target.shapeInfo.shape = array.shapeInfo.shape) (hpos : array.shapeInfo.Positive)
    (hews : array.shapeInfo.HonestEws) (htarget : target.shapeInfo.HonestEws)
    (hcells : CellsApart target.shapeInfo) (hoffset : array.shapeInfo.offset = 0)
    (htargetOffset : target.shapeInfo.offset = 0) :
    ∃ buffer, array.scalarTo op run scalar target = .ok ⟨target.shapeInfo, buffer⟩ ∧
      ∀ c, InBox array.shapeInfo.shape c →
        (NDArray.mk target.shapeInfo buffer).element c = op (array.element c) scalar := by
  obtain ⟨work, hwork, hperm⟩ := scalarWork_visits hshape hpos hews htarget hoffset htargetOffset
  have hlength : ¬ target.shapeInfo.length < array.shapeInfo.length := by
    rw [ShapeInfo.length, hshape]
    exact lt_irrefl _
  refine ⟨_, by rw [NDArray.scalarTo, if_neg hlength, hwork], fun c hc => ?_⟩
  exact elements_of_pairs (fun d1 => op d1 scalar) false run hshape hpos hcells hperm
    (fun h => by cases h) hc

/-- A scalar operation into the array itself. -/
theorem scalarInto_spec (op : T → T → T) (run : Runtime T) (scalar : T)
    (hpos : array.shapeInfo.Positive) (hews : array.shapeInfo.HonestEws)
    (hcells : CellsApart array.shapeInfo) (hoffset : array.shapeInfo.offset = 0) :
    ∃ buffer, array.scalarInto op run scalar = .ok ⟨array.shapeInfo, buffer⟩ ∧
      ∀ c, InBox array.shapeInfo.shape c →
        (NDArray.mk array.shapeInfo buffer).element c = op (array.element c) scalar := by
  obtain ⟨work, hwork, hperm⟩ := scalarWork_visits rfl hpos hews hews hoffset hoffset
  refine ⟨_, by rw [NDArray.scalarInto, hwork], fun c hc => ?_⟩
  exact elements_of_pairs (fun d1 => op d1 scalar) true run rfl hpos hcells hperm
    (fun _ => rfl) hc

/-- A transform into another array. -/
theorem transformTo_spec (op : T → T) (run : Runtime T)
    (hshape : target.shapeInfo.shape = array.shapeInfo.shape) (hpos : array.shapeInfo.Positive)
    (hews : array.shapeInfo.HonestEws) (htarget : target.shapeInfo.HonestEws)
    (hcells : CellsApart target.shapeInfo)
    (hspan : SpanFits run.settings array.shapeInfo.length) :
    ∃ buffer, array.transformTo op run target = .ok ⟨target.shapeInfo, buffer⟩ ∧
      ∀ c, InBox array.shapeInfo.shape c →
        (NDArray.mk target.shapeInfo buffer).element c = op (array.element c) := by
  obtain ⟨work, hwork, hperm⟩ := @transformExec_visits array.shapeInfo target.shapeInfo 0 0 run.settings hshape
    hpos hews htarget hspan
  have hlength : ¬ target.shapeInfo.length < array.shapeInfo.length := by
    rw [ShapeInfo.length, hshape]
    exact lt_irrefl _
  refine ⟨_, by rw [NDArray.transformTo, if_neg hlength, hwork], fun c hc => ?_⟩
  exact elements_of_pairs op false run hshape hpos hcells hperm (fun h => by cases h) hc

/-- A pairwise transform into another array. -/
theorem pairwiseTo_spec (op : T → T → T) (run : Runtime T)
    (hother : other.shapeInfo.shape = array.shapeInfo.shape)
    (hshape : target.shapeInfo.shape = array.shapeInfo.shape) (hpos : array.shapeInfo.Positive)
    (hrank : array.shapeInfo.shape ≠ []) (hews : array.shapeInfo.HonestEws)
    (hotherEws : other.shapeInfo.HonestEws) (htarget : target.shapeInfo.HonestEws)
    (hcells : CellsApart target.shapeInfo)
    (hspan : SpanFits run.settings array.shapeInfo.length) :
    ∃ buffer, array.pairwiseTo op run other target = .ok ⟨target.shapeInfo, buffer⟩ ∧
      ∀ c, InBox array.shapeInfo.shape c →
        (NDArray.mk target.shapeInfo buffer).element c = op (array.element c) (other.element c) := by
  obtain ⟨work, hwork, hperm⟩ := exec_visits run.settings hother.symm hshape.symm hrank hpos hews
    hotherEws htarget hspan (le_refl _) 0 0 0
  have hlength : other.shapeInfo.length = target.shapeInfo.length := by
    rw [ShapeInfo.length, ShapeInfo.length, hother, hshape]
  have hmem : ∀ v, v ∈ run.schedule work ↔ ∃ d, InBox array.shapeInfo.shape d ∧
      visitAt array.shapeInfo other.shapeInfo target.shapeInfo 0 0 0 d = v :=
    fun v => ((run.schedule_perm work).trans hperm).mem_iff.trans (mem_coordinateVisits hpos)
  refine ⟨_, by rw [NDArray.pairwiseTo, if_neg (not_not.mpr hlength), hwork], fun c hc => ?_⟩
  have hcell : ∀ buffer : Int → T, (NDArray.mk target.shapeInfo buffer).element c =
      buffer (dot c target.shapeInfo.stride) := fun buffer => element_eq (hshape.symm ▸ hc)
  have hplace : (visitAt array.shapeInfo other.shapeInfo target.shapeInfo 0 0 0 c).2.2 =
      dot c target.shapeInfo.stride := zero_add _
  rw [hcell, element_eq hc, element_eq (hother.symm ▸ hc)]
  refine Stores.storeAll_of_agree ⟨_, (hmem _).mpr ⟨c, hc, rfl⟩, hplace⟩ (fun v hv hv' _ => ?_) _
  obtain ⟨d, hd, rfl⟩ := (hmem v).mp hv
  have hsame : d = c := hcells d c (hshape.symm ▸ hd) (hshape.symm ▸ hc)
    ((zero_add _).symm.trans hv')
  rw [hsame, if_neg Bool.false_ne_true]
  exact congrArg₂ op (congrArg array.buffer (zero_add _)) (congrArg other.buffer (zero_add _))

end Elements

end Arrays
end LibND4J
