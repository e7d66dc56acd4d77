import LibND4J.Library.Stores
import LibND4J.Library.Transposition
import LibND4J.Loops.BlockInformation
import LibND4J.Ops.Reduce3Ops
import LibND4J.Shape.Tad
import Mathlib.Analysis.SpecialFunctions.Sqrt

/-!
# Measuring tensors against an array

`Reduce3::exec` measures every tensor of an array along some dimensions against one other
array, `Reduce3::execAll` every tensor of an array against every tensor of another.  The result
of a tensor is accumulated in its cell of the result, which the loops do not set first.

The iterations of the parallel loop write different cells and are run in any order.  The extra
parameters of the call are not looked at: the loops allocate their own.

Main results:

- Theorem `measures_iff`: the result of a tensor depends on what its cell held before.
- Theorem `readsTogether_iff`: when the two decodings of `execAll` pair the same elements.
- Theorem `measuresTensors_iff`: when the two functions give the measures of the tensors.
-/

namespace LibND4J
namespace Loops

open Strided Shape Values

/-! ## The loops -/

section Exec

variable {T : Type}

/-- `Reduce3::exec` with the tensors already cut; `schedule` is the order of the iterations. -/
def reduce3Exec (opType : Ops.Reduce3Op T) (x : Int → T) (xShapeInfo : ShapeInfo) (y : Int → T)
    (yShapeInfo : ShapeInfo) (dimension : List Nat) (tadShapeInfo : ShapeInfo)
    (tadOffsets : List Int) (schedule : List Nat) (result : Nat → T) : Option (Nat → T) :=
  let startingVal := opType.startingValue x
  let tadLength := Shape.tadLength xShapeInfo.shape dimension
  schedule.foldlM (fun result r =>
    let offset := tadOffsets.getD r 0
    let pairs := (List.range tadLength).map fun f =>
      let (xCoord, yCoord) :=
        if tadShapeInfo.order = 'c' then
          (ind2subC tadShapeInfo.shape f, ind2subC yShapeInfo.shape f)
        else
          (ind2sub tadShapeInfo.shape f, ind2sub yShapeInfo.shape f)
      let xOffset := getOffset offset tadShapeInfo.shape tadShapeInfo.stride xCoord
      let yOffset := getOffset 0 yShapeInfo.shape yShapeInfo.stride yCoord
      (x xOffset, y yOffset)
    (opType.reduceFrom startingVal (result r) pairs).map (Function.update result r)) result

/-- `Reduce3::execAll` with the tensors already cut; the offset of `y` is kept in an `int`. -/
def reduce3ExecAll (opType : Ops.Reduce3Op T) (x : Int → T) (xShapeInfo : ShapeInfo) (y : Int → T)
    (yShapeInfo : ShapeInfo) (dimension : List Nat) (xTadShapeInfo : ShapeInfo)
    (xOffsets : List Int) (yTadShapeInfo : ShapeInfo) (yOffsets : List Int) (schedule : List Nat)
    (result : Nat → T) : Option (Nat → T) :=
  let xTadLength := Shape.tadLength xShapeInfo.shape dimension
  let yTadLength := Shape.tadLength yShapeInfo.shape dimension
  let yTads := yShapeInfo.length / yTadLength
  let startingVal := opType.startingValue x
  schedule.foldlM (fun result r =>
    let xOffset := xOffsets.getD r 0
    (List.range yTads).foldlM (fun result g =>
      let yOffset := toInt32 (yOffsets.getD g 0)
      let ri := r * yTads + g
      let pairs := (List.range xTadLength).map fun f =>
        let yCoord :=
          if yTadShapeInfo.order = 'c' then ind2subC yTadShapeInfo.shape f
          else ind2sub yTadShapeInfo.shape f
        let xCoord :=
          if xTadShapeInfo.order = 'c' then ind2subC xTadShapeInfo.shape f
          else ind2sub xTadShapeInfo.shape f
        let xO := getOffset 0 xTadShapeInfo.shape xTadShapeInfo.stride xCoord
        let yO := getOffset 0 yTadShapeInfo.shape yTadShapeInfo.stride yCoord
        (x (xOffset + xO), y (yOffset + yO))
      (opType.reduceFrom startingVal (result ri) pairs).map (Function.update result ri)) result)
    result

end Exec

/-- An array with its tensors along some of its dimensions. -/
structure Tensors where
  shapeInfo : ShapeInfo
  dimension : Dimensions shapeInfo.rank
  tadShapeInfo : ShapeInfo
  positive : shapeInfo.Positive
  two_le_rank : 2 ≤ shapeInfo.rank
  rank_le : shapeInfo.rank ≤ maxDimension
  proper : dimension.toList.length < shapeInfo.rank
  cut : (TAD.init shapeInfo dimension).shapeInfoOnlyShapeAndStride = some tadShapeInfo

namespace Tensors

/-- The number of the tensors. -/
def tads (t : Tensors) : Nat :=
  t.shapeInfo.length / Shape.tadLength t.shapeInfo.shape t.dimension.toList

/-- The offsets of the tensors. -/
def tadOffsets (t : Tensors) : List Int :=
  (TAD.init t.shapeInfo t.dimension).createOffsets

/-- The elements of a tensor are those of the shape information. -/
theorem tadLength_eq (t : Tensors) :
    Shape.tadLength t.shapeInfo.shape t.dimension.toList = t.tadShapeInfo.length := by
  obtain ⟨ret, hret, hlength⟩ := @length_shapeInfoOnlyShapeAndStride
    (TAD.init t.shapeInfo t.dimension) t.positive t.two_le_rank t.rank_le t.proper
  rw [t.cut, Option.some.injEq] at hret
  rw [hret, hlength]
  rfl

theorem length_pos (t : Tensors) : 0 < t.tadShapeInfo.length := by
  have hlength : Shape.tadLength t.shapeInfo.shape t.dimension.toList =
      volume (TAD.init t.shapeInfo t.dimension).kept :=
    (TAD.init t.shapeInfo t.dimension).tadLength_eq
  rw [← t.tadLength_eq, hlength]
  exact TAD.volume_kept_pos t.positive

theorem tad_positive (t : Tensors) : t.tadShapeInfo.Positive := by
  intro d hd
  apply Nat.pos_of_ne_zero
  rintro rfl
  exact t.length_pos.ne' (List.prod_eq_zero hd)

/-- There is a tensor. -/
theorem tads_pos (t : Tensors) : 0 < t.tads := by
  have hnum := @numTads_init t.shapeInfo t.dimension t.positive
  have hvolume : 0 < volume (TAD.init t.shapeInfo t.dimension).leftOver :=
    TAD.volume_leftOver_pos t.positive
  rwa [← hnum] at hvolume

end Tensors

/-! ## What a measurement means -/

/-- The `j`-th element of a tensor that starts at an offset. -/
def tensorCell (tadShapeInfo : ShapeInfo) (offset : Int) (j : Nat) : Int :=
  offset + Strided.dot (decode tadShapeInfo.shape j) tadShapeInfo.stride

/-- The pairs of cells of two tensors at equal coordinates. -/
def pairedCells (xTad : ShapeInfo) (xOffset : Int) (yTad : ShapeInfo) (yOffset : Int) :
    List (Int × Int) :=
  (List.range xTad.length).map fun j => (tensorCell xTad xOffset j, tensorCell yTad yOffset j)

section Meaning

variable {T : Type}

/-- The measure of two tensors: the fold over the pairs of their elements from the starting
value. -/
def measure (opType : Ops.Reduce3Op T) (x y : Int → T) (cells : List (Int × Int)) : Option T :=
  opType.reduceFrom (opType.startingValue x) (opType.startingValue x)
    (cells.map fun p => (x p.1, y p.2))

/-- In every order of the iterations, `exec` leaves the measure of each tensor. -/
def Measures (opType : Ops.Reduce3Op T) (x : Tensors) (yShapeInfo : ShapeInfo) (xs ys : Int → T)
    (result : Nat → T) : Prop :=
  ∀ schedule : List Nat, schedule.Perm (List.range x.tads) →
    ∃ final, reduce3Exec opType xs x.shapeInfo ys yShapeInfo x.dimension.toList x.tadShapeInfo
        x.tadOffsets schedule result = some final ∧
      ∀ r < x.tads, measure opType xs ys
        (pairedCells x.tadShapeInfo (x.tadOffsets.getD r 0) yShapeInfo 0) = some (final r)

/-- In every order of the iterations, `execAll` leaves the measure of each pair of tensors. -/
def MeasuresAll (opType : Ops.Reduce3Op T) (x y : Tensors) (xs ys : Int → T) (result : Nat → T) :
    Prop :=
  ∀ schedule : List Nat, schedule.Perm (List.range x.tads) →
    ∃ final, reduce3ExecAll opType xs x.shapeInfo ys y.shapeInfo x.dimension.toList x.tadShapeInfo
        x.tadOffsets y.tadShapeInfo y.tadOffsets schedule result = some final ∧
      ∀ r < x.tads, ∀ g < y.tads, measure opType xs ys
        (pairedCells x.tadShapeInfo (x.tadOffsets.getD r 0) y.tadShapeInfo
          (y.tadOffsets.getD g 0)) = some (final (r * y.tads + g))

end Meaning

/-! ## The cells that the loops read -/

/-- The coordinate that an order flag decodes. -/
def orderedDecode (order : Char) (shape : List Nat) (f : Nat) : List Nat :=
  if order = 'c' then decode shape f else decodeF shape f

/-- The pairs of cells that the loops read, the two tensors decoded by the given orders. -/
def loopCells (xOrder yOrder : Char) (xTad : ShapeInfo) (xOffset : Int) (yTad : ShapeInfo)
    (yOffset : Int) : List (Int × Int) :=
  (List.range xTad.length).map fun f =>
    (xOffset + Strided.dot (orderedDecode xOrder xTad.shape f) xTad.stride,
      yOffset + Strided.dot (orderedDecode yOrder yTad.shape f) yTad.stride)

theorem map_orderedDecode_perm {shape : List Nat} (hpos : ∀ d ∈ shape, 0 < d) (order : Char) :
    ((List.range shape.prod).map (orderedDecode order shape)).Perm
      ((List.range shape.prod).map (decode shape)) := by
  by_cases horder : order = 'c'
  · have hdecode : orderedDecode order shape = decode shape := funext fun f => if_pos horder
    rw [hdecode]
  · have hdecode : orderedDecode order shape = decodeF shape := funext fun f => if_neg horder
    rw [hdecode]
    exact map_decodeF_perm hpos

theorem orderedDecode_inBox {shape : List Nat} (hpos : ∀ d ∈ shape, 0 < d) (order : Char) {f : Nat}
    (hf : f < shape.prod) : InBox shape (orderedDecode order shape f) := by
  rw [orderedDecode]
  split
  · exact inBox_decode hpos hf
  · exact (bijOn_decodeF hpos).mapsTo hf

/-- Decoding an index as the loops do gives the cell of its coordinate. -/
theorem getOffset_ordered {info : ShapeInfo} (hpos : info.Positive) (order : Char) {f : Nat}
    (hf : f < info.length) (baseOffset : Int) :
    getOffset baseOffset info.shape info.stride
        (if order = 'c' then ind2subC info.shape f else ind2sub info.shape f) =
      baseOffset + Strided.dot (orderedDecode order info.shape f) info.stride := by
  rw [ind2subC_eq_decode hpos, ind2sub_eq_decodeF hpos]
  exact Shape.getOffset_eq (orderedDecode_inBox hpos order hf) info.stride_length baseOffset

/-- With one order for both, the loops read the elements at equal coordinates. -/
theorem loopCells_perm {xTad yTad : ShapeInfo} (hpos : xTad.Positive)
    (hshape : yTad.shape = xTad.shape) (order : Char) (xOffset yOffset : Int) :
    (loopCells order order xTad xOffset yTad yOffset).Perm
      (pairedCells xTad xOffset yTad yOffset) := by
  have hperm := (map_orderedDecode_perm hpos order).map fun c =>
    (xOffset + Strided.dot c xTad.stride, yOffset + Strided.dot c yTad.stride)
  rw [List.map_map, List.map_map] at hperm
  simpa only [loopCells, pairedCells, tensorCell, hshape, Function.comp_def, ShapeInfo.length] using
    hperm

section Runs

variable {T : Type} {opType : Ops.Reduce3Op T}

/-- `exec` in terms of the cells it reads. -/
theorem reduce3Exec_eq (x : Tensors) {y : ShapeInfo} (hshape : y.shape = x.tadShapeInfo.shape)
    (xs ys : Int → T) (schedule : List Nat) (result : Nat → T) :
    reduce3Exec opType xs x.shapeInfo ys y x.dimension.toList x.tadShapeInfo x.tadOffsets schedule
        result =
      schedule.foldlM (fun m r => (opType.reduceFrom (opType.startingValue xs) (m r)
        ((loopCells x.tadShapeInfo.order x.tadShapeInfo.order x.tadShapeInfo
          (x.tadOffsets.getD r 0) y 0).map fun p => (xs p.1, ys p.2))).map
            (Function.update m r)) result := by
  have hpos : y.Positive := by
    rw [ShapeInfo.Positive, hshape]
    exact x.tad_positive
  unfold reduce3Exec
  dsimp only
  congr 1
  funext m r
  congr 2
  rw [loopCells, List.map_map, x.tadLength_eq]
  refine List.map_congr_left fun f hf => ?_
  have hf := List.mem_range.mp hf
  have hlength : y.length = x.tadShapeInfo.length := congrArg List.prod hshape
  have hx := getOffset_ordered x.tad_positive x.tadShapeInfo.order hf (x.tadOffsets.getD r 0)
  have hy := getOffset_ordered hpos x.tadShapeInfo.order (hlength ▸ hf) 0
  rw [Function.comp_apply, ← hx, ← hy]
  by_cases horder : x.tadShapeInfo.order = 'c'
  · simp only [if_pos horder]
  · simp only [if_neg horder]

/-- `exec` gives the measures exactly if each fold from what the result held before does. -/
theorem measures_iff (x : Tensors) {y : ShapeInfo} (hshape : y.shape = x.tadShapeInfo.shape)
    (xs ys : Int → T) (result : Nat → T) :
    Measures opType x y xs ys result ↔
      ∀ r < x.tads, ∃ v,
        opType.reduceFrom (opType.startingValue xs) (result r)
            ((loopCells x.tadShapeInfo.order x.tadShapeInfo.order x.tadShapeInfo
              (x.tadOffsets.getD r 0) y 0).map fun p => (xs p.1, ys p.2)) = some v ∧
          measure opType xs ys (pairedCells x.tadShapeInfo (x.tadOffsets.getD r 0) y 0) =
            some v := by
  have hrun : ∀ schedule : List Nat, schedule.Perm (List.range x.tads) →
      ((∃ final, reduce3Exec opType xs x.shapeInfo ys y x.dimension.toList x.tadShapeInfo
          x.tadOffsets schedule result = some final ∧
        ∀ r ∈ schedule, measure opType xs ys
          (pairedCells x.tadShapeInfo (x.tadOffsets.getD r 0) y 0) = some (final r)) ↔
      ∀ r ∈ schedule, ∃ v,
        opType.reduceFrom (opType.startingValue xs) (result r)
            ((loopCells x.tadShapeInfo.order x.tadShapeInfo.order x.tadShapeInfo
              (x.tadOffsets.getD r 0) y 0).map fun p => (xs p.1, ys p.2)) = some v ∧
          measure opType xs ys (pairedCells x.tadShapeInfo (x.tadOffsets.getD r 0) y 0) =
            some v) := by
    intro schedule hschedule
    have hnodup : (schedule.map id).Nodup := by
      rw [List.map_id]
      exact hschedule.nodup_iff.mpr List.nodup_range
    rw [reduce3Exec_eq x hshape]
    exact @Stores.exists_foldlM_update_iff Nat Nat T _ id (fun r c => opType.reduceFrom
      (opType.startingValue xs) c ((loopCells x.tadShapeInfo.order x.tadShapeInfo.order
        x.tadShapeInfo (x.tadOffsets.getD r 0) y 0).map fun p => (xs p.1, ys p.2)))
      schedule hnodup result fun r v => measure opType xs ys
        (pairedCells x.tadShapeInfo (x.tadOffsets.getD r 0) y 0) = some v
  constructor
  · intro h r hr
    have hperm := List.Perm.refl (List.range x.tads)
    have hall := h _ hperm
    simp only [← List.mem_range (n := x.tads)] at hall hr
    exact (hrun _ hperm).mp hall r hr
  · intro h schedule hschedule
    have hmem : ∀ r, r < x.tads ↔ r ∈ schedule := fun r =>
      (hschedule.mem_iff.trans List.mem_range).symm
    simp only [hmem] at h ⊢
    exact (hrun schedule hschedule).mpr h

/-- The pairs of cells that `execAll` reads for two tensors. -/
def Tensors.loopCellsAll (x y : Tensors) (r g : Nat) : List (Int × Int) :=
  loopCells x.tadShapeInfo.order y.tadShapeInfo.order x.tadShapeInfo (x.tadOffsets.getD r 0)
    y.tadShapeInfo (toInt32 (y.tadOffsets.getD g 0))

/-- The iterations of `execAll`, one for each pair of tensors. -/
def pairsOfTads (yTads : Nat) (schedule : List Nat) : List (Nat × Nat) :=
  schedule.flatMap fun r => (List.range yTads).map fun g => (r, g)

theorem mem_pairsOfTads {yTads : Nat} {schedule : List Nat} {p : Nat × Nat} :
    p ∈ pairsOfTads yTads schedule ↔ p.1 ∈ schedule ∧ p.2 < yTads := by
  rw [pairsOfTads, List.mem_flatMap]
  constructor
  · rintro ⟨r, hr, hp⟩
    obtain ⟨g, hg, rfl⟩ := List.mem_map.mp hp
    exact ⟨hr, List.mem_range.mp hg⟩
  · rintro ⟨hr, hg⟩
    exact ⟨p.1, hr, List.mem_map.mpr ⟨p.2, List.mem_range.mpr hg, rfl⟩⟩

/-- Different pairs of tensors have different cells of the result. -/
theorem nodup_cells {yTads : Nat} {schedule : List Nat} (hnodup : schedule.Nodup) :
    ((pairsOfTads yTads schedule).map fun p => p.1 * yTads + p.2).Nodup := by
  refine List.Nodup.map_on (fun p hp q hq heq => ?_) ?_
  · have hpair := mul_add_inj (mem_pairsOfTads.mp hp).2 (mem_pairsOfTads.mp hq).2 heq
    exact Prod.ext hpair.1 hpair.2
  · rw [pairsOfTads, List.nodup_flatMap]
    refine ⟨fun r _ => List.nodup_range.map fun g g' h => (Prod.mk.inj h).2,
      hnodup.imp fun {r r'} hne p hp hp' => ?_⟩
    obtain ⟨g, -, rfl⟩ := List.mem_map.mp hp
    obtain ⟨g', -, heq⟩ := List.mem_map.mp hp'
    exact hne (Prod.mk.inj heq).1.symm

/-- `execAll` in terms of the cells it reads. -/
theorem reduce3ExecAll_eq {x y : Tensors} (hdims : y.dimension.toList = x.dimension.toList)
    (hshape : y.tadShapeInfo.shape = x.tadShapeInfo.shape) (xs ys : Int → T) (schedule : List Nat)
    (result : Nat → T) :
    reduce3ExecAll opType xs x.shapeInfo ys y.shapeInfo x.dimension.toList x.tadShapeInfo
        x.tadOffsets y.tadShapeInfo y.tadOffsets schedule result =
      (pairsOfTads y.tads schedule).foldlM (fun m p =>
        (opType.reduceFrom (opType.startingValue xs) (m (p.1 * y.tads + p.2))
          ((x.loopCellsAll y p.1 p.2).map fun q => (xs q.1, ys q.2))).map
            (Function.update m (p.1 * y.tads + p.2))) result := by
  have hpairs : ∀ r g, (List.range x.tadShapeInfo.length).map (fun f =>
      (xs (x.tadOffsets.getD r 0 + getOffset 0 x.tadShapeInfo.shape x.tadShapeInfo.stride
        (if x.tadShapeInfo.order = 'c' then ind2subC x.tadShapeInfo.shape f
          else ind2sub x.tadShapeInfo.shape f)),
        ys (toInt32 (y.tadOffsets.getD g 0) + getOffset 0 y.tadShapeInfo.shape
          y.tadShapeInfo.stride (if y.tadShapeInfo.order = 'c' then ind2subC y.tadShapeInfo.shape f
            else ind2sub y.tadShapeInfo.shape f)))) =
      (x.loopCellsAll y r g).map fun q => (xs q.1, ys q.2) := by
    intro r g
    rw [Tensors.loopCellsAll, loopCells, List.map_map]
    refine List.map_congr_left fun f hf => ?_
    have hf := List.mem_range.mp hf
    have hlength : y.tadShapeInfo.length = x.tadShapeInfo.length := congrArg List.prod hshape
    rw [getOffset_ordered x.tad_positive _ hf, getOffset_ordered y.tad_positive _ (hlength ▸ hf),
      zero_add, zero_add]
    rfl
  have htads : y.tads =
      y.shapeInfo.length / Shape.tadLength y.shapeInfo.shape x.dimension.toList := by
    rw [Tensors.tads, hdims]
  unfold reduce3ExecAll
  dsimp only
  rw [← htads, x.tadLength_eq, pairsOfTads, Stores.foldlM_flatMap]
  simp only [hpairs, List.foldlM_map]

/-- `execAll` gives the measures exactly if each fold from what the result held before does. -/
theorem measuresAll_iff {x y : Tensors} (hdims : y.dimension.toList = x.dimension.toList)
    (hshape : y.tadShapeInfo.shape = x.tadShapeInfo.shape) (xs ys : Int → T) (result : Nat → T) :
    MeasuresAll opType x y xs ys result ↔
      ∀ r < x.tads, ∀ g < y.tads, ∃ v,
        opType.reduceFrom (opType.startingValue xs) (result (r * y.tads + g))
            ((x.loopCellsAll y r g).map fun q => (xs q.1, ys q.2)) = some v ∧
          measure opType xs ys (pairedCells x.tadShapeInfo (x.tadOffsets.getD r 0) y.tadShapeInfo
            (y.tadOffsets.getD g 0)) = some v := by
  have hrun : ∀ schedule : List Nat, schedule.Perm (List.range x.tads) →
      ((∃ final, reduce3ExecAll opType xs x.shapeInfo ys y.shapeInfo x.dimension.toList
          x.tadShapeInfo x.tadOffsets y.tadShapeInfo y.tadOffsets schedule result = some final ∧
        ∀ p ∈ pairsOfTads y.tads schedule, measure opType xs ys
          (pairedCells x.tadShapeInfo (x.tadOffsets.getD p.1 0) y.tadShapeInfo
            (y.tadOffsets.getD p.2 0)) = some (final (p.1 * y.tads + p.2))) ↔
      ∀ p ∈ pairsOfTads y.tads schedule, ∃ v,
        opType.reduceFrom (opType.startingValue xs) (result (p.1 * y.tads + p.2))
            ((x.loopCellsAll y p.1 p.2).map fun q => (xs q.1, ys q.2)) = some v ∧
          measure opType xs ys (pairedCells x.tadShapeInfo (x.tadOffsets.getD p.1 0)
            y.tadShapeInfo (y.tadOffsets.getD p.2 0)) = some v) := by
    intro schedule hschedule
    rw [reduce3ExecAll_eq hdims hshape]
    exact @Stores.exists_foldlM_update_iff (Nat × Nat) Nat T _ (fun p => p.1 * y.tads + p.2)
      (fun p c => opType.reduceFrom (opType.startingValue xs) c
        ((x.loopCellsAll y p.1 p.2).map fun q => (xs q.1, ys q.2)))
      (pairsOfTads y.tads schedule) (nodup_cells (hschedule.nodup_iff.mpr List.nodup_range)) result
      fun p v => measure opType xs ys (pairedCells x.tadShapeInfo (x.tadOffsets.getD p.1 0)
        y.tadShapeInfo (y.tadOffsets.getD p.2 0)) = some v
  constructor
  · intro h r hr g hg
    have hperm := List.Perm.refl (List.range x.tads)
    obtain ⟨final, hfinal, hmeasure⟩ := h _ hperm
    refine (hrun _ hperm).mp ⟨final, hfinal, fun p hp => ?_⟩ (r, g)
      (mem_pairsOfTads.mpr ⟨List.mem_range.mpr hr, hg⟩)
    have hp := mem_pairsOfTads.mp hp
    exact hmeasure p.1 (List.mem_range.mp hp.1) p.2 hp.2
  · intro h schedule hschedule
    have hmem : ∀ r, r ∈ schedule ↔ r < x.tads := fun r =>
      hschedule.mem_iff.trans List.mem_range
    obtain ⟨final, hfinal, hmeasure⟩ := (hrun schedule hschedule).mpr fun p hp => by
      have hp := mem_pairsOfTads.mp hp
      exact h p.1 ((hmem p.1).mp hp.1) p.2 hp.2
    exact ⟨final, hfinal, fun r hr g hg =>
      hmeasure (r, g) (mem_pairsOfTads.mpr ⟨(hmem r).mpr hr, hg⟩)⟩

end Runs

/-! ## Tensors that are read together -/

/-- For every pair of tensors `execAll` reads the elements at equal coordinates. -/
def ReadsTogether (x y : Tensors) : Prop :=
  ∀ r < x.tads, ∀ g < y.tads, (x.loopCellsAll y r g).Perm
    (pairedCells x.tadShapeInfo (x.tadOffsets.getD r 0) y.tadShapeInfo (y.tadOffsets.getD g 0))

/-- The offsets of the tensors fit the `int` that they are kept in. -/
def OffsetsFit (y : Tensors) : Prop :=
  ∀ g < y.tads, toInt32 (y.tadOffsets.getD g 0) = y.tadOffsets.getD g 0

/-- Both tensors are decoded alike: in the same order, or along one axis only. -/
def DecodedAlike (xTad yTad : ShapeInfo) : Prop :=
  (xTad.order = 'c' ↔ yTad.order = 'c') ∨ (xTad.shape.filter (· ≠ 1)).length ≤ 1

/-- Along one axis the two orders are the same. -/
theorem decodeF_eq_decode {ds : List Nat} (hpos : ∀ d ∈ ds, 0 < d)
    (hone : (ds.filter (· ≠ 1)).length ≤ 1) {k : Nat} (hk : k < ds.prod) :
    decodeF ds k = decode ds k := by
  have hindex : ∀ es : List Nat, es.length ≤ 1 → es.prod = ds.prod → transposeIndex es k = k := by
    intro es hlen hprod
    match es, hlen with
    | [], _ =>
        rw [List.prod_nil] at hprod
        rw [transposeIndex_nil]
        omega
    | [d], _ =>
        rw [List.prod_singleton] at hprod
        rw [transposeIndex_cons d [] (by rwa [List.prod_nil, mul_one, hprod]), List.prod_nil,
          mul_one, transposeIndex_nil, add_zero, Nat.mod_eq_of_lt (hprod ▸ hk)]
  rw [← decode_transposeIndex hpos hk, ← transposeIndex_filter hk,
    hindex _ hone (prod_filter_ne_one ds)]

/-- If the two orders are the same, there is one axis only. -/
theorem length_filter_le_one {ds : List Nat} (hpos : ∀ d ∈ ds, 0 < d)
    (h : ∀ k < ds.prod, decodeF ds k = decode ds k) : (ds.filter (· ≠ 1)).length ≤ 1 := by
  have hsame : ds.filter (· ≠ 1) = [ds.prod].filter (· ≠ 1) := by
    apply filter_eq_of_transposeIndex hpos
    · intro e he
      rw [List.mem_singleton.mp he]
      exact prod_pos_of_pos hpos
    · rw [List.prod_singleton]
    · intro k hk
      rw [transposeIndex_cons ds.prod [] (by rwa [List.prod_nil, mul_one]), List.prod_nil, mul_one,
        transposeIndex_nil, add_zero, Nat.mod_eq_of_lt hk, transposeIndex, h k hk,
        encode_decode hpos hk]
  rw [hsame]
  exact List.length_filter_le _ _

variable {x y : Tensors}

variable (hshape : y.tadShapeInfo.shape = x.tadShapeInfo.shape)

include hshape

/-- Tensors decoded alike are read together. -/
theorem readsTogether_of_decodedAlike (hfit : OffsetsFit y)
    (halike : DecodedAlike x.tadShapeInfo y.tadShapeInfo) : ReadsTogether x y := by
  intro r _ g hg
  have hsame : ∀ f < x.tadShapeInfo.shape.prod,
      orderedDecode y.tadShapeInfo.order x.tadShapeInfo.shape f =
        orderedDecode x.tadShapeInfo.order x.tadShapeInfo.shape f := by
    intro f hf
    rcases halike with horder | hone
    · simp only [orderedDecode, horder]
    · simp only [orderedDecode, decodeF_eq_decode x.tad_positive hone hf, ite_self]
  have hcells : x.loopCellsAll y r g = loopCells x.tadShapeInfo.order x.tadShapeInfo.order
      x.tadShapeInfo (x.tadOffsets.getD r 0) y.tadShapeInfo (y.tadOffsets.getD g 0) := by
    rw [Tensors.loopCellsAll, hfit g hg, loopCells, loopCells, hshape]
    refine List.map_congr_left fun f hf => ?_
    rw [hsame f (List.mem_range.mp hf)]
  rw [hcells]
  exact loopCells_perm x.tad_positive hshape _ _ _

/-- Tensors that are read together start where their offsets say. -/
theorem ReadsTogether.offsetsFit (h : ReadsTogether x y) : OffsetsFit y := by
  intro g hg
  -- the sums of the cells differ by as many shifts as there are elements
  have hsum := ((h 0 x.tads_pos g hg).map Prod.snd).sum_eq
  have hperm := ((map_orderedDecode_perm x.tad_positive y.tadShapeInfo.order).map
    fun c => Strided.dot c y.tadShapeInfo.stride).sum_eq
  simp only [List.map_map, Function.comp_def] at hperm
  simp only [Tensors.loopCellsAll, loopCells, pairedCells, tensorCell, List.map_map,
    Function.comp_def, hshape, List.sum_map_add, List.map_const', List.sum_replicate,
    List.length_range, ShapeInfo.length, hperm, nsmul_eq_mul] at hsum
  have hpos : (x.tadShapeInfo.shape.prod : Int) ≠ 0 := by
    exact_mod_cast x.length_pos.ne'
  exact mul_left_cancel₀ hpos (add_right_cancel hsum)

variable (hx : Set.InjOn (fun c => Strided.dot c x.tadShapeInfo.stride) {c | InBox x.tadShapeInfo.shape c})

include hx

variable (hy : Set.InjOn (fun c => Strided.dot c y.tadShapeInfo.stride) {c | InBox y.tadShapeInfo.shape c})

include hy

/-- With cells apart, tensors that are read together are decoded alike. -/
theorem ReadsTogether.decodedAlike (h : ReadsTogether x y) :
    DecodedAlike x.tadShapeInfo y.tadShapeInfo := by
  have hfit := h.offsetsFit hshape 0 y.tads_pos
  have hsame : ∀ f < x.tadShapeInfo.shape.prod,
      orderedDecode x.tadShapeInfo.order x.tadShapeInfo.shape f =
        orderedDecode y.tadShapeInfo.order x.tadShapeInfo.shape f := by
    intro f hf
    have hmem : (x.tadOffsets.getD 0 0 + Strided.dot (orderedDecode x.tadShapeInfo.order
          x.tadShapeInfo.shape f) x.tadShapeInfo.stride,
        toInt32 (y.tadOffsets.getD 0 0) + Strided.dot (orderedDecode y.tadShapeInfo.order
          y.tadShapeInfo.shape f) y.tadShapeInfo.stride) ∈ x.loopCellsAll y 0 0 :=
      List.mem_map.mpr ⟨f, List.mem_range.mpr hf, rfl⟩
    obtain ⟨j, hj, heq⟩ := List.mem_map.mp ((h 0 x.tads_pos 0 y.tads_pos).mem_iff.mp hmem)
    have hj := List.mem_range.mp hj
    rw [hfit, Prod.mk.injEq, tensorCell, tensorCell, add_right_inj, add_right_inj, hshape] at heq
    have hbox := inBox_decode x.tad_positive hj
    have hleft := hx hbox (orderedDecode_inBox x.tad_positive _ hf) heq.1
    rw [hshape] at hy
    have hright := hy hbox (orderedDecode_inBox x.tad_positive _ hf) heq.2
    exact hleft.symm.trans hright
  by_cases horder : x.tadShapeInfo.order = 'c' ↔ y.tadShapeInfo.order = 'c'
  · exact Or.inl horder
  · refine Or.inr (length_filter_le_one x.tad_positive fun k hk => ?_)
    have hk := hsame k hk
    simp only [orderedDecode] at hk
    by_cases hc : x.tadShapeInfo.order = 'c'
    · have hc' : ¬ y.tadShapeInfo.order = 'c' := fun hc' => horder ⟨fun _ => hc', fun _ => hc⟩
      rw [if_pos hc, if_neg hc'] at hk
      exact hk.symm
    · have hc' : y.tadShapeInfo.order = 'c' := by
        by_contra hc'
        exact horder ⟨fun h => absurd h hc, fun h => absurd h hc'⟩
      rwa [if_neg hc, if_pos hc'] at hk

/-- With cells apart, tensors are read together exactly if they are decoded alike and their
offsets fit. -/
theorem readsTogether_iff :
    ReadsTogether x y ↔ DecodedAlike x.tadShapeInfo y.tadShapeInfo ∧ OffsetsFit y :=
  ⟨fun h => ⟨h.decodedAlike hshape hx hy, h.offsetsFit hshape⟩,
    fun h => readsTogether_of_decodedAlike hshape h.2 h.1⟩

omit hy

omit hx

omit hshape

/-! ## When the measures are right -/

section Numbers

variable {K : Type}

/-- A buffer of numbers. -/
def numbers (xs : Int → K) (i : Int) : Value K :=
  .finite (xs i)

theorem elements_readPair (xs ys : Int → K) (cells : List (Int × Int)) :
    cells.map (fun p => (numbers xs p.1, numbers ys p.2)) =
      (cells.map (Ops.readPair xs ys)).map Ops.elements := by
  rw [List.map_map]
  rfl

variable [Field K] [LinearOrder K] {root : SquareRoot K} {kind : Ops.Reduce3Kind}

theorem startingValue_opType (x : Int → Value K) : (kind.opType root).startingValue x = 0 := by
  cases kind <;> rfl

/-- On numbers, a fold from what the result held gives the measure of the cells exactly if the
outcomes agree. -/
theorem exists_measure_iff (hkind : kind ≠ .equalsWithEps) (xs ys : Int → K) (c : Value K)
    (read cells : List (Int × Int)) :
    (∃ v, (kind.opType root).reduceFrom ((kind.opType root).startingValue (numbers xs)) c
        (read.map fun p => (numbers xs p.1, numbers ys p.2)) = some v ∧
      measure (kind.opType root) (numbers xs) (numbers ys) cells = some v) ↔
      Ops.outcome root kind c (read.map (Ops.readPair xs ys)) =
        Ops.outcome root kind 0 (cells.map (Ops.readPair xs ys)) := by
  simp only [measure, startingValue_opType, elements_readPair, Ops.reduceFrom_finite hkind,
    Option.some.injEq, exists_eq_left']
  exact eq_comm

/-- The comparison with a tolerance never gets as far. -/
theorem not_exists_measure (xs ys : Int → K) (c : Value K) {read : List (Int × Int)}
    (hne : read ≠ []) (cells : List (Int × Int)) :
    ¬ ∃ v, (Ops.Reduce3Kind.equalsWithEps.opType root).reduceFrom
        ((Ops.Reduce3Kind.equalsWithEps.opType root).startingValue (numbers xs)) c
        (read.map fun p => (numbers xs p.1, numbers ys p.2)) = some v ∧
      measure (Ops.Reduce3Kind.equalsWithEps.opType root) (numbers xs) (numbers ys) cells =
        some v := by
  rintro ⟨v, hv, -⟩
  rw [startingValue_opType, Ops.reduceFrom_equalsWithEps c (by simpa using hne)] at hv
  cases hv

variable [IsStrictOrderedRing K]

/-- What a cell of the result held before is of no effect on the measure of the cells. -/
def Unaffected (kind : Ops.Reduce3Kind) (xs ys : Int → K) (cells : List (Int × Int))
    (c : Value K) : Prop :=
  kind = .jaccardDistance ∨ c = 0 ∨
    (Ops.Unmeasured kind (cells.map (Ops.readPair xs ys)) ∧ c = .nan)

theorem loopCells_ne_nil {xTad : ShapeInfo} (hpos : 0 < xTad.length) (xOrder yOrder : Char)
    (xOffset : Int) (yTad : ShapeInfo) (yOffset : Int) :
    loopCells xOrder yOrder xTad xOffset yTad yOffset ≠ [] := by
  intro hnil
  have hlength := congrArg List.length hnil
  rw [loopCells, List.length_map, List.length_range, List.length_nil] at hlength
  omega

/-- `exec` gives the measures of the tensors exactly if the operation can be evaluated and what the
result held before is of no effect on any of them. -/
theorem measures_numbers_iff (x : Tensors) {y : ShapeInfo}
    (hshape : y.shape = x.tadShapeInfo.shape) (xs ys : Int → K) (result : Nat → Value K) :
    Measures (kind.opType root) x y (numbers xs) (numbers ys) result ↔
      kind ≠ .equalsWithEps ∧ ∀ r < x.tads, Unaffected kind xs ys
        (pairedCells x.tadShapeInfo (x.tadOffsets.getD r 0) y 0) (result r) := by
  rw [measures_iff x hshape]
  by_cases hkind : kind = .equalsWithEps
  · subst hkind
    constructor
    · intro h
      exact absurd (h 0 x.tads_pos)
        (not_exists_measure xs ys _ (loopCells_ne_nil x.length_pos _ _ _ _ _) _)
    · intro h
      exact absurd rfl h.1
  · simp only [exists_measure_iff hkind, ne_eq, hkind, not_false_eq_true, true_and]
    refine forall₂_congr fun r _ => ?_
    have hperm := loopCells_perm x.tad_positive hshape x.tadShapeInfo.order
      (x.tadOffsets.getD r 0) 0
    have hne : (pairedCells x.tadShapeInfo (x.tadOffsets.getD r 0) y 0).map (Ops.readPair xs ys) ≠
        [] := by
      intro hnil
      have hlength := hperm.length_eq
      rw [List.map_eq_nil_iff.mp hnil, List.length_nil] at hlength
      exact loopCells_ne_nil x.length_pos _ _ _ _ _ (List.eq_nil_of_length_eq_zero hlength)
    rw [Ops.outcome_perm _ (hperm.map _), Ops.outcome_eq_iff hkind _ hne, Unaffected]

theorem length_loopCellsAll (x y : Tensors) (r g : Nat) :
    (x.loopCellsAll y r g).length = x.tadShapeInfo.length := by
  rw [Tensors.loopCellsAll, loopCells, List.length_map, List.length_range]

/-- Whatever the orders, the same cells of `x` are read. -/
theorem map_fst_loopCellsAll (x y : Tensors) (r g : Nat) :
    ((x.loopCellsAll y r g).map Prod.fst).Perm ((pairedCells x.tadShapeInfo
      (x.tadOffsets.getD r 0) y.tadShapeInfo (y.tadOffsets.getD g 0)).map Prod.fst) := by
  have hperm := (map_orderedDecode_perm x.tad_positive x.tadShapeInfo.order).map fun c =>
    x.tadOffsets.getD r 0 + Strided.dot c x.tadShapeInfo.stride
  rw [List.map_map, List.map_map] at hperm
  simpa only [Tensors.loopCellsAll, loopCells, pairedCells, tensorCell, List.map_map,
    Function.comp_def, ShapeInfo.length] using hperm

/-- On ones, what the result held before is of effect unless it was zero or the operation does not
look at it. -/
theorem eq_zero_of_ones (hkind : kind ≠ .equalsWithEps) {c : Value K}
    {read cells : List (Int × Int)} (hne : read ≠ []) (hlength : cells.length = read.length)
    (h : Ops.outcome root kind c (read.map (Ops.readPair (fun _ => (1 : K)) fun _ => 1)) =
      Ops.outcome root kind 0 (cells.map (Ops.readPair (fun _ => (1 : K)) fun _ => 1))) :
    kind = .jaccardDistance ∨ c = 0 := by
  have hones : ∀ pairs : List (Int × Int), pairs.map (Ops.readPair (fun _ => (1 : K)) fun _ => 1) =
      List.replicate pairs.length (1, 1) := by
    intro pairs
    exact List.map_const'
  have hread : read.map (Ops.readPair (fun _ => (1 : K)) fun _ => 1) ≠ [] := by
    simpa using hne
  rw [hones cells, hlength, ← hones read, Ops.outcome_eq_iff hkind c hread] at h
  rcases h with hjaccard | hzero | ⟨⟨-, hnone⟩, -⟩
  · exact Or.inl hjaccard
  · exact Or.inr hzero
  · obtain ⟨p, hp⟩ := List.exists_mem_of_ne_nil read hne
    have hmem := List.mem_map_of_mem hp (f := Ops.readPair (fun _ => (1 : K)) fun _ => 1)
    rcases hnone with hnone | hnone
    · exact absurd (hnone _ hmem) one_ne_zero
    · exact absurd (hnone _ hmem) one_ne_zero

/-- `execAll` gives the measures of all pairs of tensors, for all contents, exactly if the
operation can be evaluated, the tensors are read together, and the result held zero before or is
not looked at. -/
theorem measuresAll_numbers_iff {x y : Tensors} (hdims : y.dimension.toList = x.dimension.toList)
    (hshape : y.tadShapeInfo.shape = x.tadShapeInfo.shape) (result : Nat → Value K) :
    (∀ xs ys : Int → K,
        MeasuresAll (kind.opType root) x y (numbers xs) (numbers ys) result) ↔
      kind ≠ .equalsWithEps ∧ ReadsTogether x y ∧
        ∀ r < x.tads, ∀ g < y.tads, kind = .jaccardDistance ∨ result (r * y.tads + g) = 0 := by
  have hne : ∀ r g, x.loopCellsAll y r g ≠ [] := fun r g =>
    loopCells_ne_nil x.length_pos _ _ _ _ _
  simp only [measuresAll_iff hdims hshape]
  by_cases hkind : kind = .equalsWithEps
  · subst hkind
    constructor
    · intro h
      exact absurd (h (fun _ => 0) (fun _ => 0) 0 x.tads_pos 0 y.tads_pos)
        (not_exists_measure _ _ _ (hne 0 0) _)
    · intro h
      exact absurd rfl h.1
  simp only [exists_measure_iff hkind, ne_eq, hkind, not_false_eq_true, true_and]
  have hkept : ∀ {c : Value K} {read : List (Int × Int)}, read ≠ [] →
      kind = .jaccardDistance ∨ c = 0 → ∀ xs ys : Int → K,
      Ops.outcome root kind c (read.map (Ops.readPair xs ys)) =
        Ops.outcome root kind 0 (read.map (Ops.readPair xs ys)) := by
    intro c read hread hc xs ys
    refine (Ops.outcome_eq_iff hkind c (by simpa using hread)).mpr ?_
    exact hc.imp id Or.inl
  constructor
  · intro h
    have hzero : ∀ r < x.tads, ∀ g < y.tads,
        kind = .jaccardDistance ∨ result (r * y.tads + g) = 0 := by
      intro r hr g hg
      refine eq_zero_of_ones hkind (hne r g) ?_ (h (fun _ => 1) (fun _ => 1) r hr g hg)
      rw [length_loopCellsAll, pairedCells, List.length_map, List.length_range]
    refine ⟨fun r hr g hg => ?_, hzero⟩
    have hagree : ∀ xs ys : Int → K,
        Ops.outcome root kind 0 ((x.loopCellsAll y r g).map (Ops.readPair xs ys)) =
          Ops.outcome root kind 0 ((pairedCells x.tadShapeInfo (x.tadOffsets.getD r 0)
            y.tadShapeInfo (y.tadOffsets.getD g 0)).map (Ops.readPair xs ys)) := by
      intro xs ys
      rw [← h xs ys r hr g hg, hkept (hne r g) (hzero r hr g hg)]
    exact Ops.perm_of_outcome_eq hkind (map_fst_loopCellsAll x y r g) hagree
  · rintro ⟨htogether, hzero⟩ xs ys r hr g hg
    rw [hkept (hne r g) (hzero r hr g hg), Ops.outcome_perm _ ((htogether r hr g hg).map _)]

/-- `exec` gives the measures of the tensors, and `execAll` those of all pairs of tensors, exactly
if the operation can be evaluated, what the result held before is of no effect, and, for
`execAll`, the tensors are read together. -/
theorem measuresTensors_iff (root : SquareRoot K) (kind : Ops.Reduce3Kind) {x y : Tensors}
    {yShapeInfo : ShapeInfo} (hy : yShapeInfo.shape = x.tadShapeInfo.shape)
    (hdims : y.dimension.toList = x.dimension.toList)
    (hshape : y.tadShapeInfo.shape = x.tadShapeInfo.shape) (result : Nat → Value K) :
    (∀ xs ys : Int → K,
      Measures (kind.opType root) x yShapeInfo (numbers xs) (numbers ys) result ↔
        kind ≠ .equalsWithEps ∧ ∀ r < x.tads, Unaffected kind xs ys
          (pairedCells x.tadShapeInfo (x.tadOffsets.getD r 0) yShapeInfo 0) (result r)) ∧
    ((∀ xs ys : Int → K,
        MeasuresAll (kind.opType root) x y (numbers xs) (numbers ys) result) ↔
      kind ≠ .equalsWithEps ∧ ReadsTogether x y ∧
        ∀ r < x.tads, ∀ g < y.tads, kind = .jaccardDistance ∨ result (r * y.tads + g) = 0) ∧
    (Set.InjOn (fun c => Strided.dot c x.tadShapeInfo.stride)
        {c | InBox x.tadShapeInfo.shape c} →
      Set.InjOn (fun c => Strided.dot c y.tadShapeInfo.stride)
        {c | InBox y.tadShapeInfo.shape c} →
      (ReadsTogether x y ↔ DecodedAlike x.tadShapeInfo y.tadShapeInfo ∧ OffsetsFit y)) :=
  ⟨fun xs ys => measures_numbers_iff x hy xs ys result, measuresAll_numbers_iff hdims hshape result,
    fun hx hy => readsTogether_iff hshape hx hy⟩

end Numbers

/-! ## The rows of a square -/

/-- The square roots of the reals. -/
noncomputable def realRoot : SquareRoot ℝ where
  root := Real.sqrt
  root_nonneg a _ := Real.sqrt_nonneg a
  mul_self_root _ ha := Real.mul_self_sqrt ha

def squareRows : Tensors where
  shapeInfo := ⟨[2, 2], [2, 1], 0, 1, 'c', Eq.refl 2⟩
  dimension := ⟨[1], one_ne_nil, pairwise_one, by decide⟩
  tadShapeInfo := ⟨[1, 2], [1, 1], 0, 1, 'f', by decide⟩
  positive := by decide
  two_le_rank := le_rfl
  rank_le := by decide
  proper := by decide
  cut := by decide

theorem measuresTensors_iff_squareRows :
    (∀ xs ys : Int → ℝ, Measures (Ops.Reduce3Kind.dot.opType realRoot) squareRows
      squareRows.tadShapeInfo (numbers xs) (numbers ys) fun _ => 0) ∧
    ∀ xs ys : Int → ℝ, MeasuresAll (Ops.Reduce3Kind.dot.opType realRoot) squareRows squareRows
      (numbers xs) (numbers ys) fun _ => 0 := by
  obtain ⟨hexec, hall, -⟩ := @measuresTensors_iff ℝ _ _ _ realRoot .dot squareRows squareRows
    squareRows.tadShapeInfo rfl rfl rfl fun _ => 0
  refine ⟨fun xs ys => (hexec xs ys).mpr ⟨by decide, fun _ _ => Or.inr (Or.inl rfl)⟩,
    hall.mpr ⟨by decide, ?_, fun _ _ _ _ => Or.inr rfl⟩⟩
  refine readsTogether_of_decodedAlike rfl ?_ (Or.inl Iff.rfl)
  unfold OffsetsFit
  decide

/-- The measures are not always right: the result of an earlier call is counted again. -/
theorem not_measures_always :
    ¬ ∀ (kind : Ops.Reduce3Kind) (x : Tensors) (y : ShapeInfo), y.shape = x.tadShapeInfo.shape →
      ∀ (xs ys : Int → ℝ) (result : Nat → Value ℝ),
        Measures (kind.opType realRoot) x y (numbers xs) (numbers ys) result := by
  intro h
  have hrun := h .dot squareRows squareRows.tadShapeInfo rfl (fun _ => 1) (fun _ => 1) fun _ => 1
  obtain ⟨-, hcells⟩ := (measures_numbers_iff squareRows rfl _ _ _).mp hrun
  rcases hcells 0 squareRows.tads_pos with hkind | hzero | ⟨-, hnan⟩
  · cases hkind
  · exact one_ne_zero (Value.finite.inj hzero)
  · cases hnan

end Loops
end LibND4J
