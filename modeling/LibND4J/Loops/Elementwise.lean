import LibND4J.Arrays.Concat
import LibND4J.Loops.Reverse

/-!
# Elementwise loops

`PairWiseTransform::exec` pairs the elements of two arrays of one length, and
`ScalarTransform::transform` those of an array with one value.  Arrays of one shape are paired
by their coordinates.  For arrays of two shapes it is the numbering in C order that pairs them,
save where the loop walks by the element-wise strides of arrays in F order.

Main results:

- Theorem `exec_numbered`: which elements a pairwise transform pairs.
- Theorem `transform_numbered`: a scalar transform pairs the elements of two arrays of one
  shape.
- Theorem `runVisits_numbered` and `runScalar_numbered`: what the loops leave, whatever
  order the threads do their work in.
-/

namespace LibND4J
namespace Loops

open Strided Shape Arrays Reverse

/-! ## Pairwise transforms -/

/-- The loops walk by the element-wise strides. -/
def SharesStride (x y z : ShapeInfo) : Prop :=
  x.elementWiseStride ≥ 1 ∧ y.elementWiseStride ≥ 1 ∧ z.elementWiseStride ≥ 1 ∧
    x.order = y.order ∧ z.order = x.order ∧ x.elementWiseStride = y.elementWiseStride

instance (x y z : ShapeInfo) : Decidable (SharesStride x y z) :=
  inferInstanceAs (Decidable (_ ∧ _ ∧ _ ∧ _ ∧ _ ∧ _))

/-- The elements of arrays of different shapes are paired by their numbers in F order. -/
def PairsByColumns (x y z : ShapeInfo) : Prop :=
  x.shape ≠ y.shape ∧ SharesStride x y z ∧ x.isFOrder = true

instance (x y z : ShapeInfo) : Decidable (PairsByColumns x y z) :=
  inferInstanceAs (Decidable (_ ∧ _ ∧ _))

/-- The elements with one number in all three arrays. -/
def numberedVisit (isFOrder : Bool) (x y z : ShapeInfo) (dx dy result : Int) (k : Nat) : Visit :=
  (dx + elementOffset isFOrder x.axes k, dy + elementOffset isFOrder y.axes k,
    result + elementOffset isFOrder z.axes k)

section Pairwise

variable {x y z : ShapeInfo} {dx dy result : Int}

theorem coordinateVisits_eq (hy : x.shape = y.shape) (hz : x.shape = z.shape) :
    coordinateVisits x y z dx dy result =
      (List.range x.length).map (numberedVisit false x y z dx dy result) := by
  refine List.map_congr_left fun k _ => ?_
  rw [numberedVisit, elementOffset_eq_dot, elementOffset_eq_dot, elementOffset_eq_dot, ← hy, ← hz]
  rfl

/-- The loop over linear indices pairs the elements by their numbers in C order. -/
theorem execCoordinates_flatten (hx : x.Positive) (hy : y.Positive) (hz : z.Positive)
    (hylength : y.length = x.length) (hzlength : z.length = x.length)
    (hplace : dx = result → x = z) :
    (execCoordinates x y z dx dy result).flatten =
      (List.range x.length).map (numberedVisit false x y z dx dy result) := by
  have hoffset : ∀ info : ShapeInfo, info.Positive → info.length = x.length →
      ∀ k < x.length, getOffset 0 info.shape info.stride (ind2subC info.shape k) =
        elementOffset false info.axes k := by
    intro info hpos hlength k hk
    have hk' : k < info.length := hlength ▸ hk
    have hbox : InBox info.shape (ind2subC info.shape k) := by
      rw [ind2subC_eq_decode hpos]
      exact (bijOn_decode hpos).mapsTo hk'
    rw [getOffset_eq hbox info.stride_length, zero_add, elementOffset_eq_dot,
      ind2subC_eq_decode hpos]
    rfl
  unfold execCoordinates
  rw [← List.flatMap_def, List.map_eq_flatMap]
  refine List.flatMap_congr fun k hk => ?_
  have hk := List.mem_range.mp hk
  simp only
  rw [numberedVisit, hoffset x hx rfl k hk, hoffset y hy hylength k hk]
  by_cases hsame : dx = result
  · rw [if_pos hsame, ← hplace hsame]
  · rw [if_neg hsame, hoffset z hz hzlength k hk]

/-- Linear walks pair the elements by their numbers in the common order. -/
theorem map_stride_eq (hwalks : SharesStride x y z) (hxe : x.HonestEws) (hye : y.HonestEws)
    (hze : z.HonestEws) (hylength : y.length = x.length) (hzlength : z.length = x.length) :
    ((List.range x.length).map fun (k : Nat) =>
      ((dx + k * x.elementWiseStride, dy + k * y.elementWiseStride,
        result + k * z.elementWiseStride) : Visit)) =
      (List.range x.length).map (numberedVisit x.isFOrder x y z dx dy result) := by
  obtain ⟨hxs, hys, hzs, hyorder, hzorder, -⟩ := hwalks
  have hyflag : y.isFOrder = x.isFOrder := by rw [ShapeInfo.isFOrder, ShapeInfo.isFOrder, hyorder]
  have hzflag : z.isFOrder = x.isFOrder := by rw [ShapeInfo.isFOrder, ShapeInfo.isFOrder, hzorder]
  refine List.map_congr_left fun k hk => ?_
  have hk := List.mem_range.mp hk
  rw [numberedVisit, ← hxe hxs k hk, ← hye hys k (hylength ▸ hk), ← hze hzs k (hzlength ▸ hk),
    hyflag, hzflag]

/-- Which elements a pairwise transform pairs: those with one number in C order, or in F order. -/
theorem exec_numbered (settings : Settings) (hshape : z.shape = x.shape)
    (hylength : y.length = x.length) (hrank : x.shape ≠ []) (hpos : x.Positive) (hypos : y.Positive)
    (hxe : x.HonestEws) (hye : y.HonestEws) (hze : z.HonestEws)
    (hspan : x.length / numThreads x.length settings.elementThreshold settings.maxThreads + 8 <
      2 ^ 31)
    (hplace : dx = result → x = z) :
    ∃ work, exec x.length settings x y z dx dy result = some work ∧
      work.flatten.Perm ((List.range x.length).map
        (numberedVisit (decide (PairsByColumns x y z)) x y z dx dy result)) := by
  have hzlength : z.length = x.length := by rw [ShapeInfo.length, hshape, ← ShapeInfo.length]
  have hzpos : z.Positive := by rw [ShapeInfo.Positive, hshape]; exact hpos
  by_cases hsame : x.shape = y.shape
  · have hnot : decide (PairsByColumns x y z) = false := decide_eq_false fun h => h.1 hsame
    rw [hnot, ← coordinateVisits_eq hsame hshape.symm]
    exact exec_visits settings hsame hshape.symm hrank hpos hxe hye hze hspan (le_refl _) dx dy
      result
  · have hfirst : ¬ (x.elementWiseStride ≥ 1 ∧ y.elementWiseStride ≥ 1 ∧
        z.elementWiseStride ≥ 1 ∧ x.order = y.order ∧ z.order = x.order ∧ x.shape = y.shape ∧
        x.elementWiseStride = y.elementWiseStride) := fun h => hsame h.2.2.2.2.2.1
    by_cases hwalks : SharesStride x y z
    · have hflag : decide (PairsByColumns x y z) = x.isFOrder := by
        cases hf : x.isFOrder with
        | false => exact decide_eq_false fun h => absurd h.2.2 (by rw [hf]; decide)
        | true => exact decide_eq_true ⟨hsame, hwalks, hf⟩
      have hsecond : x.shape ≠ y.shape ∧ x.order = y.order ∧ z.order = x.order ∧
          x.elementWiseStride ≥ 1 ∧ y.elementWiseStride ≥ 1 ∧ z.elementWiseStride ≥ 1 ∧
          x.elementWiseStride = y.elementWiseStride :=
        ⟨hsame, hwalks.2.2.2.1, hwalks.2.2.2.2.1, hwalks.1, hwalks.2.1, hwalks.2.2.1,
          hwalks.2.2.2.2.2⟩
      unfold exec
      simp only [if_neg hfirst, if_pos hsecond]
      refine ⟨_, rfl, ?_⟩
      rw [hylength, execStrided_flatten settings _ _ _ _ _ _ hspan, hflag,
        map_stride_eq hwalks hxe hye hze hylength hzlength]
    · have hflag : decide (PairsByColumns x y z) = false := decide_eq_false fun h => hwalks h.2.1
      have hsecond : ¬ (x.shape ≠ y.shape ∧ x.order = y.order ∧ z.order = x.order ∧
          x.elementWiseStride ≥ 1 ∧ y.elementWiseStride ≥ 1 ∧ z.elementWiseStride ≥ 1 ∧
          x.elementWiseStride = y.elementWiseStride) := fun h =>
        hwalks ⟨h.2.2.2.1, h.2.2.2.2.1, h.2.2.2.2.2.1, h.2.1, h.2.2.1, h.2.2.2.2.2.2⟩
      unfold exec
      simp only [if_neg hfirst, if_neg hsecond, if_neg hsame]
      refine ⟨_, rfl, ?_⟩
      rw [hflag, execCoordinates_flatten hpos hypos hzpos hylength hzlength hplace]

end Pairwise

/-! ## Scalar transforms -/

/-- `ScalarTransform::transform`: the cells that are read and written, the spans of the threads one
after the other; `none` is a raw iteration that does not end. -/
def transform (x z : ShapeInfo) (dx result : Int) : Option (List (Int × Int)) :=
  let n := x.length
  let xElementWiseStride := x.elementWiseStride
  let resultElementWiseStride := z.elementWiseStride
  if x.order ≠ z.order ∨ xElementWiseStride < 1 ∨ resultElementWiseStride < 0 then
    let (axes, data) := prepareTwoRawArrayIter (operandAxes x z) (dx, result)
    (odometer n axes data).map fun visits => visits.map Prod.snd
  else if xElementWiseStride ≥ 1 ∧ resultElementWiseStride ≥ 1 then
    some ((List.range n).map fun (i : Nat) =>
      (dx + i * xElementWiseStride, result + i * resultElementWiseStride))
  else
    some ((List.range n).map fun i =>
      (dx + getOffset x.offset x.shape x.stride (ind2sub x.shape i),
        result + getOffset z.offset z.shape z.stride (ind2sub z.shape i)))

section Scalar

variable {x z : ShapeInfo} {dx result : Int}

/-- The elements with one number in both arrays. -/
def numberedPair (x z : ShapeInfo) (dx result : Int) (k : Nat) : Int × Int :=
  (dx + elementOffset false x.axes k, result + elementOffset false z.axes k)

/-- Numbering both arrays in F order gives the same pairs. -/
theorem numberedPair_perm (hshape : z.shape = x.shape) (hpos : x.Positive) (isFOrder : Bool) :
    ((List.range x.length).map fun k => (dx + elementOffset isFOrder x.axes k,
        result + elementOffset isFOrder z.axes k)).Perm
      ((List.range x.length).map (numberedPair x z dx result)) := by
  cases isFOrder with
  | false => exact List.Perm.refl _
  | true =>
      have hperm := (map_decodeF_perm hpos).map fun c : List Nat =>
        (dx + dot c x.stride, result + dot c z.stride)
      rw [List.map_map, List.map_map] at hperm
      refine ((List.Perm.of_eq ?_).trans hperm).trans (List.Perm.of_eq ?_)
      · refine List.map_congr_left fun k _ => ?_
        rw [elementOffset_eq_dot, elementOffset_eq_dot, hshape]
        rfl
      · refine List.map_congr_left fun k _ => ?_
        rw [numberedPair, elementOffset_eq_dot, elementOffset_eq_dot, hshape]
        rfl

/-- The raw iteration pairs the elements by their coordinates. -/
theorem rawPairs_perm (hshape : z.shape = x.shape) (hpos : x.Positive) :
    ∃ visits, (odometer x.length (prepareTwoRawArrayIter (operandAxes x z) (dx, result)).1
        (prepareTwoRawArrayIter (operandAxes x z) (dx, result)).2).map
          (fun visits => visits.map Prod.snd) = some visits ∧
      visits.Perm ((List.range x.length).map (numberedPair x z dx result)) := by
  have hlength : z.axes.length = x.axes.length := by
    rw [ShapeInfo.length_axes, ShapeInfo.length_axes]
    exact congrArg List.length hshape
  have hdims : dims (operandAxes x z) = x.shape := (dims_zipWith hlength).trans x.dims_axes
  have haxes : ∀ a ∈ operandAxes x z, 0 < a.1 :=
    fun a ha => hpos a.1 (hdims ▸ List.mem_map_of_mem ha)
  have hvolume : volume (operandAxes x z) = x.length := congrArg List.prod hdims
  obtain ⟨axes', p', visits, hturn, hrun, hperm⟩ := odometer_turnAxes
    (fun s : Int × Int => s.1 < 0) haxes (dx, result) hvolume.le
  refine ⟨visits, ?_, hperm.trans (List.Perm.of_eq ?_)⟩
  · rw [prepareTwoRawArrayIter, hturn]
    exact hrun
  · rw [hvolume]
    refine List.map_congr_left fun k _ => ?_
    have hcells : Strided.dot (decode x.shape k) ((operandAxes x z).map Prod.snd) =
        (Strided.dot (decode x.shape k) (x.axes.map Prod.snd),
          Strided.dot (decode x.shape k) (z.axes.map Prod.snd)) := dot_zipWith hlength _
    rw [offsetAt_eq_dot, hdims, hcells, numberedPair, elementOffset_eq_dot, elementOffset_eq_dot,
      hshape, ShapeInfo.map_snd_axes, ShapeInfo.map_snd_axes]
    rfl

/-- A scalar transform pairs the elements of two arrays of one shape. -/
theorem transform_numbered (hshape : z.shape = x.shape) (hpos : x.Positive) (hxe : x.HonestEws)
    (hze : z.HonestEws) (hxoffset : x.offset = 0) (hzoffset : z.offset = 0) :
    ∃ visits, transform x z dx result = some visits ∧
      visits.Perm ((List.range x.length).map (numberedPair x z dx result)) := by
  have hzlength : z.length = x.length := by rw [ShapeInfo.length, hshape, ← ShapeInfo.length]
  have hzpos : z.Positive := by rw [ShapeInfo.Positive, hshape]; exact hpos
  unfold transform
  simp only
  split
  · exact rawPairs_perm hshape hpos
  · rename_i hordered
    rw [not_or, not_or, not_not, not_lt, not_lt] at hordered
    obtain ⟨horder, hxs, -⟩ := hordered
    split
    · rename_i hstrides
      have hflag : z.isFOrder = x.isFOrder := by rw [ShapeInfo.isFOrder, ShapeInfo.isFOrder, horder]
      refine ⟨_, rfl, (List.Perm.of_eq ?_).trans (numberedPair_perm hshape hpos x.isFOrder)⟩
      refine List.map_congr_left fun k hk => ?_
      have hk := List.mem_range.mp hk
      rw [← hxe hstrides.1 k hk, ← hze hstrides.2 k (hzlength ▸ hk), hflag]
    · refine ⟨_, rfl, (List.Perm.of_eq ?_).trans (numberedPair_perm hshape hpos true)⟩
      refine List.map_congr_left fun k hk => ?_
      have hk := List.mem_range.mp hk
      rw [getOffset_ind2sub_eq hpos hk, getOffset_ind2sub_eq hzpos (hzlength ▸ hk), hxoffset,
        hzoffset, zero_add, zero_add]

end Scalar

/-! ## What the loops leave -/

section Results

variable {T : Type} {x y z : ShapeInfo} {dx dy result : Int}

/-- Elements with different numbers lie in different cells, also of two arrays, where one is the
other or they share no cell. -/
theorem placed_ne (hplaced : Placed x z dx result) (hx : x.Positive) (hz : z.Positive)
    (hzcells : CellsApart z) (hlength : x.length = z.length) (isFOrder : Bool) {k k' : Nat}
    (hk : k < x.length) (hk' : k' < x.length) (hne : k ≠ k') :
    dx + elementOffset isFOrder x.axes k ≠ result + elementOffset isFOrder z.axes k' := by
  intro heq
  rcases hplaced with ⟨rfl, rfl⟩ | hapart
  · exact hne (elementOffset_inj hz hzcells isFOrder hk hk' (Int.add_left_cancel heq))
  · have hzk : k' < z.length := hlength ▸ hk'
    rw [elementOffset_eq_dot, elementOffset_eq_dot] at heq
    exact hapart _ _ ((bijOn_coordinateOf isFOrder hx).mapsTo hk)
      ((bijOn_coordinateOf isFOrder hz).mapsTo hzk) heq

/-- What a pairwise transform leaves. -/
theorem runVisits_numbered (op : T → T → T) (isFOrder : Bool) {schedule : List Visit}
    (hperm : schedule.Perm
      ((List.range x.length).map (numberedVisit isFOrder x y z dx dy result)))
    (hx : x.Positive) (hy : y.Positive) (hz : z.Positive) (hzcells : CellsApart z)
    (hylength : y.length = x.length) (hzlength : z.length = x.length)
    (hxplaced : Placed x z dx result) (hyplaced : Placed y z dy result) (memory : Int → T) :
    (∀ k < x.length, runVisits (fun a b (_ : Unit) => op a b) () schedule memory
        (result + elementOffset isFOrder z.axes k) =
      op (memory (dx + elementOffset isFOrder x.axes k))
        (memory (dy + elementOffset isFOrder y.axes k))) ∧
      ∀ i, (∀ k < x.length, i ≠ result + elementOffset isFOrder z.axes k) →
        runVisits (fun a b (_ : Unit) => op a b) () schedule memory i = memory i := by
  refine Stores.storeAll_of_numbered hperm (fun k hk k' hk' heq => ?_)
    (fun k hk k' hk' hne => ?_) memory
  · exact elementOffset_inj hz hzcells isFOrder (hzlength ▸ hk) (hzlength ▸ hk')
      (Int.add_left_cancel heq)
  · intro m b
    have hxne := placed_ne hxplaced hx hz hzcells hzlength.symm isFOrder hk hk' hne
    have hyne := placed_ne hyplaced hy hz hzcells (hylength.trans hzlength.symm) isFOrder
      (hylength ▸ hk) (hylength ▸ hk') hne
    simp only [numberedVisit]
    rw [Function.update_of_ne hxne, Function.update_of_ne hyne]

/-- Applying an operation with one value to the elements of a schedule. -/
def runScalar (op : T → T → T) (scalar : T) (schedule : List (Int × Int)) (memory : Int → T) :
    Int → T :=
  Stores.storeAll Prod.snd (fun v m => op (m v.1) scalar) schedule memory

/-- What a scalar transform leaves. -/
theorem runScalar_numbered (op : T → T → T) (scalar : T) {schedule : List (Int × Int)}
    (hperm : schedule.Perm ((List.range x.length).map (numberedPair x z dx result)))
    (hx : x.Positive) (hz : z.Positive) (hzcells : CellsApart z) (hlength : z.length = x.length)
    (hplaced : Placed x z dx result) (memory : Int → T) :
    (∀ k < x.length, runScalar op scalar schedule memory
        (result + elementOffset false z.axes k) =
      op (memory (dx + elementOffset false x.axes k)) scalar) ∧
      ∀ i, (∀ k < x.length, i ≠ result + elementOffset false z.axes k) →
        runScalar op scalar schedule memory i = memory i := by
  refine Stores.storeAll_of_numbered hperm (fun k hk k' hk' heq => ?_)
    (fun k hk k' hk' hne => ?_) memory
  · exact elementOffset_inj hz hzcells false (hlength ▸ hk) (hlength ▸ hk')
      (Int.add_left_cancel heq)
  · intro m b
    have hne := placed_ne hplaced hx hz hzcells hlength.symm false hk hk' hne
    simp only [numberedPair]
    rw [Function.update_of_ne hne]

end Results

end Loops
end LibND4J
