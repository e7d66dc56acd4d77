import LibND4J.Arrays.InPlace

/-!
# Several tensors of one array

`multipleTensorsAlongDimension` cuts the sub-arrays with the given numbers out of an array, as
views.  Sub-arrays of one length are combined element by element, in the row-major order of the
axes that they extend along.  Along all axes of an array the views are too short, unless the last
extent is one.

Main results:

- Theorem `exists_tensor`: the shape information of the views.
- Theorem `multipleTensorsAlongDimension_eq`: the views that are cut.
- Theorem `tensorsRight_iff`: when the views are the sub-arrays.
- Theorem `pairwiseInto_tensors`: views of one length are combined element by element.
-/

namespace LibND4J
namespace Shape

section Rank

variable {tad : TAD}

/-! ## The rank of a tensor -/

theorem two_le_rank_slice {info next : ShapeInfo} (hrank : 2 ≤ info.rank) {sliceIdx : Nat}
    (hslice : sliceOfShapeBuffer sliceIdx info = some next) : 2 ≤ next.rank := by
  by_cases htwo : 2 < info.rank
  · obtain ⟨next', hnext, haxes, -⟩ := slice_of_rank htwo sliceIdx
    rw [hslice, Option.some.injEq] at hnext
    subst hnext
    rw [← next.length_axes, haxes, List.length_tail, info.length_axes]
    omega
  · unfold sliceOfShapeBuffer at hslice
    simp only at hslice
    split at hslice
    · split at hslice
      · split at hslice
        · cases hslice
          rw [← ShapeInfo.length_axes, ShapeInfo.axes_ofAxes, info.length_axes]
          exact hrank
        · cases hslice
      · cases hslice
        exact le_refl 2
    · rename_i hvector
      have hmatrix : isMatrix info = true :=
        decide_eq_true ⟨by omega, fun hone => hvector (decide_eq_true ⟨by omega, hone⟩)⟩
      rw [if_pos hmatrix] at hslice
      cases hslice
      exact le_refl 2

theorem two_le_rank_reverseAxes {info : ShapeInfo} (hrank : 2 ≤ info.rank) :
    2 ≤ (reverseAxes info).rank := by
  rwa [← ShapeInfo.length_axes, axes_reverseAxes, List.length_reverse, info.length_axes]

theorem two_le_rank_sliceLoop {length sliceIndex : Nat} {ret2 next : ShapeInfo}
    (h : 2 ≤ ret2.rank) (hloop : TAD.sliceLoop length sliceIndex ret2 = some next) :
    2 ≤ next.rank := by
  fun_induction TAD.sliceLoop length sliceIndex ret2 with
  | case1 => cases hloop
  | case2 => cases hloop
  | case3 sliceIndex ret2 hlong index index' hrow newRet2 hslice _ ih =>
      exact ih (two_le_rank_slice h hslice) hloop
  | case4 sliceIndex ret2 hshort =>
      cases hloop
      exact h

theorem two_le_rank_tensorShapeInfo {ret2 ret : ShapeInfo} (hrank : 2 ≤ ret2.rank)
    (h : tad.tensorShapeInfo ret2 = some ret) : 2 ≤ ret.rank := by
  unfold TAD.tensorShapeInfo at h
  simp only at h
  by_cases hcomp : (if isVector ret2 then ret2.length else
      (keep tad.shapeInfo.shape tad.dimension.toList).prod) = ret2.length
  · rw [if_pos hcomp] at h
    split at h
    · cases h
      exact hrank
    · split at h
      · cases h
        exact two_le_rank_reverseAxes hrank
      · cases h
        exact hrank
  · rw [if_neg hcomp] at h
    split at h
    · obtain ⟨next, hslice, rfl⟩ := Option.map_eq_some_iff.mp h
      have hnext := two_le_rank_slice hrank hslice
      split
      · exact hnext
      · exact two_le_rank_reverseAxes hnext
    · split at h
      · obtain ⟨next, hslice, rfl⟩ := Option.map_eq_some_iff.mp h
        have hnext := two_le_rank_slice hrank hslice
        split
        · exact hnext
        · exact two_le_rank_reverseAxes hnext
      · obtain ⟨next, hloop, rfl⟩ := Option.map_eq_some_iff.mp h
        have hnext := two_le_rank_sliceLoop hrank hloop
        split
        · exact hnext
        · split
          · exact two_le_rank_reverseAxes hnext
          · exact hnext

/-- A tensor has at least two axes, as its array has. -/
theorem two_le_rank_shapeInfoOnlyShapeAndStride (hrank : 2 ≤ tad.shapeInfo.rank) {ret : ShapeInfo}
    (h : tad.shapeInfoOnlyShapeAndStride = some ret) : 2 ≤ ret.rank := by
  have hpermuted : 2 ≤ (permuteShapeBuffer tad.shapeInfo
      (removeIndex (List.range tad.shapeInfo.rank) tad.dimension.toList ++
        tad.dimension.toList.reverse)).rank := by
    have hsum := tad.length_leftOver_add
    have hkept : tad.kept.length = tad.dimension.toList.length := tad.length_kept
    rw [← ShapeInfo.length_axes, axes_permute_dimensions, List.length_append, List.length_reverse]
    show 2 ≤ tad.leftOver.length + tad.kept.length
    omega
  unfold TAD.shapeInfoOnlyShapeAndStride at h
  simp only at h
  split at h
  · cases h
    exact le_refl 2
  split at h
  · cases h
    exact hrank
  split at h
  · rename_i hcolumn
    cases h
    obtain ⟨a, b, haxes⟩ := axes_of_isVector hrank hcolumn.2.1
    rw [← ShapeInfo.length_axes, permuteShapeBuffer, ShapeInfo.axes_ofAxes, haxes]
    exact le_refl 2
  split at h
  · cases h
    exact hrank
  split at h
  · cases h
    exact le_refl 2
  · obtain ⟨ret2, hslice, hret⟩ := Option.bind_eq_some_iff.mp h
    exact two_le_rank_tensorShapeInfo (two_le_rank_slice hpermuted hslice) hret

end Rank

end Shape

namespace Arrays

open Strided Shape Loops

/-! ## The routine -/

/-- The sorted dimensions; `none` where they do not name axes of the array, or name one twice. -/
def sortedDimensions (rank : Nat) (dimensions : List Int) : Option (Dimensions rank) :=
  if h : dimensions ≠ [] ∧ (dimensions.map Int.toNat).Nodup ∧
      ∀ d ∈ dimensions, 0 ≤ d ∧ d < rank then
    have hlt : ∀ d ∈ dimensions.map Int.toNat, d < rank := by
      intro d hd
      obtain ⟨e, he, rfl⟩ := List.mem_map.mp hd
      have hbounds := h.2.2 e he
      omega
    some (AxisList.sort ⟨dimensions.map Int.toNat, h.2.1, hlt⟩ (by simpa using h.1))
  else
    none

/-- `NDArrayFactory::multipleTensorsAlongDimension`: the shape information of each view, and where
it starts in the buffer.  A negative index reads in front of the offsets. -/
def multipleTensorsAlongDimension (ndArray : ShapeInfo) (indices dimensions : List Int) :
    Except Failure (List (ShapeInfo × Int)) :=
  if indices = [] then
    .ok []
  else
    match sortedDimensions ndArray.rank dimensions with
    | none => .error .undefined
    | some copy =>
        let tadLength := Shape.tadLength ndArray.shape copy.toList
        let numTads := ndArray.length / tadLength
        let tad := TAD.init ndArray copy
        match tad.shapeInfoOnlyShapeAndStride with
        | none => .error .undefined
        | some shapeInfo =>
            let tadOffsets := tad.createOffsets
            indices.mapM fun (idx : Int) =>
              if idx ≥ numTads then .error (.thrown "Bad index")
              else if idx < 0 then .error .undefined
              else .ok (shapeInfo, tadOffsets.getD idx.toNat 0)

/-! ## Sub-arrays -/

/-- An array with elements of its own, and the dimensions that its sub-arrays extend along. -/
structure SubArrays where
  shapeInfo : ShapeInfo
  dimension : Dimensions shapeInfo.rank
  positive : shapeInfo.Positive
  two_le_rank : 2 ≤ shapeInfo.rank
  rank_le : shapeInfo.rank ≤ maxDimension
  honest : shapeInfo.HonestEws
  cellsApart : CellsApart shapeInfo

namespace SubArrays

/-- The tensors of the array. -/
def tad (a : SubArrays) : TAD :=
  TAD.init a.shapeInfo a.dimension

/-- The number of the sub-arrays. -/
def count (a : SubArrays) : Nat :=
  (a.dimension.leftOver a.shapeInfo.shape).prod

/-- The number of elements of each of them. -/
def length (a : SubArrays) : Nat :=
  (a.dimension.kept a.shapeInfo.shape).prod

/-- The coordinate of element `k` of sub-array `t`. -/
def coordinate (a : SubArrays) (t k : Nat) : List Nat :=
  a.dimension.coordinate (decode (a.dimension.leftOver a.shapeInfo.shape) t)
    (decode (a.dimension.kept a.shapeInfo.shape) k)

/-- The cell of element `k` of sub-array `t`. -/
def cell (a : SubArrays) (t k : Nat) : Int :=
  dot (a.coordinate t k) a.shapeInfo.stride

/-- The cell of the first element of a sub-array. -/
def base (a : SubArrays) (t : Nat) : Int :=
  a.tad.base (decode (a.dimension.leftOver a.shapeInfo.shape) t)

variable (a : SubArrays)

theorem volume_leftOver : volume a.tad.leftOver = a.count := by
  rw [volume, TAD.dims_leftOver]
  rfl

theorem volume_kept : volume a.tad.kept = a.length := by
  rw [volume, TAD.dims_kept]
  rfl

theorem numTads_eq :
    a.shapeInfo.length / Shape.tadLength a.shapeInfo.shape a.dimension.toList = a.count :=
  (numTads_init a.positive).trans a.volume_leftOver

theorem count_pos : 0 < a.count :=
  a.volume_leftOver ▸ TAD.volume_leftOver_pos a.positive

theorem length_pos : 0 < a.length :=
  a.volume_kept ▸ TAD.volume_kept_pos a.positive

/-- The elements of the sub-arrays are those of the array. -/
theorem bijOn_coordinate :
    Set.BijOn (fun q : Nat × Nat => a.coordinate q.1 q.2) {q | q.1 < a.count ∧ q.2 < a.length}
      {c | InBox a.shapeInfo.shape c} := by
  have hleft := bijOn_decode (a.positive.leftOver a.dimension)
  have hkept := bijOn_decode (a.positive.kept a.dimension)
  exact (Shape.bijOn_coordinate a.dimension rfl).comp (hleft.prodMap hkept)

variable {t k : Nat}

theorem inBox_coordinate (ht : t < a.count) (hk : k < a.length) :
    InBox a.shapeInfo.shape (a.coordinate t k) :=
  a.bijOn_coordinate.mapsTo (show (t, k) ∈ _ from ⟨ht, hk⟩)

theorem cell_eq (ht : t < a.count) (hk : k < a.length) :
    a.cell t k = a.base t + offsetAt a.tad.kept k :=
  @TAD.dot_coordinate a.tad a.positive _ (TAD.inBox_leftOver a.positive (a.volume_leftOver ▸ ht)) k
    (a.volume_kept ▸ hk)

theorem cell_zero (ht : t < a.count) : a.cell t 0 = a.base t := by
  rw [a.cell_eq ht a.length_pos, offsetAt_zero, add_zero]

/-- The first view starts where the array does. -/
theorem tadOffset_first : a.tad.tadOffset 0 = a.base 0 :=
  tadOffset_zero a.positive

/-- The elements have cells of their own. -/
theorem cell_inj {t' k' : Nat} (ht : t < a.count) (hk : k < a.length) (ht' : t' < a.count)
    (hk' : k' < a.length) (h : a.cell t k = a.cell t' k') : t = t' ∧ k = k' := by
  have hpair := a.bijOn_coordinate.injOn (show (t, k) ∈ _ from ⟨ht, hk⟩)
    (show (t', k') ∈ _ from ⟨ht', hk'⟩)
    (a.cellsApart _ _ (a.inBox_coordinate ht hk) (a.inBox_coordinate ht' hk') h)
  exact Prod.mk.injEq .. ▸ hpair

/-- The elements of a sub-array have cells of their own. -/
theorem offsetAt_inj {k' : Nat} (hk : k < a.length) (hk' : k' < a.length)
    (h : offsetAt a.tad.kept k = offsetAt a.tad.kept k') : k = k' := by
  refine (a.cell_inj a.count_pos hk a.count_pos hk' ?_).2
  rw [a.cell_eq a.count_pos hk, a.cell_eq a.count_pos hk', h]

end SubArrays

/-! ## The views -/

section Views

variable {a : SubArrays}

/-- Where the sub-arrays extend along all axes, the last extent is one. -/
def KeepsLast (a : SubArrays) : Prop :=
  a.dimension.toList.length = a.shapeInfo.rank → a.shapeInfo.shape.getLastD 1 = 1

/-- The shape information of the views.  It has the elements of the sub-arrays, or the last axis is
lost. -/
theorem exists_tensor (a : SubArrays) :
    ∃ ret, a.tad.shapeInfoOnlyShapeAndStride = some ret ∧ 2 ≤ ret.rank ∧ ret.HonestEws ∧
      ret.Positive ∧ (KeepsLast a → MovesAlong ret a.tad.kept) ∧
      (¬ KeepsLast a → ret.length < a.length) := by
  by_cases hproper : a.dimension.toList.length < a.shapeInfo.rank
  · obtain ⟨ret, hret, hmoves⟩ := @shapeInfoOnlyShapeAndStride_spec a.tad a.positive a.honest
      a.two_le_rank a.rank_le hproper
    have hvolume : ret.length = a.length := by
      rw [← ret.volume_axes, hmoves.volume_eq, a.volume_kept]
    have hhonest : ret.HonestEws := by
      have hslots := @honestSlots_shapeInfoOnlyShapeAndStride a.tad (fun _ => a.honest)
        a.two_le_rank ret hret
      by_cases hf : ret.order = 'f'
      · exact hslots (Or.inr hf)
      · intro hews k hk
        have hflag : ret.isFOrder = false := decide_eq_false hf
        rw [elementOffset_eq_ite _ _ (by rwa [ret.volume_axes]), hflag]
        exact hmoves.linear hews k (by rwa [a.volume_kept, ← hvolume])
    exact ⟨ret, hret, two_le_rank_shapeInfoOnlyShapeAndStride a.two_le_rank hret, hhonest,
      positive_of_length (hvolume ▸ a.length_pos), fun _ => hmoves,
      fun hnot => absurd (fun hall => absurd hall hproper.ne) hnot⟩
  · have hall : a.tad.dimension.toList.length = a.tad.shapeInfo.rank := by
      have hsum := a.tad.length_leftOver_add
      have hnot : ¬ a.tad.dimension.toList.length < a.tad.shapeInfo.rank := hproper
      omega
    obtain ⟨front, last, haxes⟩ := exists_last_axis
      (show 0 < a.shapeInfo.rank from Nat.zero_lt_of_lt a.two_le_rank)
    have hlast : a.shapeInfo.shape.getLastD 1 = last.1 := getLastD_shape haxes
    have hfront : 0 < volume front :=
      volume_pos fun b hb => a.positive.axes b (by rw [haxes]; exact List.mem_append_left _ hb)
    obtain ⟨ret, hret, hews, hlength, hsqueeze⟩ := @shapeInfoOnlyShapeAndStride_all a.tad a.positive
      a.two_le_rank hall (firstSlice_init _) front last haxes
    have hnone : ¬ ret.elementWiseStride ≥ 1 := by omega
    refine ⟨ret, hret, two_le_rank_shapeInfoOnlyShapeAndStride a.two_le_rank hret,
      fun h => absurd h hnone, positive_of_length (hlength ▸ hfront), fun hkeeps => ?_,
      fun hnot => ?_⟩
    · exact ⟨hsqueeze (hlast.symm.trans (hkeeps hall)), fun h => absurd h hnone⟩
    · have htwo : last.1 ≠ 1 := fun hone => hnot fun _ => hlast.trans hone
      have hpos : 0 < last.1 := a.positive.axes last (by rw [haxes]; simp)
      have hvolume : a.length = volume front * last.1 := by
        rw [← a.volume_kept, kept_all hall]
        show volume a.shapeInfo.axes = _
        rw [haxes, volume_append, volume_cons, volume_nil, mul_one]
      rw [hlength, hvolume]
      exact lt_mul_of_one_lt_right hfront (by omega)

/-- The views that are cut. -/
theorem multipleTensorsAlongDimension_eq {axes : List Int} {ret : ShapeInfo}
    (haxes : sortedDimensions a.shapeInfo.rank axes = some a.dimension)
    (hret : a.tad.shapeInfoOnlyShapeAndStride = some ret) {indices : List Nat}
    (hindices : ∀ i ∈ indices, i < a.count) :
    multipleTensorsAlongDimension a.shapeInfo (indices.map Nat.cast) axes =
      .ok (indices.map fun i => (ret, a.tad.tadOffset i)) := by
  unfold multipleTensorsAlongDimension
  by_cases hnil : indices = []
  · rw [hnil]
    rfl
  · rw [if_neg (by simpa using hnil), haxes]
    have hret' : (TAD.init a.shapeInfo a.dimension).shapeInfoOnlyShapeAndStride = some ret := hret
    simp only [hret']
    rw [List.mapM_map]
    refine mapM_eq_ok fun i hi => ?_
    have hlt := hindices i hi
    rw [Function.comp_apply, a.numTads_eq, if_neg (by omega), if_neg (by omega), Int.toNat_natCast]
    have hnum : a.tad.numTads = a.count := a.numTads_eq
    exact congrArg (fun o => Except.ok (ret, o)) (getD_createOffsets a.tad (hnum ▸ hlt))

/-- The views are the sub-arrays: where they extend along all axes, the last extent is one; and
there is one view, or the shortcut does not meet an F order and no offset falls to the error
marker. -/
structure TensorsRight (a : SubArrays) : Prop where
  last : KeepsLast a
  offsets : a.count = 1 ∨
    (2 < a.shapeInfo.rank → a.length = 1 → a.shapeInfo.elementWiseStride = 1 →
      a.shapeInfo.isFOrder = false ∨ (squeeze (a.dimension.leftOver a.shapeInfo.axes)).length ≤ 1) ∧
    (a.dimension.toList.length = 1 ∨ ∀ c, InBox (a.dimension.leftOver a.shapeInfo.shape) c →
      -1 ≤ dot c (a.dimension.leftOver a.shapeInfo.stride))

/-- The views start at the sub-arrays. -/
theorem tensorsRight_iff (a : SubArrays) :
    TensorsRight a ↔ KeepsLast a ∧ ∀ t < a.count, a.tad.tadOffset t = a.base t := by
  have hstarts : StartsAtCoordinates a.shapeInfo a.dimension ↔
      ∀ t < a.count, a.tad.tadOffset t = a.base t := by
    have hnum : (TAD.init a.shapeInfo a.dimension).numTads = a.count := a.numTads_eq
    rw [StartsAtCoordinates, hnum]
    refine forall_congr' fun t => forall_congr' fun ht => ?_
    rw [dot_start a.positive (a.volume_leftOver.symm ▸ ht)]
    rfl
  rw [← hstarts]
  by_cases hproper : a.dimension.toList.length < a.shapeInfo.rank
  · rw [startsAtCoordinates_iff a.positive a.honest hproper]
    exact ⟨fun h => ⟨h.last, h.offsets⟩, fun h => ⟨h.1, h.2⟩⟩
  · have hall : a.tad.dimension.toList.length = a.tad.shapeInfo.rank := by
      have hsum := a.tad.length_leftOver_add
      have hnot : ¬ a.tad.dimension.toList.length < a.tad.shapeInfo.rank := hproper
      omega
    have hone : volume a.tad.leftOver = 1 := by
      rw [leftOver_all hall]
      rfl
    exact ⟨fun h => ⟨h.last, startsAtCoordinates_of_one a.positive hone⟩,
      fun h => ⟨h.1, Or.inl (a.volume_leftOver ▸ hone)⟩⟩

end Views

/-! ## Combining views -/

section Combine

variable {T : Type} {x y : ShapeInfo} {kx ky : List (Nat × Int)}

/-- The elements of a view in the order that a pairwise transform pairs them in. -/
theorem elementOffset_of_movesAlong (h : MovesAlong x kx) (hews : x.HonestEws) {isFOrder : Bool}
    (hflag : isFOrder = true → x.elementWiseStride ≥ 1 ∧ x.isFOrder = true) {k : Nat}
    (hk : k < volume kx) : elementOffset isFOrder x.axes k = offsetAt kx k := by
  have hk' : k < volume x.axes := h.volume_eq.symm ▸ hk
  have hoffset : offsetAt x.axes k = offsetAt kx k := offsetAt_congr_squeeze h.squeeze_eq hk'
  cases isFOrder with
  | false => rw [elementOffset_eq_ite _ _ hk', if_neg Bool.false_ne_true, hoffset]
  | true =>
      obtain ⟨hpositive, hf⟩ := hflag rfl
      have hlinear := hews hpositive k (x.volume_axes ▸ hk')
      rw [hf] at hlinear
      rw [hlinear, ← hoffset, h.linear hpositive k hk]

/-- Views of one length are combined element by element. -/
theorem pairwiseInto_tensors (op : T → T → T) (run : Runtime T) (dx dy : Int)
    (hx : MovesAlong x kx) (hy : MovesAlong y ky) (hxe : x.HonestEws) (hye : y.HonestEws)
    (hrank : 2 ≤ x.rank) (hvolume : volume ky = volume kx) (hpos : 0 < volume kx)
    (hapart : ∀ k < volume kx, ∀ k' < volume kx, offsetAt kx k = offsetAt kx k' → k = k')
    (hspan : SpanFits run.settings (volume kx)) (source buffer : Int → T) :
    ∃ buffer', pairwiseInto op run x dx y dy source buffer = .ok buffer' ∧
      (∀ k < volume kx, buffer' (dx + offsetAt kx k) =
        op (buffer (dx + offsetAt kx k)) (source (dy + offsetAt ky k))) ∧
      ∀ i, (∀ k < volume kx, i ≠ dx + offsetAt kx k) → buffer' i = buffer i := by
  have hxlength : x.length = volume kx := by rw [← x.volume_axes, hx.volume_eq]
  have hylength : y.length = volume kx := by rw [← y.volume_axes, hy.volume_eq, hvolume]
  have hxpos : x.Positive := positive_of_length (hxlength ▸ hpos)
  have hypos : y.Positive := positive_of_length (hylength ▸ hpos)
  have hcells : CellsApart x := by
    refine cellsApart_of_nodup hxpos
      (List.Nodup.map_on (fun k hk k' hk' heq => ?_) List.nodup_range)
    rw [List.mem_range, hxlength] at hk hk'
    rw [elementOffset_of_movesAlong hx hxe (fun h => absurd h Bool.false_ne_true) hk,
      elementOffset_of_movesAlong hx hxe (fun h => absurd h Bool.false_ne_true) hk'] at heq
    exact hapart k hk k' hk' heq
  obtain ⟨buffer', hrun, hvalue, hframe⟩ := pairwiseInto_spec op run dx dy hxpos hxe hcells hypos
    hye (hylength.trans hxlength.symm) (fun hnil => by rw [ShapeInfo.rank, hnil] at hrank; cases hrank)
    (hxlength.symm ▸ hspan) source buffer
  -- in F order the pairs have the same numbers as in C order, as both views are lines
  have hxcell : ∀ k < volume kx, elementOffset (decide (PairsByColumns x y x)) x.axes k =
      offsetAt kx k := by
    intro k hk
    refine elementOffset_of_movesAlong hx hxe (fun hflag => ?_) hk
    obtain ⟨-, hshares, hf⟩ := of_decide_eq_true hflag
    exact ⟨hshares.1, hf⟩
  have hycell : ∀ k < volume kx, elementOffset (decide (PairsByColumns x y x)) y.axes k =
      offsetAt ky k := by
    intro k hk
    refine elementOffset_of_movesAlong hy hye (fun hflag => ?_) (hvolume.symm ▸ hk)
    obtain ⟨-, hshares, hf⟩ := of_decide_eq_true hflag
    have horder : y.order = x.order := hshares.2.2.2.1.symm
    exact ⟨hshares.2.1, by rw [ShapeInfo.isFOrder, horder]; exact hf⟩
  rw [hxlength] at hvalue hframe
  refine ⟨buffer', hrun, fun k hk => ?_, fun i hi => hframe i fun k hk => ?_⟩
  · have hk' := hvalue k hk
    rwa [hxcell k hk, hycell k hk] at hk'
  · rw [hxcell k hk]
    exact hi k hk

/-- A pairwise transform writes no more cells than the array has elements. -/
theorem pairwiseInto_frame {op : T → T → T} {run : Runtime T} {dx dy : Int} (hx : x.Positive)
    (hxe : x.HonestEws) (hy : y.Positive) (hye : y.HonestEws) (hrank : 2 ≤ x.rank)
    (hspan : SpanFits run.settings x.length) {source buffer buffer' : Int → T}
    (h : pairwiseInto op run x dx y dy source buffer = .ok buffer') :
    ∃ cells : Nat → Int, ∀ i, (∀ k < x.length, i ≠ cells k) → buffer' i = buffer i := by
  unfold pairwiseInto at h
  by_cases hlength : y.length = x.length
  · obtain ⟨work, hwork, hperm⟩ := @exec_numbered x y x dx dy dx run.settings rfl hlength
      (fun hnil => by rw [ShapeInfo.rank, hnil] at hrank; cases hrank) hx hy hxe hye hxe hspan
      fun _ => rfl
    rw [if_neg (not_not.mpr hlength), hwork] at h
    simp only [Except.ok.injEq] at h
    subst h
    refine ⟨fun k => (numberedVisit (decide (PairsByColumns x y x)) x y x dx dy dx k).2.2,
      fun i hi => Stores.storeAll_of_not_written (fun v hv heq => ?_) buffer⟩
    obtain ⟨k, hk, rfl⟩ := List.mem_map.mp (((run.schedule_perm work).trans hperm).mem_iff.mp hv)
    exact hi k (List.mem_range.mp hk) heq.symm
  · rw [if_pos hlength] at h
    cases h

end Combine

end Arrays
end LibND4J
