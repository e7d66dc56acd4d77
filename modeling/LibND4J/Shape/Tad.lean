import LibND4J.Shape.Slices

/-!
# Tensors along dimensions

The class `TAD` cuts an array into the tensors along some of its axes.  One routine
computes the shape information that all these tensors share, by permuting the array's
axes and slicing leading axes off; another one computes where each tensor starts.

Main results:

- Theorem `shapeInfoOnlyShapeAndStride_spec`: the shared shape information moves
  along the chosen axes, whatever branch computes it.
- Theorem `tad2Sub_eq`: a tensor number decodes to the left-over coordinate, with
  zeros at the chosen axes.
- Theorem `enumerates_iff`: the tensors enumerate the array exactly if no offset
  falls to the error marker.
-/

namespace LibND4J
namespace Shape

open Strided Selection

/-- A tensor along dimensions, as `init` leaves it. -/
structure TAD where
  shapeInfo : ShapeInfo
  dimension : Dimensions shapeInfo.rank
  tadIndex : Nat
  numTads : Nat
  wholeThing : Bool

namespace TAD

/-- `TAD::init`.  In the vector case the code tests the pointer to the dimensions, which
is never null here. -/
def init (shapeInfo : ShapeInfo) (dimension : Dimensions shapeInfo.rank) : TAD :=
  let numTads := shapeInfo.length / Shape.tadLength shapeInfo.shape dimension.toList
  { shapeInfo := shapeInfo
    dimension := dimension
    tadIndex := 0
    numTads := numTads
    wholeThing :=
      if ¬ isVector shapeInfo then
        numTads = 1 ∨ ((dimension.toList.length = shapeInfo.rank ∨ numTads = shapeInfo.length) ∧
          shapeInfo.elementWiseStride = 1)
      else
        isScalar shapeInfo }

/-- `tadLength` of the dimensions. -/
def tadLength (tad : TAD) : Nat :=
  Shape.tadLength tad.shapeInfo.shape tad.dimension.toList

/-! ## The shared shape information -/

def sliceOffsetForTensor (index tensorLength lengthPerSlice : Nat) : Nat :=
  index * tensorLength / lengthPerSlice

/-- `lengthPerSlice` along dimensions. -/
def lengthPerSliceAlong (info : ShapeInfo) (dimension : List Nat) : Nat :=
  if isVector info ∧ dimension.length = 1 ∧ info.shape.getD 0 0 = 1 then
    info.length
  else if ¬ isVector info ∧ info.rank = dimension.length then
    info.length
  else
    (removeIndex info.shape dimension).prod

/-- The first slice to take, zero when the slices are empty. -/
def firstSlice (tad : TAD) : Nat :=
  let perSlice := lengthPerSliceAlong tad.shapeInfo tad.dimension.toList
  if perSlice ≤ 0 then
    0
  else
    sliceOffsetForTensor tad.tadIndex (keep tad.shapeInfo.shape tad.dimension.toList).prod perSlice

/-- Take slices until no more than `length` elements are left.  `none` also stands for a
row vector, of which the loop takes the same slice for ever. -/
def sliceLoop (length sliceIndex : Nat) (ret2 : ShapeInfo) : Option ShapeInfo :=
  if hlong : ret2.length > length then
    let sliceIndex := sliceOffsetForTensor sliceIndex ret2.length (lengthPerSlice ret2)
    let sliceIndex := sliceIndex - slices ret2 * (sliceIndex / slices ret2)
    if hrow : isRowVector ret2 = true then
      none
    else
      match hslice : sliceOfShapeBuffer sliceIndex ret2 with
      | none => none
      | some newRet2 =>
          have := slice_smaller (Bool.eq_false_iff.mpr hrow) hslice (Nat.zero_lt_of_lt hlong)
          sliceLoop length sliceIndex newRet2
  else
    some ret2
termination_by (ret2.length, ret2.rank)
decreasing_by
  rcases this with hless | ⟨heq, hless⟩
  · exact Prod.Lex.left _ _ hless
  · rw [heq]
    exact Prod.Lex.right _ hless

/-- The part of `shapeInfoOnlyShapeAndStride` behind its special cases, from the first
slice `ret2` on. -/
def tensorShapeInfo (tad : TAD) (ret2 : ShapeInfo) : Option ShapeInfo :=
  let dimensionLength := tad.dimension.toList.length
  let tensorLength := (keep tad.shapeInfo.shape tad.dimension.toList).prod
  let compLength := if isVector ret2 then ret2.length else tensorLength
  let keepsRow := fun info : ShapeInfo =>
    dimensionLength = 1 ∧ isVector info ∧ info.shape.getD 0 0 = 1
  if compLength = ret2.length then
    if keepsRow ret2 then some ret2
    else if dimensionLength > 1 then some (reverseAxes ret2)
    else some ret2
  else
    let perSlice := lengthPerSlice ret2
    let offset := tad.tadIndex * tensorLength / perSlice
    if tad.firstSlice = 0 ∧ tensorLength = perSlice then
      (sliceOfShapeBuffer offset ret2).map fun newRet2 =>
        if isRowVector newRet2 then newRet2 else reverseAxes newRet2
    else if tensorLength = perSlice then
      let offset := offset - slices ret2 * (offset / slices ret2)
      (sliceOfShapeBuffer offset ret2).map fun newRet2 =>
        if keepsRow newRet2 then newRet2 else reverseAxes newRet2
    else
      (sliceLoop tensorLength tad.firstSlice ret2).map fun newRet2 =>
        if keepsRow newRet2 then newRet2
        else if dimensionLength > 1 then reverseAxes newRet2
        else newRet2

def shapeInfoOnlyShapeAndStride (tad : TAD) : Option ShapeInfo :=
  let info := tad.shapeInfo
  let dimension := tad.dimension.toList
  if tad.wholeThing ∧ dimension = [maxDimension] then
    some createScalarShapeInfo
  else if dimension.length < 1 ∧ ¬ isVector info then
    some info
  else if dimension = [0] ∧ isVector info ∧ info.shape.getD 1 0 = 1 then
    some (permuteShapeBuffer info [1, 0])
  else if dimension = [1] ∧ isVector info ∧ info.shape.getD 0 0 = 1 then
    some info
  else if dimension.length = 1 ∧ info.shape.getD (dimension.getD 0 0) 0 = 1 then
    some { createScalarShapeInfo with offset := tad.tadIndex }
  else
    let newPermuteDims := removeIndex (List.range info.rank) dimension ++ dimension.reverse
    let permuted := permuteShapeBuffer info newPermuteDims
    (sliceOfShapeBuffer tad.firstSlice permuted).bind tad.tensorShapeInfo

/-! ## The offsets -/

/-- `tad2Sub`: spread the coordinate of a tensor over the left-over axes. -/
def tad2Sub (tad : TAD) (index : Nat) : List Nat :=
  let shape := tad.shapeInfo.shape
  let leftOverIndexes := (List.range tad.shapeInfo.rank).filter fun i => !tad.dimension.mem i
  let tadShape := leftOverIndexes.map (shape.getD · 0)
  let sub := ind2subC tadShape index
  (leftOverIndexes.zip sub).foldl (fun ret q => ret.set q.1 q.2)
    (List.replicate tad.shapeInfo.rank 0)

def tadOffset (tad : TAD) (index : Nat) : Int :=
  if tad.wholeThing then
    index
  else
    let ret := getOffset 0 tad.shapeInfo.shape tad.shapeInfo.stride (tad.tad2Sub index)
    if tad.dimension.toList.length > 1 then
      if ret < 0 then -1 else ret
    else
      ret

def createOffsets (tad : TAD) : List Int :=
  (List.range tad.numTads).map tad.tadOffset

end TAD

/-! ## What the slices leave -/

/-- The shape information moves along the given axes; where it has an element-wise
stride, in steps of it. -/
structure MovesAlong (info : ShapeInfo) (kept : List (Nat × Int)) : Prop where
  squeeze_eq : squeeze info.axes = squeeze kept
  linear : info.elementWiseStride ≥ 1 →
    ∀ j < volume kept, offsetAt info.axes j = j * info.elementWiseStride

variable {info : ShapeInfo}

theorem MovesAlong.volume_eq {kept : List (Nat × Int)} (h : MovesAlong info kept) :
    volume info.axes = volume kept := by
  rw [← volume_squeeze, h.squeeze_eq, volume_squeeze]

/-- Decoding an index in the shape information gives the offset along the given axes. -/
theorem MovesAlong.getOffset_eq {kept : List (Nat × Int)} (h : MovesAlong info kept) {j : Nat}
    (hj : j < volume kept) (baseOffset : Int) :
    getOffset baseOffset info.shape info.stride (ind2subC info.shape j) =
      baseOffset + offsetAt kept j := by
  have hlt : j < volume info.axes := h.volume_eq ▸ hj
  have hpos : info.Positive := by
    intro d hd
    apply Nat.pos_of_ne_zero
    rintro rfl
    rw [volume, info.dims_axes, List.prod_eq_zero hd] at hlt
    omega
  have hbox : InBox info.shape (decode info.shape j) :=
    inBox_decode hpos (by rwa [volume, info.dims_axes] at hlt)
  rw [ind2subC_eq_decode hpos, Shape.getOffset_eq hbox info.stride_length,
    ← offsetAt_congr_squeeze h.squeeze_eq hlt, offsetAt_eq_dot, info.dims_axes, info.map_snd_axes]

/-- Left-over axes in front of the kept ones, which stand backwards. -/
def Slicing (kept left : List (Nat × Int)) (info : ShapeInfo) : Prop :=
  info.axes = left ++ kept.reverse ∧ info.elementWiseStride = -1

/-- A row along the only kept axis. -/
def IsRow (kept : List (Nat × Int)) (info : ShapeInfo) : Prop :=
  ∃ k, kept = [k] ∧ info.axes = [(1, 1), k] ∧ info.elementWiseStride = k.2

/-- Nothing is left to be sliced off. -/
def Settled (kept : List (Nat × Int)) (info : ShapeInfo) : Prop :=
  (∃ left, Slicing kept left info ∧ volume left = 1) ∨ IsRow kept info

theorem squeeze_eq_nil {axes : List (Nat × Int)} (h : volume axes = 1) : squeeze axes = [] := by
  induction axes with
  | nil => rfl
  | cons a axes ih =>
      rw [volume_cons] at h
      obtain ⟨ha, hrest⟩ := mul_eq_one.mp h
      simpa [squeeze, ha] using ih hrest

theorem squeeze_reverse (axes : List (Nat × Int)) : squeeze axes.reverse = (squeeze axes).reverse :=
  List.filter_reverse

theorem Settled.squeeze_eq {kept : List (Nat × Int)} (h : Settled kept info) :
    squeeze info.axes = squeeze kept.reverse := by
  rcases h with ⟨left, ⟨haxes, -⟩, hleft⟩ | ⟨k, rfl, haxes, -⟩
  · have hnil : squeeze left = [] := squeeze_eq_nil hleft
    rw [haxes, squeeze, List.filter_append]
    simp only [squeeze] at hnil
    rw [hnil, List.nil_append]
    rfl
  · rw [haxes]
    simp [squeeze]

/-- A settled slice has an element-wise stride only as a row. -/
theorem Settled.linear {kept : List (Nat × Int)} (h : Settled kept info)
    (hews : info.elementWiseStride ≥ 1) {j : Nat} (hj : j < volume kept) :
    offsetAt info.axes j = j * info.elementWiseStride := by
  rcases h with ⟨left, ⟨-, hneg⟩, -⟩ | ⟨k, rfl, haxes, hstride⟩
  · omega
  · rw [volume_cons, volume_nil, mul_one] at hj
    rw [haxes, hstride]
    simp [offsetAt_cons, Nat.div_eq_of_lt hj, Nat.mod_eq_of_lt hj]

/-- Turning the axes around brings the kept ones in order. -/
theorem Settled.reverseAxes {kept : List (Nat × Int)} (h : Settled kept info) :
    MovesAlong (reverseAxes info) kept := by
  refine ⟨?_, fun hews => absurd hews (by simp)⟩
  rw [axes_reverseAxes, squeeze_reverse, h.squeeze_eq, squeeze_reverse, List.reverse_reverse]

/-- A settled slice that reads the same in both directions needs no permutation. -/
theorem Settled.movesAlong {kept : List (Nat × Int)} (h : Settled kept info)
    (hsame : (squeeze info.axes).reverse = squeeze info.axes) : MovesAlong info kept := by
  refine ⟨?_, fun hews j hj => h.linear hews hj⟩
  rw [← hsame, h.squeeze_eq, squeeze_reverse, List.reverse_reverse]

theorem Settled.movesAlong_of_length {kept : List (Nat × Int)} (h : Settled kept info)
    (hone : kept.length = 1) : MovesAlong info kept := by
  obtain ⟨k, rfl⟩ := List.length_eq_one_iff.mp hone
  apply h.movesAlong
  rw [h.squeeze_eq, List.reverse_singleton, ← squeeze_reverse, List.reverse_singleton]

theorem Settled.movesAlong_of_row {kept : List (Nat × Int)} (h : Settled kept info)
    (hrow : isRowVector info) : MovesAlong info kept := by
  apply h.movesAlong
  simp only [isRowVector, isVector, Bool.decide_and, Bool.and_eq_true, decide_eq_true_eq] at hrow
  obtain ⟨⟨hrank, -⟩, hone⟩ := hrow
  rw [← info.length_axes] at hrank
  rw [← info.dims_axes] at hone
  generalize info.axes = axes at hrank hone ⊢
  rcases axes with _ | ⟨a, _ | ⟨b, _ | ⟨c, rest⟩⟩⟩
  · rfl
  · rw [← squeeze_reverse, List.reverse_singleton]
  · have ha : a.1 = 1 := by simpa using hone
    have hdrop : squeeze [a, b] = squeeze [b] := by simp [squeeze, ha]
    rw [hdrop, ← squeeze_reverse, List.reverse_singleton]
  · simp at hrank

/-- One slice takes a left-over axis off, or leaves a row. -/
theorem Slicing.slice {kept left : List (Nat × Int)} {m : Nat × Int}
    (h : Slicing kept (m :: left) info) (hkept : kept ≠ []) (hsingle : ∀ k, kept = [k] → k.1 ≠ 1)
    (hmatrix : 2 < info.rank ∨ m.1 ≠ 1) (sliceIdx : Nat) :
    ∃ next, sliceOfShapeBuffer sliceIdx info = some next ∧
      (Slicing kept left next ∨ left = [] ∧ IsRow kept next) := by
  obtain ⟨haxes, hews⟩ := h
  by_cases hrank : 2 < info.rank
  · obtain ⟨next, hslice, htail, hsame⟩ := slice_of_rank hrank sliceIdx
    refine ⟨next, hslice, Or.inl ⟨?_, hsame.trans hews⟩⟩
    rw [htail, haxes]
    rfl
  · have hm : m.1 ≠ 1 := hmatrix.resolve_left hrank
    rw [← info.length_axes, haxes] at hrank
    obtain ⟨rfl, k, rfl⟩ : left = [] ∧ ∃ k, kept = [k] := by
      have hpos := List.length_pos_of_ne_nil hkept
      simp only [List.length_append, List.length_cons, List.length_reverse] at hrank
      exact ⟨List.eq_nil_of_length_eq_zero (by omega), List.length_eq_one_iff.mp (by omega)⟩
    obtain ⟨next, hslice, hrow, hstride⟩ :=
      slice_of_matrix (b := k) (by simpa using haxes) hm (hsingle k rfl) sliceIdx
    exact ⟨next, hslice, Or.inr ⟨rfl, k, rfl, hrow, hstride⟩⟩

theorem Slicing.length_eq {kept left : List (Nat × Int)} (h : Slicing kept left info) :
    info.length = volume left * volume kept := by
  rw [← info.volume_axes, h.1, volume_append, volume_reverse]

/-- An array whose first axis moves, or of rank above two, is no row vector. -/
theorem not_isRowVector_of_first {m : Nat × Int} {axes : List (Nat × Int)}
    (haxes : info.axes = m :: axes) (h : 2 < info.rank ∨ m.1 ≠ 1) : ¬ isRowVector info = true := by
  intro hrow
  have hshape : info.shape = m.1 :: dims axes := by
    rw [← info.dims_axes, haxes, dims_cons]
  simp only [isRowVector, isVector, hshape, List.getD_cons_zero, Bool.decide_and,
    Bool.and_eq_true, decide_eq_true_eq] at hrow
  omega

/-- The loop of slices returns once the left-over axes are gone. -/
theorem sliceLoop_spec {kept : List (Nat × Int)} (hkept : kept ≠ [])
    (hsingle : ∀ k, kept = [k] → k.1 ≠ 1) (hvolume : 0 < volume kept) {left : List (Nat × Int)}
    (h : Slicing kept left info) (hleft : 0 < volume left) (sliceIndex : Nat) :
    ∃ ret, TAD.sliceLoop (volume kept) sliceIndex info = some ret ∧ Settled kept ret := by
  induction left generalizing info sliceIndex with
  | nil =>
      refine ⟨info, ?_, Or.inl ⟨[], h, rfl⟩⟩
      rw [TAD.sliceLoop, dif_neg (by simp [h.length_eq])]
  | cons m left ih =>
      by_cases hone : volume (m :: left) = 1
      · refine ⟨info, ?_, Or.inl ⟨m :: left, h, hone⟩⟩
        rw [TAD.sliceLoop, dif_neg (by simp [h.length_eq, hone])]
      · rw [volume_cons] at hleft
        have hrest : 0 < volume left := Nat.pos_of_mul_pos_left hleft
        have hlong : info.length > volume kept := by
          rw [h.length_eq]
          apply lt_mul_of_one_lt_left hvolume
          rw [volume_cons] at hone ⊢
          omega
        have hmatrix : 2 < info.rank ∨ m.1 ≠ 1 := by
          cases left with
          | nil => exact Or.inr (by simpa using hone)
          | cons m' left =>
              left
              have hpos := List.length_pos_of_ne_nil hkept
              rw [← info.length_axes, h.1]
              simp only [List.length_append, List.length_cons, List.length_reverse]
              omega
        have hrow : ¬ isRowVector info = true :=
          not_isRowVector_of_first (by rw [h.1, List.cons_append]) hmatrix
        rw [TAD.sliceLoop, dif_pos hlong]
        simp only
        rw [dif_neg hrow]
        generalize TAD.sliceOffsetForTensor sliceIndex info.length (lengthPerSlice info) -
          slices info * (TAD.sliceOffsetForTensor sliceIndex info.length (lengthPerSlice info) /
            slices info) = nextIndex
        obtain ⟨next, hslice, hnext⟩ := h.slice hkept hsingle hmatrix nextIndex
        split
        · rename_i hnone
          rw [hslice] at hnone
          cases hnone
        · rename_i newRet2 hsome
          rw [hslice, Option.some.injEq] at hsome
          subst hsome
          rcases hnext with hnext | ⟨-, hrow⟩
          · exact ih hnext hrest nextIndex
          · refine ⟨next, ?_, Or.inr hrow⟩
            obtain ⟨k, rfl, haxes, -⟩ := hrow
            rw [TAD.sliceLoop, dif_neg]
            rw [← next.volume_axes, haxes]
            simp

section Spec

variable {tad : TAD}

/-- The axes of the array the tensors move along. -/
def TAD.kept (tad : TAD) : List (Nat × Int) :=
  tad.dimension.kept tad.shapeInfo.axes

/-- The other axes of the array. -/
def TAD.leftOver (tad : TAD) : List (Nat × Int) :=
  tad.dimension.leftOver tad.shapeInfo.axes

variable (tad)

theorem TAD.length_kept : tad.kept.length = tad.dimension.toList.length :=
  Shape.length_kept tad.dimension tad.shapeInfo.length_axes

theorem TAD.kept_ne_nil : tad.kept ≠ [] := by
  intro hnil
  have hlen := tad.length_kept
  rw [hnil, List.length_nil] at hlen
  exact tad.dimension.ne_nil (List.eq_nil_of_length_eq_zero hlen.symm)

theorem TAD.length_leftOver_add :
    tad.dimension.toList.length + tad.leftOver.length = tad.shapeInfo.rank :=
  length_kept_add tad.dimension tad.shapeInfo.length_axes

theorem TAD.volume_kept_mul : volume tad.kept * volume tad.leftOver = tad.shapeInfo.length := by
  rw [← tad.shapeInfo.volume_axes]
  exact volume_pick _

@[simp]
theorem TAD.dims_kept : dims tad.kept = tad.dimension.kept tad.shapeInfo.shape :=
  Shape.dims_kept tad.shapeInfo tad.dimension

@[simp]
theorem TAD.dims_leftOver : dims tad.leftOver = tad.dimension.leftOver tad.shapeInfo.shape :=
  Shape.dims_leftOver tad.shapeInfo tad.dimension

theorem TAD.prod_keep : (keep tad.shapeInfo.shape tad.dimension.toList).prod = volume tad.kept := by
  rw [keep_eq_kept, volume, tad.dims_kept]

theorem TAD.tadLength_eq : tad.tadLength = volume tad.kept := by
  rw [TAD.tadLength, Shape.tadLength_eq tad.dimension rfl, volume, tad.dims_kept]

variable {tad}

theorem TAD.volume_kept_pos (hpos : tad.shapeInfo.Positive) : 0 < volume tad.kept := by
  have hlen := hpos.length_pos
  rw [← tad.volume_kept_mul] at hlen
  exact Nat.pos_of_mul_pos_right hlen

theorem TAD.volume_leftOver_pos (hpos : tad.shapeInfo.Positive) : 0 < volume tad.leftOver := by
  have hlen := hpos.length_pos
  rw [← tad.volume_kept_mul] at hlen
  exact Nat.pos_of_mul_pos_left hlen

variable {left : List (Nat × Int)} {ret2 : ShapeInfo}

variable (hsingle : ∀ k, tad.kept = [k] → k.1 ≠ 1)

include hsingle

/-- A first slice of the right length has no further axis that moves. -/
theorem settled_of_compLength (hvolume : 0 < volume tad.kept)
    (hslicing : Slicing tad.kept left ret2)
    (hcomp : (if isVector ret2 then ret2.length else volume tad.kept) = ret2.length) :
    Settled tad.kept ret2 := by
  refine Or.inl ⟨left, hslicing, ?_⟩
  by_cases hvector : isVector ret2
  · have haxes := hslicing.1
    simp only [isVector, Bool.decide_and, Bool.and_eq_true, decide_eq_true_eq] at hvector
    obtain ⟨hrank, hunit⟩ := hvector
    have hlength := List.length_pos_of_ne_nil tad.kept_ne_nil
    rw [← ret2.length_axes, haxes, List.length_append, List.length_reverse] at hrank
    rcases left with _ | ⟨m, _ | ⟨m', rest⟩⟩
    · rfl
    · rw [List.length_singleton] at hrank
      obtain ⟨k, hk⟩ := List.length_eq_one_iff.mp (show tad.kept.length = 1 by omega)
      rw [← ret2.dims_axes, haxes, hk] at hunit
      have hm : m.1 = 1 := by simpa [hsingle k hk] using hunit
      simpa using hm
    · simp only [List.length_cons] at hrank
      omega
  · rw [if_neg hvector, hslicing.length_eq] at hcomp
    exact Nat.eq_of_mul_eq_mul_right hvolume (by rw [one_mul]; exact hcomp.symm)

/-- One more slice of the right length settles an array that is no vector. -/
theorem settled_of_lengthPerSlice (hvolume : 0 < volume tad.kept) {m : Nat × Int}
    (hslicing : Slicing tad.kept (m :: left) ret2) (hvector : isVector ret2 = false)
    (hlast : volume tad.kept = lengthPerSlice ret2) (sliceIdx : Nat) :
    ∃ next, sliceOfShapeBuffer sliceIdx ret2 = some next ∧ Settled tad.kept next := by
  have hcons : ret2.axes = m :: (left ++ tad.kept.reverse) := hslicing.1
  have hmatrix : 2 < ret2.rank ∨ m.1 ≠ 1 := by
    by_cases hrank : 2 < ret2.rank
    · exact Or.inl hrank
    · right
      intro hm
      have hshape : ret2.shape.getD 0 0 = 1 := by
        rw [← ret2.dims_axes, hcons]
        simpa using hm
      simp only [isVector, hshape, true_or, and_true, decide_eq_false_iff_not] at hvector
      omega
  obtain ⟨next, hslice, hnext⟩ := hslicing.slice tad.kept_ne_nil hsingle hmatrix sliceIdx
  refine ⟨next, hslice, ?_⟩
  rcases hnext with hnext | ⟨-, hrow⟩
  · refine Or.inl ⟨left, hnext, ?_⟩
    rw [lengthPerSlice_eq hcons, volume_append, volume_reverse] at hlast
    exact Nat.eq_of_mul_eq_mul_right hvolume (by rw [one_mul]; exact hlast.symm)
  · exact Or.inr hrow

/-- From the first slice on, the routine ends with the kept axes. -/
theorem tensorShapeInfo_spec (hvolume : 0 < volume tad.kept) (hleft : 0 < volume left)
    (h : Slicing tad.kept left ret2 ∨ IsRow tad.kept ret2) :
    ∃ ret, tad.tensorShapeInfo ret2 = some ret ∧ MovesAlong ret tad.kept := by
  have hone : ¬ tad.dimension.toList.length > 1 → tad.kept.length = 1 := by
    intro hle
    have hpos := List.length_pos_of_ne_nil tad.dimension.ne_nil
    rw [tad.length_kept]
    omega
  unfold TAD.tensorShapeInfo
  simp only [tad.prod_keep]
  by_cases hcomp : (if isVector ret2 then ret2.length else volume tad.kept) = ret2.length
  · have hsettled : Settled tad.kept ret2 := by
      rcases h with hslicing | hrow
      · exact settled_of_compLength hsingle hvolume hslicing hcomp
      · exact Or.inr hrow
    rw [if_pos hcomp]
    split
    · rename_i hrow
      exact ⟨_, rfl, hsettled.movesAlong_of_length (by rw [tad.length_kept]; exact hrow.1)⟩
    · split
      · exact ⟨_, rfl, hsettled.reverseAxes⟩
      · rename_i hle
        exact ⟨_, rfl, hsettled.movesAlong_of_length (hone hle)⟩
  · -- a left-over axis moves, so the slice is neither a vector nor complete
    have hvector : isVector ret2 = false := by
      cases hv : isVector ret2 with
      | false => rfl
      | true => exact absurd (by rw [if_pos hv]) hcomp
    rw [hvector] at hcomp
    have hslicing : Slicing tad.kept left ret2 := by
      rcases h with hslicing | ⟨k, -, haxes, -⟩
      · exact hslicing
      · have hshape : ret2.shape = [1, k.1] := by rw [← ret2.dims_axes, haxes]; rfl
        simp [isVector, ShapeInfo.rank, hshape] at hvector
    obtain ⟨m, rest, rfl⟩ : ∃ m rest, left = m :: rest := by
      apply List.exists_cons_of_ne_nil
      rintro rfl
      have hlen := hslicing.length_eq
      rw [volume_nil, one_mul] at hlen
      exact absurd hlen.symm (by simpa using hcomp)
    rw [if_neg (by simpa [hvector] using hcomp)]
    split
    · rename_i hlast
      obtain ⟨next, hslice, hnext⟩ := settled_of_lengthPerSlice hsingle hvolume hslicing hvector
        hlast.2 (tad.tadIndex * volume tad.kept / lengthPerSlice ret2)
      rw [hslice, Option.map_some]
      refine ⟨_, rfl, ?_⟩
      split
      · rename_i hrow
        exact hnext.movesAlong_of_row hrow
      · exact hnext.reverseAxes
    · split
      · rename_i hlast
        generalize tad.tadIndex * volume tad.kept / lengthPerSlice ret2 - slices ret2 *
          (tad.tadIndex * volume tad.kept / lengthPerSlice ret2 / slices ret2) = sliceIdx
        obtain ⟨next, hslice, hnext⟩ :=
          settled_of_lengthPerSlice hsingle hvolume hslicing hvector hlast sliceIdx
        rw [hslice, Option.map_some]
        refine ⟨_, rfl, ?_⟩
        split
        · rename_i hrow
          exact hnext.movesAlong_of_length (by rw [tad.length_kept]; exact hrow.1)
        · exact hnext.reverseAxes
      · obtain ⟨next, hloop, hnext⟩ :=
          sliceLoop_spec tad.kept_ne_nil hsingle hvolume hslicing hleft tad.firstSlice
        rw [hloop, Option.map_some]
        refine ⟨_, rfl, ?_⟩
        split
        · rename_i hrow
          exact hnext.movesAlong_of_length (by rw [tad.length_kept]; exact hrow.1)
        · split
          · exact hnext.reverseAxes
          · rename_i hle
            exact hnext.movesAlong_of_length (hone hle)

omit hsingle

/-- An honest element-wise stride steps through the axes of a vector in either order. -/
theorem honest_vector {info : ShapeInfo} (h : info.HonestEws)
    (hsame : squeeze info.axes.reverse = squeeze info.axes) (hews : info.elementWiseStride ≥ 1)
    {k : Nat} (hk : k < info.length) : offsetAt info.axes k = k * info.elementWiseStride := by
  have helement := h hews k hk
  rw [elementOffset] at helement
  split at helement
  · rw [← offsetAtF_eq_dot info.axes (by rwa [info.volume_axes]), offsetAtF] at helement
    rw [← helement]
    exact (offsetAt_congr_squeeze hsame (by rwa [volume_reverse, info.volume_axes])).symm
  · rw [← offsetAt_eq_dot] at helement
    exact helement

/-- The array has two axes when it is a vector of rank two or more. -/
theorem axes_of_isVector {info : ShapeInfo} (hrank : 2 ≤ info.rank) (hvector : isVector info) :
    ∃ a b, info.axes = [a, b] := by
  simp only [isVector, Bool.decide_and, Bool.and_eq_true, decide_eq_true_eq] at hvector
  apply List.length_eq_two.mp
  rw [info.length_axes]
  omega

/-- The only chosen axis. -/
theorem TAD.kept_singleton {d : Nat} (hdim : tad.dimension.toList = [d]) :
    tad.kept = [tad.shapeInfo.axes.getD d default] := by
  rw [TAD.kept, ← map_getD_eq_kept tad.dimension tad.shapeInfo.length_axes default, hdim]
  rfl

variable (hpos : tad.shapeInfo.Positive)

include hpos

/-- The general branch, for dimensions that are not a single axis of extent one. -/
theorem tensorShapeInfo_permuted (hrank : 2 ≤ tad.shapeInfo.rank)
    (hproper : tad.dimension.toList.length < tad.shapeInfo.rank)
    (hsingle : ∀ k, tad.kept = [k] → k.1 ≠ 1)
    (hleft : ∀ m, tad.leftOver = [m] → tad.shapeInfo.rank = 2 → m.1 ≠ 1) :
    ∃ ret, (sliceOfShapeBuffer tad.firstSlice (permuteShapeBuffer tad.shapeInfo
      (removeIndex (List.range tad.shapeInfo.rank) tad.dimension.toList ++
        tad.dimension.toList.reverse))).bind tad.tensorShapeInfo = some ret ∧
      MovesAlong ret tad.kept := by
  have haxes := axes_permute_dimensions tad.shapeInfo tad.dimension
  generalize hpermuted : permuteShapeBuffer tad.shapeInfo
    (removeIndex (List.range tad.shapeInfo.rank) tad.dimension.toList ++
      tad.dimension.toList.reverse) = permuted at haxes ⊢
  have hslicing : Slicing tad.kept tad.leftOver permuted := ⟨haxes, by rw [← hpermuted]; rfl⟩
  have hlen := tad.length_leftOver_add
  have hvolume := TAD.volume_leftOver_pos hpos
  obtain ⟨m, left, hcons⟩ : ∃ m left, tad.leftOver = m :: left := by
    apply List.exists_cons_of_length_pos
    omega
  rw [hcons] at hslicing
  rw [hcons, volume_cons] at hvolume
  have hmatrix : 2 < permuted.rank ∨ m.1 ≠ 1 := by
    have hsame : permuted.rank = tad.shapeInfo.rank := by
      rw [← permuted.length_axes, hslicing.1, ← hcons, List.length_append, List.length_reverse,
        tad.length_kept, Nat.add_comm, hlen]
    by_cases htwo : 2 < permuted.rank
    · exact Or.inl htwo
    · right
      have hkept := List.length_pos_of_ne_nil tad.dimension.ne_nil
      rw [hcons, List.length_cons] at hlen
      have hnil : left = [] := List.eq_nil_of_length_eq_zero (by omega)
      exact hleft m (by rw [hcons, hnil]) (by omega)
  obtain ⟨ret2, hslice, hnext⟩ := hslicing.slice tad.kept_ne_nil hsingle hmatrix tad.firstSlice
  rw [hslice, Option.bind_some]
  refine tensorShapeInfo_spec hsingle (TAD.volume_kept_pos hpos)
    (Nat.pos_of_mul_pos_left hvolume) ?_
  rcases hnext with hnext | ⟨-, hrow⟩
  · exact Or.inl hnext
  · exact Or.inr hrow

/-- The shape information of the tensors has the chosen axes, whatever the element-wise stride
of the array says. -/
theorem shapeInfoOnlyShapeAndStride_axes (hrank : 2 ≤ tad.shapeInfo.rank)
    (hmax : tad.shapeInfo.rank ≤ maxDimension)
    (hproper : tad.dimension.toList.length < tad.shapeInfo.rank) :
    ∃ ret, tad.shapeInfoOnlyShapeAndStride = some ret ∧ squeeze ret.axes = squeeze tad.kept ∧
      (tad.shapeInfo.HonestEws → ret.elementWiseStride ≥ 1 →
        ∀ j < volume tad.kept, offsetAt ret.axes j = j * ret.elementWiseStride) := by
  have hmarker : ¬ (tad.wholeThing ∧ tad.dimension.toList = [maxDimension]) := by
    rintro ⟨-, hdim⟩
    have hlt := tad.dimension.lt_rank maxDimension (by rw [hdim]; exact List.mem_singleton_self _)
    omega
  have hempty : ¬ (tad.dimension.toList.length < 1 ∧ ¬ isVector tad.shapeInfo) := by
    have hne := List.length_pos_of_ne_nil tad.dimension.ne_nil
    omega
  unfold TAD.shapeInfoOnlyShapeAndStride
  simp only
  rw [if_neg hmarker, if_neg hempty]
  by_cases hcolumn : tad.dimension.toList = [0] ∧ isVector tad.shapeInfo ∧
      tad.shapeInfo.shape.getD 1 0 = 1
  · -- a column vector along its first axis
    rw [if_pos hcolumn]
    obtain ⟨hdim, hvector, hone⟩ := hcolumn
    obtain ⟨a, b, haxes⟩ := axes_of_isVector hrank hvector
    have htwo : tad.shapeInfo.rank = 2 := by rw [← tad.shapeInfo.length_axes, haxes]; rfl
    rw [← tad.shapeInfo.dims_axes, haxes] at hone
    have hb : b.1 = 1 := by simpa using hone
    refine ⟨_, rfl, ?_, fun _ h => absurd h (by simp)⟩
    rw [axes_permuteShapeBuffer (by rw [htwo]; decide), TAD.kept_singleton hdim, haxes]
    simp [squeeze, hb]
  rw [if_neg hcolumn]
  by_cases hrow : tad.dimension.toList = [1] ∧ isVector tad.shapeInfo ∧
      tad.shapeInfo.shape.getD 0 0 = 1
  · -- a row vector along its second axis
    rw [if_pos hrow]
    obtain ⟨hdim, hvector, hone⟩ := hrow
    obtain ⟨a, b, haxes⟩ := axes_of_isVector hrank hvector
    rw [← tad.shapeInfo.dims_axes, haxes] at hone
    have ha : a.1 = 1 := by simpa using hone
    have hkept : tad.kept = [b] := by rw [TAD.kept_singleton hdim, haxes]; rfl
    have hdrop : squeeze tad.shapeInfo.axes = squeeze [b] := by simp [haxes, squeeze, ha]
    have hsame : squeeze tad.shapeInfo.axes.reverse = squeeze tad.shapeInfo.axes := by
      rw [squeeze_reverse, hdrop, ← squeeze_reverse, List.reverse_singleton]
    refine ⟨_, rfl, by rw [hdrop, hkept], fun hews h j hj => honest_vector hews hsame h ?_⟩
    rw [← tad.shapeInfo.volume_axes, ← volume_squeeze, hdrop, volume_squeeze, ← hkept]
    exact hj
  rw [if_neg hrow]
  by_cases hunit : tad.dimension.toList.length = 1 ∧
      tad.shapeInfo.shape.getD (tad.dimension.toList.getD 0 0) 0 = 1
  · -- an axis of extent one: the tensors are scalars
    rw [if_pos hunit]
    obtain ⟨hlen, hone⟩ := hunit
    obtain ⟨d, hdim⟩ := List.length_eq_one_iff.mp hlen
    have hkept := TAD.kept_singleton hdim
    have hvolume : volume tad.kept = 1 := by
      rw [← tad.tadLength_eq, TAD.tadLength, hdim, tadLength_singleton]
      rwa [hdim] at hone
    refine ⟨_, rfl, ?_, fun _ _ j hj => ?_⟩
    · rw [squeeze_eq_nil hvolume]
      rfl
    · rw [hvolume, Nat.lt_one_iff] at hj
      rw [hj, offsetAt_zero]
      rfl
  rw [if_neg hunit]
  have hsingle : ∀ k, tad.kept = [k] → k.1 ≠ 1 := by
    intro k hk hone
    have hlen : tad.dimension.toList.length = 1 := by rw [← tad.length_kept, hk]; rfl
    refine hunit ⟨hlen, ?_⟩
    obtain ⟨d, hdim⟩ := List.length_eq_one_iff.mp hlen
    have hvolume : tad.tadLength = 1 := by rw [tad.tadLength_eq, hk]; simpa using hone
    rw [TAD.tadLength, hdim, tadLength_singleton] at hvolume
    rwa [hdim]
  have hleft : ∀ m, tad.leftOver = [m] → tad.shapeInfo.rank = 2 → m.1 ≠ 1 := by
    -- the two axes of a vector, the left-over one of extent one, are special cases above
    intro m hm htwo hone
    have hlen := tad.length_leftOver_add
    rw [hm, List.length_singleton] at hlen
    obtain ⟨d, hdim⟩ := List.length_eq_one_iff.mp (show tad.dimension.toList.length = 1 by omega)
    have hlt := tad.dimension.lt_rank d (by rw [hdim]; exact List.mem_singleton_self _)
    obtain ⟨a, b, haxes⟩ := List.length_eq_two.mp (tad.shapeInfo.length_axes.trans htwo)
    have hshape : tad.shapeInfo.shape = [a.1, b.1] := by
      rw [← tad.shapeInfo.dims_axes, haxes]
      rfl
    rw [TAD.leftOver, haxes] at hm
    rw [htwo] at hlt
    interval_cases d
    · have hb : b = m := by
        simpa [Dimensions.leftOver, pick, Dimensions.mem, hdim] using hm
      exact hcolumn ⟨hdim, by simp [isVector, htwo, hshape, hb, hone], by simp [hshape, hb, hone]⟩
    · have ha : a = m := by
        simpa [Dimensions.leftOver, pick, Dimensions.mem, hdim] using hm
      exact hrow ⟨hdim, by simp [isVector, htwo, hshape, ha, hone], by simp [hshape, ha, hone]⟩
  obtain ⟨ret, hret, hmoves⟩ := tensorShapeInfo_permuted hpos hrank hproper hsingle hleft
  exact ⟨ret, hret, hmoves.squeeze_eq, fun _ => hmoves.linear⟩

/-- The shape information of the tensors moves along the chosen axes. -/
theorem shapeInfoOnlyShapeAndStride_spec (hews : tad.shapeInfo.HonestEws)
    (hrank : 2 ≤ tad.shapeInfo.rank) (hmax : tad.shapeInfo.rank ≤ maxDimension)
    (hproper : tad.dimension.toList.length < tad.shapeInfo.rank) :
    ∃ ret, tad.shapeInfoOnlyShapeAndStride = some ret ∧ MovesAlong ret tad.kept := by
  obtain ⟨ret, hret, haxes, hlinear⟩ := shapeInfoOnlyShapeAndStride_axes hpos hrank hmax hproper
  exact ⟨ret, hret, haxes, hlinear hews⟩

/-- The tensors have as many elements as the product of the extents iterated over. -/
theorem length_shapeInfoOnlyShapeAndStride (hrank : 2 ≤ tad.shapeInfo.rank)
    (hmax : tad.shapeInfo.rank ≤ maxDimension)
    (hproper : tad.dimension.toList.length < tad.shapeInfo.rank) :
    ∃ ret, tad.shapeInfoOnlyShapeAndStride = some ret ∧ ret.length = tad.tadLength := by
  obtain ⟨ret, hret, haxes, -⟩ := shapeInfoOnlyShapeAndStride_axes hpos hrank hmax hproper
  refine ⟨ret, hret, ?_⟩
  rw [← ret.volume_axes, ← volume_squeeze, haxes, volume_squeeze, tad.tadLength_eq]

/-! ## Where the tensors start -/

/-- A tensor number decodes to its left-over coordinate, zero at the dimensions. -/
theorem tad2Sub_eq (index : Nat) :
    tad.tad2Sub index = tad.dimension.coordinate
      (decode (tad.dimension.leftOver tad.shapeInfo.shape) index)
      (decode (tad.dimension.kept tad.shapeInfo.shape) 0) := by
  have hshape : ((List.range tad.shapeInfo.rank).filter fun i => !tad.dimension.mem i).map
      (tad.shapeInfo.shape.getD · 0) = tad.dimension.leftOver tad.shapeInfo.shape :=
    map_getD_filter_range (p := fun i => !tad.dimension.mem i) tad.shapeInfo.shape 0
  have hlen : (decode (tad.dimension.leftOver tad.shapeInfo.shape) index).length =
      ((List.range tad.shapeInfo.rank).filter fun i => !tad.dimension.mem i).length := by
    rw [length_decode, ← hshape, List.length_map]
  have hzero : (tad.dimension.kept tad.shapeInfo.shape).length =
      ((List.range tad.shapeInfo.rank).filter tad.dimension.mem).length := by
    have hfilter := filter_range_eq tad.dimension.sorted tad.dimension.lt_rank
    rw [Shape.length_kept tad.dimension rfl]
    exact congrArg List.length hfilter.symm
  unfold TAD.tad2Sub
  simp only
  rw [hshape, ind2subC_eq_decode (hpos.leftOver tad.dimension), Dimensions.coordinate,
    decode_zero, hzero]
  rw [List.range_eq_range'] at hlen ⊢
  have hnil : ([] : List Nat).length = 0 := rfl
  exact foldl_set_eq_merge 0 hnil hlen

omit hpos

/-- Offset of the first element of a tensor. -/
def TAD.base (tad : TAD) (u : List Nat) : Int :=
  dot u (tad.dimension.leftOver tad.shapeInfo.stride)

theorem TAD.offsetAt_leftOver (tad : TAD) (t : Nat) :
    offsetAt tad.leftOver t =
      tad.base (decode (tad.dimension.leftOver tad.shapeInfo.shape) t) := by
  rw [offsetAt_eq_dot, tad.dims_leftOver, TAD.leftOver, map_snd_leftOver, TAD.base]

theorem TAD.offsetAt_kept (tad : TAD) (j : Nat) :
    offsetAt tad.kept j = dot (decode (tad.dimension.kept tad.shapeInfo.shape) j)
      (tad.dimension.kept tad.shapeInfo.stride) := by
  rw [offsetAt_eq_dot, tad.dims_kept, TAD.kept, map_snd_kept]

variable (hpos : tad.shapeInfo.Positive)

include hpos

theorem TAD.inBox_leftOver {t : Nat} (ht : t < volume tad.leftOver) :
    InBox (tad.dimension.leftOver tad.shapeInfo.shape)
      (decode (tad.dimension.leftOver tad.shapeInfo.shape) t) := by
  apply inBox_decode (hpos.leftOver tad.dimension)
  rw [← tad.dims_leftOver]
  exact ht

theorem TAD.inBox_kept {j : Nat} (hj : j < volume tad.kept) :
    InBox (tad.dimension.kept tad.shapeInfo.shape)
      (decode (tad.dimension.kept tad.shapeInfo.shape) j) := by
  apply inBox_decode (hpos.kept tad.dimension)
  rw [← tad.dims_kept]
  exact hj

/-- The offset of an element of a tensor. -/
theorem TAD.dot_coordinate {u : List Nat}
    (hu : InBox (tad.dimension.leftOver tad.shapeInfo.shape) u) {j : Nat}
    (hj : j < volume tad.kept) :
    dot (tad.dimension.coordinate u (decode (tad.dimension.kept tad.shapeInfo.shape) j))
      tad.shapeInfo.stride = tad.base u + offsetAt tad.kept j := by
  rw [Shape.dot_coordinate tad.dimension hu (TAD.inBox_kept hpos hj), tad.offsetAt_kept, TAD.base]

/-- The coordinate of a tensor's number has the offset of its first element. -/
theorem getOffset_tad2Sub {t : Nat} (ht : t < volume tad.leftOver) :
    getOffset 0 tad.shapeInfo.shape tad.shapeInfo.stride (tad.tad2Sub t) =
      tad.base (decode (tad.dimension.leftOver tad.shapeInfo.shape) t) := by
  have hu := TAD.inBox_leftOver hpos ht
  have hv := TAD.inBox_kept hpos (TAD.volume_kept_pos hpos)
  have hbox := (bijOn_coordinate tad.dimension rfl).mapsTo (show (_, _) ∈ _ from ⟨hu, hv⟩)
  rw [tad2Sub_eq hpos, getOffset_eq hbox tad.shapeInfo.stride_length, zero_add,
    TAD.dot_coordinate hpos hu (TAD.volume_kept_pos hpos), offsetAt_zero, add_zero]

/-- Off the shortcut, an offset is that of the tensor's first element, save for the
error marker with more than one dimension. -/
theorem tadOffset_of_not_wholeThing (hwhole : tad.wholeThing = false) {t : Nat}
    (ht : t < volume tad.leftOver) :
    tad.tadOffset t = if tad.dimension.toList.length > 1 then
        max (tad.base (decode (tad.dimension.leftOver tad.shapeInfo.shape) t)) (-1)
      else
        tad.base (decode (tad.dimension.leftOver tad.shapeInfo.shape) t) := by
  rw [TAD.tadOffset, hwhole, if_neg Bool.false_ne_true]
  simp only [getOffset_tad2Sub hpos ht]
  split
  · split <;> omega
  · rfl

end Spec

section Enumeration

variable {info : ShapeInfo} {dimension : Dimensions info.rank}

theorem numTads_init (hpos : info.Positive) :
    (TAD.init info dimension).numTads = volume (TAD.init info dimension).leftOver := by
  have hmul := (TAD.init info dimension).volume_kept_mul
  have hkept : 0 < volume (TAD.init info dimension).kept := TAD.volume_kept_pos hpos
  have htad := (TAD.init info dimension).tadLength_eq
  show info.length / tadLength info.shape dimension.toList = _
  rw [TAD.tadLength] at htad
  rw [show tadLength info.shape dimension.toList = volume (TAD.init info dimension).kept from htad]
  exact Nat.div_eq_of_eq_mul_right hkept hmul.symm

theorem wholeThing_of_vector (hvector : isVector info = true) :
    (TAD.init info dimension).wholeThing = isScalar info := by
  simp [TAD.init, hvector]

theorem wholeThing_of_not_vector (hvector : isVector info = false) :
    (TAD.init info dimension).wholeThing = true ↔
      (TAD.init info dimension).numTads = 1 ∨ ((dimension.toList.length = info.rank ∨
        (TAD.init info dimension).numTads = info.length) ∧ info.elementWiseStride = 1) := by
  simp [TAD.init, hvector]

theorem length_of_isScalar (h : isScalar info = true) : info.length = 1 := by
  rw [isScalar] at h
  rw [ShapeInfo.length]
  split at h
  · rename_i d hshape
    rw [hshape]
    simpa using h
  · rename_i d e hshape
    have hone : d = 1 ∧ e = 1 := by simpa using h
    rw [hshape, hone.1, hone.2]
    rfl
  · cases h

/-- The shortcut is taken for one tensor, or for tensors of one element each that lie in
the array's order. -/
theorem wholeThing_init (hpos : info.Positive) (hproper : dimension.toList.length < info.rank)
    (hwhole : (TAD.init info dimension).wholeThing = true) :
    volume (TAD.init info dimension).leftOver = 1 ∨
      volume (TAD.init info dimension).kept = 1 ∧ info.elementWiseStride = 1 := by
  have hnum := @numTads_init info dimension hpos
  have hmul : volume (TAD.init info dimension).kept * volume (TAD.init info dimension).leftOver =
      info.length := (TAD.init info dimension).volume_kept_mul
  have hleft : 0 < volume (TAD.init info dimension).leftOver := TAD.volume_leftOver_pos hpos
  cases hvector : isVector info with
  | true =>
      left
      rw [wholeThing_of_vector hvector] at hwhole
      exact (mul_eq_one.mp (hmul.trans (length_of_isScalar hwhole))).2
  | false =>
      rw [wholeThing_of_not_vector hvector, hnum] at hwhole
      rcases hwhole with hone | ⟨hall | hall, hews⟩
      · exact Or.inl hone
      · omega
      · right
        refine ⟨?_, hews⟩
        exact Nat.eq_of_mul_eq_mul_right hleft (by rw [hmul, one_mul, hall])

/-- With several tensors the shortcut is taken just for arrays of rank above two whose
chosen axes have extent one and whose elements lie one cell apart. -/
theorem wholeThing_iff (hpos : info.Positive) (hproper : dimension.toList.length < info.rank)
    (hmany : volume (TAD.init info dimension).leftOver ≠ 1) :
    (TAD.init info dimension).wholeThing = true ↔
      2 < info.rank ∧ volume (TAD.init info dimension).kept = 1 ∧ info.elementWiseStride = 1 := by
  have hmul : volume (TAD.init info dimension).kept * volume (TAD.init info dimension).leftOver =
      info.length := (TAD.init info dimension).volume_kept_mul
  constructor
  · intro hwhole
    obtain ⟨hkept, hews⟩ := (wholeThing_init hpos hproper hwhole).resolve_left hmany
    refine ⟨?_, hkept, hews⟩
    by_contra hrank
    have hsome := List.length_pos_of_ne_nil dimension.ne_nil
    obtain ⟨a, b, haxes⟩ := List.length_eq_two.mp
      (info.length_axes.trans (show info.rank = 2 by omega))
    have hshape : info.shape = [a.1, b.1] := by rw [← info.dims_axes, haxes]; rfl
    have hlen := (TAD.init info dimension).length_kept
    have hunit : a.1 = 1 ∨ b.1 = 1 := by
      have hdef : (TAD.init info dimension).kept = pick dimension.mem 0 [a, b] := by
        rw [← haxes]
        rfl
      rw [hdef] at hkept hlen
      cases hfirst : dimension.mem 0 with
      | true =>
          rw [pick_cons_pos hfirst, volume_cons] at hkept
          exact Or.inl (mul_eq_one.mp hkept).1
      | false =>
          cases hsecond : dimension.mem 1 with
          | true =>
              rw [pick_cons_neg hfirst, pick_cons_pos hsecond, volume_cons] at hkept
              exact Or.inr (mul_eq_one.mp hkept).1
          | false =>
              rw [pick_cons_neg hfirst, pick_cons_neg hsecond] at hlen
              exact absurd hlen hsome.ne
    have hvector : isVector info = true := by
      rcases hunit with hone | hone
      · simp [isVector, ShapeInfo.rank, hshape, hone]
      · simp [isVector, ShapeInfo.rank, hshape, hone]
    rw [wholeThing_of_vector hvector] at hwhole
    exact hmany (mul_eq_one.mp (hmul.trans (length_of_isScalar hwhole))).2
  · rintro ⟨hrank, hkept, hews⟩
    have hvector : isVector info = false := by simp [isVector, Nat.not_le.mpr hrank]
    rw [wholeThing_of_not_vector hvector, numTads_init hpos]
    rw [hkept, one_mul] at hmul
    exact Or.inr ⟨Or.inr hmul, hews⟩

/-- What the tensors are for: each has a left-over coordinate of its own, and its elements
are those with that coordinate, in C order along the dimensions. -/
def TAD.Enumerates (tad : TAD) : Prop :=
  ∃ ret, tad.shapeInfoOnlyShapeAndStride = some ret ∧
    ∃ u : Nat → List Nat,
      Set.BijOn u {t | t < tad.numTads}
        {c | InBox (tad.dimension.leftOver tad.shapeInfo.shape) c} ∧
      Set.BijOn (fun q : Nat × Nat => tad.dimension.coordinate (u q.1)
          (decode (tad.dimension.kept tad.shapeInfo.shape) q.2))
        {q | q.1 < tad.numTads ∧ q.2 < tad.tadLength} {c | InBox tad.shapeInfo.shape c} ∧
      ∀ t < tad.numTads, ∀ j < tad.tadLength,
        tad.createOffsets.getD t 0 + getOffset 0 ret.shape ret.stride (ind2subC ret.shape j) =
          dot (tad.dimension.coordinate (u t)
            (decode (tad.dimension.kept tad.shapeInfo.shape) j)) tad.shapeInfo.stride

theorem getD_createOffsets (tad : TAD) {t : Nat} (ht : t < tad.numTads) :
    tad.createOffsets.getD t 0 = tad.tadOffset t := by
  rw [TAD.createOffsets, List.getD_eq_getElem?_getD, List.getElem?_map, List.getElem?_range ht]
  rfl

/-- The tensors enumerate the array exactly if their offsets are those of the left-over
coordinates, in some order. -/
theorem enumerates_iff_offsets (hpos : info.Positive) (hews : info.HonestEws)
    (hrank : 2 ≤ info.rank) (hmax : info.rank ≤ maxDimension)
    (hproper : dimension.toList.length < info.rank) :
    (TAD.init info dimension).Enumerates ↔
      ∃ u : Nat → List Nat,
        Set.BijOn u {t | t < volume (TAD.init info dimension).leftOver}
          {c | InBox (dimension.leftOver info.shape) c} ∧
        ∀ t < volume (TAD.init info dimension).leftOver,
          (TAD.init info dimension).tadOffset t = (TAD.init info dimension).base (u t) := by
  generalize htad : TAD.init info dimension = tad
  have hnum : tad.numTads = volume tad.leftOver := by
    rw [← htad]
    exact numTads_init hpos
  obtain ⟨ret, hret, hmoves⟩ : ∃ ret, tad.shapeInfoOnlyShapeAndStride = some ret ∧
      MovesAlong ret tad.kept := by
    rw [← htad]
    exact shapeInfoOnlyShapeAndStride_spec hpos hews hrank hmax hproper
  have hposTad : tad.shapeInfo.Positive := by
    rw [← htad]
    exact hpos
  have hzero := TAD.volume_kept_pos hposTad
  have hboxes : {c | InBox (dimension.leftOver info.shape) c} =
      {c | InBox (tad.dimension.leftOver tad.shapeInfo.shape) c} := by
    rw [← htad]
    rfl
  rw [hboxes]
  unfold TAD.Enumerates
  rw [hnum, tad.tadLength_eq]
  constructor
  · rintro ⟨ret', hret', u, hu, -, hoffset⟩
    rw [hret, Option.some.injEq] at hret'
    subst hret'
    refine ⟨u, hu, fun t ht => ?_⟩
    have hfirst := hoffset t ht 0 hzero
    rw [getD_createOffsets tad (hnum ▸ ht), hmoves.getOffset_eq hzero, zero_add,
      TAD.dot_coordinate hposTad (hu.mapsTo ht) hzero] at hfirst
    exact add_right_cancel hfirst
  · rintro ⟨u, hu, hoffset⟩
    refine ⟨ret, hret, u, hu, ?_, fun t ht j hj => ?_⟩
    · have hdecode := bijOn_decode (hposTad.kept tad.dimension)
      have hprod : (tad.dimension.kept tad.shapeInfo.shape).prod = volume tad.kept := by
        rw [volume, tad.dims_kept]
      rw [hprod] at hdecode
      exact (bijOn_coordinate tad.dimension rfl).comp (hu.prodMap hdecode)
    · rw [getD_createOffsets tad (hnum ▸ ht), hoffset t ht, hmoves.getOffset_eq hj, zero_add,
        TAD.dot_coordinate hposTad (hu.mapsTo ht) hj]

theorem TAD.bijOn_decode_leftOver (tad : TAD) (hpos : tad.shapeInfo.Positive) :
    Set.BijOn (decode (tad.dimension.leftOver tad.shapeInfo.shape)) {t | t < volume tad.leftOver}
      {c | InBox (tad.dimension.leftOver tad.shapeInfo.shape) c} := by
  have hdecode := bijOn_decode (hpos.leftOver tad.dimension)
  rwa [← tad.dims_leftOver] at hdecode ⊢

/-- Tensors of one element each, one cell apart, lie in the array's own order. -/
theorem offset_leftOver_of_unit (hews : info.HonestEws)
    (hkept : volume (TAD.init info dimension).kept = 1) (hunit : info.elementWiseStride = 1)
    {t : Nat} (ht : t < volume (TAD.init info dimension).leftOver) :
    (if info.isFOrder then offsetAtF (TAD.init info dimension).leftOver t
      else offsetAt (TAD.init info dimension).leftOver t) = t := by
  have hmul : volume (TAD.init info dimension).kept * volume (TAD.init info dimension).leftOver =
      info.length := (TAD.init info dimension).volume_kept_mul
  have hsqueeze : squeeze (TAD.init info dimension).leftOver = squeeze info.axes :=
    squeeze_pick_not hkept
  rw [hkept, one_mul] at hmul
  have hoffset := hews (by omega) t (hmul ▸ ht)
  rw [hunit, mul_one, elementOffset_eq_ite _ _ (by rwa [info.volume_axes, ← hmul])] at hoffset
  cases horder : info.isFOrder with
  | false =>
      rw [horder] at hoffset
      exact (offsetAt_congr_squeeze hsqueeze ht).trans hoffset
  | true =>
      rw [horder] at hoffset
      have hreverse : squeeze (TAD.init info dimension).leftOver.reverse =
          squeeze info.axes.reverse := by
        rw [squeeze_reverse, hsqueeze, squeeze_reverse]
      exact (offsetAt_congr_squeeze hreverse (by rwa [volume_reverse])).trans hoffset

/-- On the shortcut the tensor numbers are the offsets, in the array's own order. -/
theorem offsets_of_wholeThing (hpos : info.Positive) (hews : info.HonestEws)
    (hproper : dimension.toList.length < info.rank)
    (hwhole : (TAD.init info dimension).wholeThing = true) :
    ∃ u : Nat → List Nat,
      Set.BijOn u {t | t < volume (TAD.init info dimension).leftOver}
        {c | InBox (dimension.leftOver info.shape) c} ∧
      ∀ t < volume (TAD.init info dimension).leftOver,
        (TAD.init info dimension).tadOffset t = (TAD.init info dimension).base (u t) := by
  have hC := (TAD.init info dimension).bijOn_decode_leftOver hpos
  have hbase := (TAD.init info dimension).offsetAt_leftOver
  have hindex : ∀ t, (TAD.init info dimension).tadOffset t = t := fun t => by
    rw [TAD.tadOffset, if_pos hwhole]
  rcases wholeThing_init hpos hproper hwhole with hone | ⟨hkept, hunit⟩
  · refine ⟨_, hC, fun t ht => ?_⟩
    have hzero : t = 0 := by omega
    rw [hindex, ← hbase, hzero, offsetAt_zero]
    rfl
  · have hoffset := fun t ht => @offset_leftOver_of_unit info dimension hews hkept hunit t ht
    cases horder : info.isFOrder with
    | false =>
        refine ⟨_, hC, fun t ht => ?_⟩
        have heq := hoffset t ht
        rw [horder, if_neg Bool.false_ne_true] at heq
        rw [hindex, ← hbase, heq]
    | true =>
        have hdims := (TAD.init info dimension).dims_leftOver
        refine ⟨decodeF (dimension.leftOver info.shape), ?_, fun t ht => ?_⟩
        · rw [volume, hdims]
          exact bijOn_decodeF (hpos.leftOver dimension)
        · have heq := hoffset t ht
          rw [horder, if_pos rfl, offsetAtF_eq_dot _ ht, hdims, TAD.leftOver, map_snd_leftOver]
            at heq
          rw [hindex]
          exact heq.symm

/-- Values that are raised to a floor keep their sum only if none was below it. -/
theorem floor_le_of_sum_eq {n : Nat} {f : Nat → Int} {c : Int}
    (h : ((List.range n).map fun t => max (f t) c).sum = ((List.range n).map f).sum) :
    ∀ t < n, c ≤ f t := by
  intro t ht
  by_contra hlt
  have hless := List.sum_lt_sum f (fun t => max (f t) c) (fun i _ => le_max_left (f i) c)
    ⟨t, List.mem_range.mpr ht, by omega⟩
  omega

/-- The offsets are those of the left-over coordinates, in some order, exactly if there is one
dimension, or no tensor starts below the error marker. -/
theorem exists_offsets_iff (hpos : info.Positive) (hews : info.HonestEws)
    (hproper : dimension.toList.length < info.rank) :
    (∃ u : Nat → List Nat,
      Set.BijOn u {t | t < volume (TAD.init info dimension).leftOver}
        {c | InBox (dimension.leftOver info.shape) c} ∧
      ∀ t < volume (TAD.init info dimension).leftOver,
        (TAD.init info dimension).tadOffset t = (TAD.init info dimension).base (u t)) ↔
      dimension.toList.length = 1 ∨ ∀ c, InBox (dimension.leftOver info.shape) c →
        -1 ≤ dot c (dimension.leftOver info.stride) := by
  have hC := (TAD.init info dimension).bijOn_decode_leftOver hpos
  have hsome := List.length_pos_of_ne_nil dimension.ne_nil
  cases hwhole : (TAD.init info dimension).wholeThing with
  | true =>
      refine ⟨?_, fun _ => offsets_of_wholeThing hpos hews hproper hwhole⟩
      rintro ⟨u, hu, hoffset⟩
      right
      intro c hc
      obtain ⟨t, ht, rfl⟩ := hu.surjOn hc
      have heq := hoffset t ht
      rw [TAD.tadOffset, if_pos hwhole] at heq
      have hbase : (TAD.init info dimension).base (u t) =
          dot (u t) (dimension.leftOver info.stride) := rfl
      omega
  | false =>
      have hoffset := fun t ht =>
        @tadOffset_of_not_wholeThing (TAD.init info dimension) hpos hwhole t ht
      constructor
      · rintro ⟨u, hu, hu'⟩
        by_cases hlen : (TAD.init info dimension).dimension.toList.length > 1
        · right
          have hsum := (map_range_perm_of_bijOn hu hC).map (TAD.init info dimension).base
          rw [List.map_map, List.map_map] at hsum
          have hsame : (List.range (volume (TAD.init info dimension).leftOver)).map
              ((TAD.init info dimension).base ∘ u) =
              (List.range (volume (TAD.init info dimension).leftOver)).map fun t =>
                max (((TAD.init info dimension).base ∘
                  decode (dimension.leftOver info.shape)) t) (-1) := by
            refine List.map_congr_left fun t ht => ?_
            have hlt := List.mem_range.mp ht
            rw [Function.comp_apply, ← hu' t hlt, hoffset t hlt, if_pos hlen]
            rfl
          rw [hsame] at hsum
          have hfloor := floor_le_of_sum_eq hsum.sum_eq
          intro c hc
          obtain ⟨t, ht, rfl⟩ := hC.surjOn hc
          exact hfloor t ht
        · left
          exact Nat.le_antisymm (Nat.not_lt.mp hlen) hsome
      · intro hcond
        refine ⟨_, hC, fun t ht => ?_⟩
        rw [hoffset t ht]
        split
        · rename_i hlen
          have hne : dimension.toList.length ≠ 1 := Nat.ne_of_gt hlen
          exact max_eq_left (hcond.resolve_left hne _ (hC.mapsTo ht))
        · rfl

/-- The tensors along dimensions enumerate the elements of the array exactly if there is
one dimension, or no tensor starts below the error marker. -/
theorem enumerates_iff (hpos : info.Positive) (hews : info.HonestEws) (hrank : 2 ≤ info.rank)
    (hmax : info.rank ≤ maxDimension) (hproper : dimension.toList.length < info.rank) :
    (TAD.init info dimension).Enumerates ↔
      dimension.toList.length = 1 ∨ ∀ c, InBox (dimension.leftOver info.shape) c →
        -1 ≤ dot c (dimension.leftOver info.stride) := by
  rw [enumerates_iff_offsets hpos hews hrank hmax hproper]
  exact exists_offsets_iff hpos hews hproper

/-- Only one moving axis is walked in steps of one cell both row by row and column by
column. -/
theorem length_squeeze_le_one {axes : List (Nat × Int)} (hpos : ∀ a ∈ axes, 0 < a.1)
    (hC : ∀ t < volume axes, offsetAt axes t = t) (hF : ∀ t < volume axes, offsetAtF axes t = t) :
    (squeeze axes).length ≤ 1 := by
  have hC' : ∀ t < volume (squeeze axes), offsetAt (squeeze axes) t = t := by
    intro t ht
    rw [volume_squeeze] at ht
    rw [offsetAt_squeeze axes ht, hC t ht]
  have hF' : ∀ t < volume (squeeze axes), offsetAtF (squeeze axes) t = t := by
    intro t ht
    rw [volume_squeeze] at ht
    rw [offsetAtF, ← squeeze_reverse, offsetAt_squeeze _ (by rwa [volume_reverse])]
    exact hF t ht
  have hlong : ∀ a ∈ squeeze axes, 1 < a.1 := by
    intro a ha
    obtain ⟨hmem, hne⟩ := List.mem_filter.mp ha
    have hone : a.1 ≠ 1 := by simpa using hne
    have := hpos a hmem
    omega
  generalize squeeze axes = moving at hC' hF' hlong
  rcases moving with _ | ⟨a, _ | ⟨b, rest⟩⟩
  · exact Nat.zero_le 1
  · exact le_refl 1
  · exfalso
    have ha := hlong a (by simp)
    have hrest : 0 < volume (b :: rest) := volume_pos fun c hc =>
      (hlong c (List.mem_cons_of_mem a hc)).le
    have hvolume : 1 < volume (b :: rest) := by
      have hb := hlong b (by simp)
      rw [volume_cons] at hrest ⊢
      exact lt_of_lt_of_le hb (Nat.le_mul_of_pos_right _ (Nat.pos_of_mul_pos_left hrest))
    have hone : 1 < a.1 * volume (b :: rest) := lt_of_lt_of_le ha (Nat.le_mul_of_pos_right _ hrest)
    -- the first axis has stride one by columns and the volume of the others by rows
    have hcolumn := hF' 1 (by rwa [volume_cons])
    have hrow := hC' (volume (b :: rest)) (by
      rw [volume_cons]
      exact lt_mul_of_one_lt_left hrest ha)
    rw [offsetAtF_cons a _ hone, Nat.mod_eq_of_lt ha, Nat.div_eq_of_lt ha, offsetAtF_zero,
      add_zero, one_smul] at hcolumn
    rw [offsetAt_cons, Nat.div_self hrest, Nat.mod_self, offsetAt_zero, one_smul, add_zero,
      hcolumn] at hrow
    omega

/-- One moving axis is walked the same in both directions. -/
theorem offsetAtF_eq_offsetAt {axes : List (Nat × Int)} (h : (squeeze axes).length ≤ 1) {t : Nat}
    (ht : t < volume axes) : offsetAtF axes t = offsetAt axes t := by
  apply offsetAt_congr_squeeze _ (by rwa [volume_reverse])
  rw [squeeze_reverse]
  match squeeze axes, h with
  | [], _ => rfl
  | [a], _ => rfl
  | a :: b :: rest, h => simp at h

/-- Every tensor of several starts at its own left-over coordinate, in C order, exactly
if the shortcut does not meet an F order and no offset falls to the error marker. -/
theorem tadOffset_eq_base_iff (hpos : info.Positive) (hews : info.HonestEws)
    (hproper : dimension.toList.length < info.rank)
    (hmany : volume (TAD.init info dimension).leftOver ≠ 1) :
    (∀ t < volume (TAD.init info dimension).leftOver, (TAD.init info dimension).tadOffset t =
        (TAD.init info dimension).base (decode (dimension.leftOver info.shape) t)) ↔
      (2 < info.rank → volume (TAD.init info dimension).kept = 1 → info.elementWiseStride = 1 →
        info.isFOrder = false ∨ (squeeze (TAD.init info dimension).leftOver).length ≤ 1) ∧
      (dimension.toList.length = 1 ∨ ∀ c, InBox (dimension.leftOver info.shape) c →
        -1 ≤ dot c (dimension.leftOver info.stride)) := by
  have hC := (TAD.init info dimension).bijOn_decode_leftOver hpos
  have hbase := (TAD.init info dimension).offsetAt_leftOver
  have hsome := List.length_pos_of_ne_nil dimension.ne_nil
  have hwholeIff := wholeThing_iff hpos hproper hmany
  cases hwhole : (TAD.init info dimension).wholeThing with
  | true =>
      obtain ⟨-, hkept, hunit⟩ := hwholeIff.mp hwhole
      have hoffset := fun t ht => @offset_leftOver_of_unit info dimension hews hkept hunit t ht
      have hindex : ∀ t, (TAD.init info dimension).tadOffset t = t := fun t => by
        rw [TAD.tadOffset, if_pos hwhole]
      constructor
      · intro hright
        refine ⟨fun _ _ _ => ?_, Or.inr fun c hc => ?_⟩
        · cases horder : info.isFOrder with
          | false => exact Or.inl rfl
          | true =>
              right
              simp only [horder, if_true] at hoffset
              have haxes : ∀ a ∈ (TAD.init info dimension).leftOver, 0 < a.1 :=
                fun a ha => hpos.axes a (pick_subset _ ha)
              refine length_squeeze_le_one haxes (fun t ht => ?_) hoffset
              rw [hbase]
              exact (hright t ht).symm.trans (hindex t)
        · obtain ⟨t, ht, rfl⟩ := hC.surjOn hc
          have heq := (hindex t).symm.trans (hright t ht)
          have hdot : (TAD.init info dimension).base (decode (dimension.leftOver info.shape) t) =
              dot (decode (dimension.leftOver info.shape) t) (dimension.leftOver info.stride) := rfl
          show -1 ≤ dot (decode (dimension.leftOver info.shape) t) (dimension.leftOver info.stride)
          omega
      · rintro ⟨horder, -⟩ t ht
        obtain ⟨hrank, -, -⟩ := hwholeIff.mp hwhole
        have heq := hoffset t ht
        refine (hindex t).trans (Eq.trans ?_ (hbase t))
        rcases horder hrank hkept hunit with hc | hone
        · rw [hc, if_neg Bool.false_ne_true] at heq
          exact heq.symm
        · rw [offsetAtF_eq_offsetAt hone ht, ite_self] at heq
          exact heq.symm
  | false =>
      have hoffset := fun t ht =>
        @tadOffset_of_not_wholeThing (TAD.init info dimension) hpos hwhole t ht
      have hnever : 2 < info.rank → volume (TAD.init info dimension).kept = 1 →
          info.elementWiseStride = 1 → False := by
        intro hrank hkept hunit
        rw [hwholeIff.mpr ⟨hrank, hkept, hunit⟩] at hwhole
        cases hwhole
      constructor
      · intro hright
        refine ⟨fun hrank hkept hunit => (hnever hrank hkept hunit).elim, ?_⟩
        by_cases hlen : (TAD.init info dimension).dimension.toList.length > 1
        · right
          intro c hc
          obtain ⟨t, ht, rfl⟩ := hC.surjOn hc
          have heq := (hoffset t ht).symm.trans (hright t ht)
          rw [if_pos hlen] at heq
          exact max_eq_left_iff.mp heq
        · left
          exact Nat.le_antisymm (Nat.not_lt.mp hlen) hsome
      · rintro ⟨-, hcond⟩ t ht
        rw [hoffset t ht]
        split
        · rename_i hlen
          have hne : dimension.toList.length ≠ 1 := Nat.ne_of_gt hlen
          exact max_eq_left (hcond.resolve_left hne _ (hC.mapsTo ht))
        · rfl

end Enumeration

/-- A cube whose first axis runs backwards. -/
def backwardCube : ShapeInfo where
  shape := [2, 2, 2]
  stride := [-4, 2, 1]
  offset := 4
  elementWiseStride := 0
  order := 'c'
  stride_length := rfl

/-- The squares of the cube. -/
def squareAxes : Dimensions backwardCube.rank where
  toList := [1, 2]
  ne_nil := by decide
  sorted := by decide
  lt_rank := by decide

theorem enumerates_iff_backwardCube :
    (TAD.init backwardCube squareAxes).Enumerates ↔
      squareAxes.toList.length = 1 ∨ ∀ c, InBox (squareAxes.leftOver backwardCube.shape) c →
        -1 ≤ dot c (squareAxes.leftOver backwardCube.stride) :=
  enumerates_iff (by decide) (by decide) (by decide) (by decide) (by decide)

/-- The second square of the cube starts at the error marker, not four cells down. -/
theorem not_enumerates_always :
    ¬ ∀ (info : ShapeInfo) (dimension : Dimensions info.rank), info.Positive → info.HonestEws →
      2 ≤ info.rank → dimension.toList.length < info.rank →
      (TAD.init info dimension).Enumerates := by
  intro h
  have henum := h backwardCube squareAxes (by decide) (by decide) (by decide) (by decide)
  obtain ⟨u, hu, hoffset⟩ :=
    (enumerates_iff_offsets (by decide) (by decide) (by decide) (by decide) (by decide)).mp henum
  obtain ⟨t, ht, hone⟩ := hu.surjOn (show InBox [2] [1] from .cons (by decide) .nil)
  have hlt : t < 2 := ht
  have hbase := hoffset t ht
  rw [hone] at hbase
  interval_cases t
  · exact absurd hbase (by decide)
  · exact absurd hbase (by decide)

end Shape
end LibND4J
