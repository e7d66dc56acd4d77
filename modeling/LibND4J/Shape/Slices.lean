import LibND4J.Library.Selection
import LibND4J.Shape.ShapeInfo

/-!
# Permuting and slicing shape information

A tensor along a dimension is cut out of a shape information buffer by permuting its
axes and taking slices off the front.  This module holds these operations and the
selection of axes by a list of dimensions.

Main results:

- Theorems `keep_eq_kept` and `removeIndex_eq_leftOver`: the index loops split
  the axes by membership in the dimensions.
- Theorem `axes_permuteShapeBuffer`: a permutation rearranges the axes.
- Theorems `slice_of_rank` and `slice_of_matrix`: a slice drops the first
  axis; in a matrix an axis of extent one takes its place.
-/

namespace LibND4J
namespace Shape

open Strided Selection

/-! ## Kinds of shapes -/

/-- `isVector`: one of the two axes has extent one. -/
def isVector (info : ShapeInfo) : Bool :=
  info.rank ≤ 2 ∧ (info.shape.getD 0 0 = 1 ∨ info.shape.getD 1 0 = 1)

/-- `isMatrix`: of rank two at most and not a vector. -/
def isMatrix (info : ShapeInfo) : Bool :=
  info.rank ≤ 2 ∧ ¬ (info.shape.getD 0 0 = 1 ∨ info.shape.getD 1 0 = 1)

def isRowVector (info : ShapeInfo) : Bool :=
  isVector info ∧ info.shape.getD 0 0 = 1

def strideDescendingCAscendingF (info : ShapeInfo) : Bool :=
  if isRowVector info ∧ info.stride.getD 0 0 = 1 ∧ info.stride.getD 1 0 = 1 then
    true
  else if info.order = 'c' then
    (info.stride.zip info.stride.tail).all fun s => s.2 < s.1
  else if info.order = 'f' then
    (info.stride.zip info.stride.tail).all fun s => s.1 < s.2
  else
    false

def isScalar (info : ShapeInfo) : Bool :=
  match info.shape with
  | [d] => d = 1
  | [d, e] => d = 1 ∧ e = 1
  | _ => false

/-- `slices`: the extent of the first axis. -/
def slices (info : ShapeInfo) : Nat :=
  info.shape.getD 0 0

/-! ## Dimensions -/

/-- The marker for all dimensions at once. -/
def maxDimension : Nat :=
  0x7fffffff

/-- Axes of an array of the given rank, in increasing order. -/
structure Dimensions (rank : Nat) where
  toList : List Nat
  ne_nil : toList ≠ []
  sorted : toList.Pairwise (· < ·)
  lt_rank : ∀ d ∈ toList, d < rank

theorem one_ne_nil : [1] ≠ ([] : List Nat) :=
  List.cons_ne_nil 1 []

theorem pairwise_one : [1].Pairwise ((· < ·) : Nat → Nat → Prop) :=
  List.pairwise_singleton _ 1

/-- Membership in the dimensions. -/
def Dimensions.mem {rank : Nat} (dimension : Dimensions rank) (i : Nat) : Bool :=
  i ∈ dimension.toList

/-- The entries at the dimensions. -/
def Dimensions.kept {α : Type} {rank : Nat} (dimension : Dimensions rank) (data : List α) : List α :=
  pick dimension.mem 0 data

/-- The entries at the other axes. -/
def Dimensions.leftOver {α : Type} {rank : Nat} (dimension : Dimensions rank) (data : List α) :
    List α :=
  pick (fun i => !dimension.mem i) 0 data

/-- The coordinate with the given parts at the other axes and at the dimensions. -/
def Dimensions.coordinate {rank : Nat} (dimension : Dimensions rank) (u v : List Nat) : List Nat :=
  merge dimension.mem rank 0 u v

/-- `keep`: the entries at the given indexes. -/
def keep {α : Type} (data : List α) (index : List Nat) : List α :=
  (data.zipIdx.filter fun q => decide (q.2 ∈ index)).map Prod.fst

/-- `removeIndex`: the entries at the other indexes, as many as there should be. -/
def removeIndex {α : Type} (data : List α) (indexes : List Nat) : List α :=
  ((data.zipIdx.filter fun q => !decide (q.2 ∈ indexes)).map Prod.fst).take
    (data.length - indexes.length)

/-- `tadLength`: the product of the extents to iterate over. -/
def tadLength (shape : List Nat) (dimension : List Nat) : Nat :=
  match dimension with
  | [d] => shape.getD d 0
  | _ =>
      ((List.range shape.length).flatMap fun i =>
        (dimension.filter fun j => decide (j = i)).map fun j => shape.getD j 0).prod

theorem tadLength_singleton (shape : List Nat) (d : Nat) : tadLength shape [d] = shape.getD d 0 :=
  rfl

section DimensionsOf

variable {α : Type} {rank : Nat} (dimension : Dimensions rank)

theorem keep_eq_kept (data : List α) : keep data dimension.toList = dimension.kept data :=
  map_filter_zipIdx (p := dimension.mem) (i := 0) data

variable {data : List α} {info : ShapeInfo}

variable (hlength : data.length = rank)

include hlength

/-- Reading the dimensions one by one. -/
theorem map_getD_eq_kept (default : α) :
    dimension.toList.map (data.getD · default) = dimension.kept data := by
  have hfilter := filter_range_eq dimension.sorted dimension.lt_rank
  rw [Dimensions.kept, ← map_getD_filter_range data default, hlength]
  exact congrArg (List.map (data.getD · default)) hfilter.symm

theorem length_kept : (dimension.kept data).length = dimension.toList.length := by
  cases data with
  | nil =>
      have hempty : dimension.toList = [] := by
        apply List.eq_nil_iff_forall_not_mem.mpr
        intro d hd
        have hlt := dimension.lt_rank d hd
        simp [← hlength] at hlt
      exact absurd hempty dimension.ne_nil
  | cons x xs => rw [← map_getD_eq_kept dimension hlength x, List.length_map]

theorem length_kept_add : dimension.toList.length + (dimension.leftOver data).length = rank := by
  rw [← length_kept dimension hlength]
  exact (length_pick_add data).trans hlength

theorem removeIndex_eq_leftOver : removeIndex data dimension.toList = dimension.leftOver data := by
  have hsum := length_pick_add (p := dimension.mem) (i := 0) data
  have hkept := length_kept dimension hlength
  have hfilter : ((data.zipIdx.filter fun q => !decide (q.2 ∈ dimension.toList)).map Prod.fst) =
      dimension.leftOver data :=
    map_filter_zipIdx (p := fun i => !dimension.mem i) (i := 0) data
  rw [removeIndex, hfilter, List.take_of_length_le]
  simp only [Dimensions.kept, Dimensions.leftOver] at hkept ⊢
  omega

omit hlength

theorem tadLength_eq {shape : List Nat} (hlength : shape.length = rank) :
    tadLength shape dimension.toList = (dimension.kept shape).prod := by
  have hnodup : dimension.toList.Nodup := dimension.sorted.imp fun h => Nat.ne_of_lt h
  have hloop : (List.range shape.length).flatMap (fun i =>
      (dimension.toList.filter fun j => decide (j = i)).map fun j => shape.getD j 0) =
      dimension.toList.map fun j => shape.getD j 0 := by
    have hunit : ∀ i, ((dimension.toList.filter fun j => decide (j = i)).map fun j =>
        shape.getD j 0) = if dimension.mem i then [shape.getD i 0] else [] := by
      intro i
      rw [List.filter_eq, hnodup.count]
      by_cases hmem : i ∈ dimension.toList
      · simp [Dimensions.mem, hmem]
      · simp [Dimensions.mem, hmem]
    have hfilter := filter_range_eq dimension.sorted dimension.lt_rank
    simp only [hunit]
    conv_rhs => rw [← hfilter]
    rw [hlength]
    induction List.range rank with
    | nil => rfl
    | cons i is ih =>
        rw [List.flatMap_cons, ih]
        by_cases hmem : i ∈ dimension.toList
        · simp [Dimensions.mem, hmem]
        · simp [Dimensions.mem, hmem]
  rw [← map_getD_eq_kept dimension hlength 0]
  unfold tadLength
  split
  · rename_i d hd
    rw [hd]
    simp
  · rw [hloop]

@[simp]
theorem dims_kept (info : ShapeInfo) (dimension : Dimensions info.rank) :
    dims (dimension.kept info.axes) = dimension.kept info.shape := by
  rw [Dimensions.kept, dims_pick, info.dims_axes, Dimensions.kept]

@[simp]
theorem dims_leftOver (info : ShapeInfo) (dimension : Dimensions info.rank) :
    dims (dimension.leftOver info.axes) = dimension.leftOver info.shape := by
  rw [Dimensions.leftOver, dims_pick, info.dims_axes, Dimensions.leftOver]

@[simp]
theorem map_snd_kept (info : ShapeInfo) (dimension : Dimensions info.rank) :
    (dimension.kept info.axes).map Prod.snd = dimension.kept info.stride := by
  rw [Dimensions.kept, ← pick_map, info.map_snd_axes, Dimensions.kept]

@[simp]
theorem map_snd_leftOver (info : ShapeInfo) (dimension : Dimensions info.rank) :
    (dimension.leftOver info.axes).map Prod.snd = dimension.leftOver info.stride := by
  rw [Dimensions.leftOver, ← pick_map, info.map_snd_axes, Dimensions.leftOver]

theorem ShapeInfo.Positive.kept (h : info.Positive) (dimension : Dimensions info.rank) :
    ∀ d ∈ dimension.kept info.shape, 0 < d :=
  fun d hd => h d (pick_subset _ hd)

theorem ShapeInfo.Positive.leftOver (h : info.Positive) (dimension : Dimensions info.rank) :
    ∀ d ∈ dimension.leftOver info.shape, 0 < d :=
  fun d hd => h d (pick_subset _ hd)

/-- Coordinates of the two parts make up the coordinates of the whole box. -/
theorem bijOn_coordinate {shape : List Nat} (hlength : shape.length = rank) :
    Set.BijOn (fun q : List Nat × List Nat => dimension.coordinate q.1 q.2)
      {q | InBox (dimension.leftOver shape) q.1 ∧ InBox (dimension.kept shape) q.2}
      {c | InBox shape c} := by
  subst hlength
  exact bijOn_merge dimension.mem 0 shape

/-- The offset of an element is the sum of the offsets of its two parts. -/
theorem dot_coordinate (dimension : Dimensions info.rank) {u v : List Nat}
    (hu : InBox (dimension.leftOver info.shape) u) (hv : InBox (dimension.kept info.shape) v) :
    dot (dimension.coordinate u v) info.stride =
      dot u (dimension.leftOver info.stride) + dot v (dimension.kept info.stride) :=
  dot_merge hu hv info.stride_length

end DimensionsOf

/-! ## Permutations -/

/-- The strides grow with the extents, from the given one on. -/
def contiguousFrom : List (Nat × Int) → Int → Bool
  | [], _ => true
  | (dim, stride) :: axes, sd =>
      if stride ≠ sd then false
      else if dim = 0 then true
      else contiguousFrom axes (sd * dim)

def getOrder (axes : List (Nat × Int)) (elementStride : Int) : Char :=
  let cContiguous := contiguousFrom axes.reverse 1
  let isFortran := contiguousFrom axes elementStride
  if isFortran ∧ cContiguous then 'a'
  else if isFortran ∧ ¬ cContiguous then 'f'
  else 'c'

/-- Every index is followed by the next one. -/
def inOrder : List Nat → Bool
  | i :: j :: rearrange => i + 1 = j ∧ inOrder (j :: rearrange)
  | _ => true

/-- `doPermuteSwap`, applied to extents and strides together. -/
def doPermuteSwap {α : Type} [Inhabited α] (data : List α) (rearrange : List Nat) : List α :=
  if inOrder rearrange then
    data
  else if data.length = 2 then
    [data.getD 1 default, data.getD 0 default]
  else
    rearrange.map (data.getD · default)

/-- `permuteShapeBuffer`, and `permuteShapeBufferInPlace`. -/
def permuteShapeBuffer (info : ShapeInfo) (rearrange : List Nat) : ShapeInfo :=
  let axes := doPermuteSwap info.axes rearrange
  ShapeInfo.ofAxes axes info.offset (-1) (getOrder axes 1)

/-- The permutation of the axes into their reverse order. -/
def reverseAxes (info : ShapeInfo) : ShapeInfo :=
  permuteShapeBuffer info (List.range info.rank).reverse

variable {rearrange : List Nat} {info : ShapeInfo}

/-- Indices in order are a range. -/
theorem eq_range'_of_inOrder (h : inOrder rearrange) :
    ∃ i, rearrange = List.range' i rearrange.length := by
  fun_induction inOrder rearrange with
  | case1 i j rearrange ih =>
      simp only [decide_eq_true_eq] at h
      obtain ⟨rfl, hrest⟩ := h
      obtain ⟨k, hk⟩ := ih hrest
      have hstart : k = i + 1 := by
        rw [List.length_cons, List.range'_succ, List.cons.injEq] at hk
        exact hk.1.symm
      subst hstart
      exact ⟨i, by rw [List.length_cons, List.range'_succ, ← hk]⟩
  | case2 rearrange hshort =>
      match rearrange, hshort with
      | [], _ => exact ⟨0, rfl⟩
      | [i], _ => exact ⟨i, rfl⟩
      | i :: j :: rest, hshort => exact absurd rfl (hshort i j rest)

/-- Rearranging by a permutation of the positions reads them one by one. -/
theorem doPermuteSwap_eq {α : Type} [Inhabited α] {data : List α}
    (hperm : rearrange.Perm (List.range data.length)) :
    doPermuteSwap data rearrange = rearrange.map (data.getD · default) := by
  have hlen : rearrange.length = data.length := by
    rw [hperm.length_eq, List.length_range]
  rw [doPermuteSwap]
  split
  · rename_i horder
    obtain ⟨i, hi⟩ := eq_range'_of_inOrder horder
    have hrange : rearrange = List.range data.length := by
      cases hzero : data.length with
      | zero => rw [List.length_eq_zero_iff.mp (hlen.trans hzero), List.range_zero]
      | succ n =>
          have hmem : 0 ∈ rearrange := hperm.mem_iff.mpr (by simp [hzero])
          rw [hi, List.mem_range'_1] at hmem
          have hstart : i = 0 := Nat.le_zero.mp hmem.1
          rw [hi, hlen, hzero, hstart, ← List.range_eq_range']
    have hread := map_getD_filter_range (p := fun _ => true) data default
    rw [List.filter_eq_self.mpr (fun _ _ => rfl), ← hrange] at hread
    rw [hread]
    clear hread hrange hi horder hlen hperm
    generalize 0 = i
    induction data generalizing i with
    | nil => rfl
    | cons x xs ih => rw [pick_cons_pos rfl, ← ih]
  · rename_i horder
    split
    · rename_i htwo
      -- two positions out of order are swapped
      rw [htwo] at hperm hlen
      obtain ⟨i, j, rfl⟩ := List.length_eq_two.mp hlen
      have hi : i < 2 := List.mem_range.mp (hperm.mem_iff.mp (by simp))
      have hj : j < 2 := List.mem_range.mp (hperm.mem_iff.mp (by simp))
      have hne : i ≠ j := by
        have hnodup := hperm.nodup_iff.mpr List.nodup_range
        simpa using hnodup
      have hswap : i = 1 ∧ j = 0 := by
        simp only [inOrder, and_true, decide_eq_true_eq] at horder
        omega
      rw [hswap.1, hswap.2]
      rfl
    · rfl

theorem axes_permuteShapeBuffer (hperm : rearrange.Perm (List.range info.rank)) :
    (permuteShapeBuffer info rearrange).axes = rearrange.map (info.axes.getD · default) := by
  rw [permuteShapeBuffer, ShapeInfo.axes_ofAxes]
  apply doPermuteSwap_eq
  rw [ShapeInfo.length_axes]
  exact hperm

theorem map_getD_range {α : Type} (data : List α) (default : α) :
    (List.range data.length).map (data.getD · default) = data := by
  apply List.ext_getElem
  · simp
  · intro i hi hi'
    simp [hi']

@[simp]
theorem axes_reverseAxes (info : ShapeInfo) : (reverseAxes info).axes = info.axes.reverse := by
  rw [reverseAxes, axes_permuteShapeBuffer (List.reverse_perm _), List.map_reverse,
    ← info.length_axes, map_getD_range]

@[simp]
theorem ews_permuteShapeBuffer (info : ShapeInfo) (rearrange : List Nat) :
    (permuteShapeBuffer info rearrange).elementWiseStride = -1 :=
  rfl

@[simp]
theorem ews_reverseAxes (info : ShapeInfo) : (reverseAxes info).elementWiseStride = -1 :=
  rfl

/-- The left-over axes in order, then the dimensions backwards. -/
theorem axes_permute_dimensions (info : ShapeInfo) (dimension : Dimensions info.rank) :
    (permuteShapeBuffer info (removeIndex (List.range info.rank) dimension.toList ++
        dimension.toList.reverse)).axes =
      dimension.leftOver info.axes ++ (dimension.kept info.axes).reverse := by
  have hleft : removeIndex (List.range info.rank) dimension.toList =
      (List.range info.rank).filter fun i => !dimension.mem i := by
    have hread := map_getD_filter_range (p := fun i => !dimension.mem i) (List.range info.rank) 0
    rw [removeIndex_eq_leftOver dimension List.length_range, Dimensions.leftOver, ← hread,
      List.length_range]
    refine (List.map_congr_left fun i hi => ?_).trans (List.map_id _)
    have hlt := List.mem_range.mp (List.mem_filter.mp hi).1
    simp [hlt]
  have hkept : dimension.toList = (List.range info.rank).filter dimension.mem :=
    (filter_range_eq dimension.sorted dimension.lt_rank).symm
  have hperm : (removeIndex (List.range info.rank) dimension.toList ++
      dimension.toList.reverse).Perm (List.range info.rank) := by
    rw [hleft]
    refine (List.Perm.append_left _ (List.reverse_perm _)).trans ?_
    refine List.perm_append_comm.trans ?_
    conv_lhs => rw [hkept]
    exact List.filter_append_perm _ _
  have hread := map_getD_filter_range (p := fun i => !dimension.mem i) info.axes default
  rw [info.length_axes] at hread
  rw [axes_permuteShapeBuffer hperm, List.map_append, List.map_reverse,
    map_getD_eq_kept dimension info.length_axes, hleft, hread]
  rfl

/-! ## Slices -/

def createScalarShapeInfo : ShapeInfo where
  shape := [1, 1]
  stride := [1, 1]
  offset := 0
  elementWiseStride := 1
  order := 'a'
  stride_length := rfl

/-- The offset slot of a slice.  The loop runs over the old rank: past the new extents
it reads the first new stride as an extent, at index zero. -/
def sliceOffset (sliceIdx rank : Nat) (axes : List (Nat × Int)) : Int :=
  let newShape := axes.map Prod.fst
  let newStride := axes.map Prod.snd
  getOffset 0 (newShape ++ newStride.map Int.toNat) (newStride ++ [0])
    (sliceIdx :: List.replicate (rank - 1) 0)

/-- `sliceOfShapeBuffer`.  The first slice of a row vector is the row, but its copy ends
behind the strides: the other slots are unset, and zero here.  `none` stands for a later
slice of a row vector, which is read before it is written. -/
def sliceOfShapeBuffer (sliceIdx : Nat) (info : ShapeInfo) : Option ShapeInfo :=
  if isVector info then
    if info.shape.getD 0 0 = 1 then
      if sliceIdx = 0 then some (ShapeInfo.ofAxes info.axes 0 0 '0') else none
    else
      some { createScalarShapeInfo with offset := info.offset + sliceIdx }
  else if isMatrix info then
    let axis := info.axes.getD 1 (0, 0)
    let axes := [(1, 1), axis]
    some (ShapeInfo.ofAxes axes (sliceOffset sliceIdx info.rank axes) axis.2 (getOrder axes 1))
  else
    let axes := info.axes.tail
    some (ShapeInfo.ofAxes axes (sliceOffset sliceIdx info.rank axes) info.elementWiseStride
      (getOrder axes 1))

/-- `lengthPerSlice` of a buffer. -/
def lengthPerSlice (info : ShapeInfo) : Nat :=
  (removeIndex info.shape [0]).prod

theorem lengthPerSlice_eq {a : Nat × Int} {axes : List (Nat × Int)} (h : info.axes = a :: axes) :
    lengthPerSlice info = volume axes := by
  have hshape : info.shape = a.1 :: dims axes := by rw [← info.dims_axes, h, dims_cons]
  have hzero : ∀ (data : List Nat) (i : Nat), 0 < i →
      ((data.zipIdx i).filter fun q => !decide (q.2 ∈ [0])).map Prod.fst = data := by
    intro data
    induction data with
    | nil => intro i _; rfl
    | cons d data ih =>
        intro i hi
        rw [List.zipIdx_cons, List.filter_cons_of_pos (by simpa using hi.ne'), List.map_cons,
          ih (i + 1) (Nat.succ_pos i)]
  rw [lengthPerSlice, removeIndex, hshape, List.zipIdx_cons,
    List.filter_cons_of_neg (by simp), hzero _ _ (by omega)]
  simp [volume]

/-- A slice of an array of rank above two drops the first axis. -/
theorem slice_of_rank (hrank : 2 < info.rank) (sliceIdx : Nat) :
    ∃ next, sliceOfShapeBuffer sliceIdx info = some next ∧ next.axes = info.axes.tail ∧
      next.elementWiseStride = info.elementWiseStride := by
  have hvector : isVector info = false := by simp [isVector, Nat.not_le.mpr hrank]
  have hmatrix : isMatrix info = false := by simp [isMatrix, Nat.not_le.mpr hrank]
  refine ⟨_, ?_, ShapeInfo.axes_ofAxes _ (sliceOffset sliceIdx info.rank info.axes.tail)
    info.elementWiseStride (getOrder info.axes.tail 1), rfl⟩
  simp [sliceOfShapeBuffer, hvector, hmatrix]

/-- A slice of a matrix is a row along its second axis. -/
theorem slice_of_matrix {a b : Nat × Int} (haxes : info.axes = [a, b]) (ha : a.1 ≠ 1) (hb : b.1 ≠ 1)
    (sliceIdx : Nat) :
    ∃ next, sliceOfShapeBuffer sliceIdx info = some next ∧ next.axes = [(1, 1), b] ∧
      next.elementWiseStride = b.2 := by
  have hshape : info.shape = [a.1, b.1] := by rw [← info.dims_axes, haxes]; rfl
  have hvector : isVector info = false := by simp [isVector, hshape, ha, hb]
  have hmatrix : isMatrix info = true := by
    simp [isMatrix, ShapeInfo.rank, hshape, ha, hb]
  refine ⟨_, ?_, ShapeInfo.axes_ofAxes _ (sliceOffset sliceIdx info.rank [(1, 1), b]) b.2
    (getOrder [(1, 1), b] 1), rfl⟩
  simp [sliceOfShapeBuffer, hvector, hmatrix, haxes]

/-- A slice of an array with elements that is not a row has fewer elements, or no more of
them and fewer axes. -/
theorem slice_smaller {next : ShapeInfo} {sliceIdx : Nat} (hrow : isRowVector info = false)
    (hslice : sliceOfShapeBuffer sliceIdx info = some next) (hlength : 0 < info.length) :
    next.length < info.length ∨ next.length = info.length ∧ next.rank < info.rank := by
  by_cases hrank : 2 < info.rank
  · obtain ⟨next', hnext, haxes, -⟩ := slice_of_rank hrank sliceIdx
    rw [hslice, Option.some.injEq] at hnext
    subst hnext
    obtain ⟨a, axes, hcons⟩ : ∃ a axes, info.axes = a :: axes := by
      apply List.exists_cons_of_length_pos
      rw [info.length_axes]
      omega
    have hvolume : info.length = a.1 * next.length := by
      rw [← info.volume_axes, ← next.volume_axes, haxes, hcons, volume_cons, List.tail_cons]
    have hless : next.rank < info.rank := by
      rw [← info.length_axes, ← next.length_axes, haxes, hcons]
      simp
    by_cases hone : a.1 = 1
    · exact Or.inr ⟨by rw [hvolume, hone, one_mul], hless⟩
    · left
      rw [hvolume] at hlength ⊢
      have hfirst : 0 < a.1 := Nat.pos_of_mul_pos_right hlength
      have hrest : 0 < next.length := Nat.pos_of_mul_pos_left hlength
      exact lt_mul_of_one_lt_left hrest (by omega)
  · left
    have hcases : info.axes = [] ∨ (∃ a, info.axes = [a]) ∨ ∃ a b, info.axes = [a, b] := by
      rw [← info.length_axes] at hrank
      match info.axes, hrank with
      | [], _ => exact Or.inl rfl
      | [a], _ => exact Or.inr (Or.inl ⟨a, rfl⟩)
      | [a, b], _ => exact Or.inr (Or.inr ⟨a, b, rfl⟩)
      | a :: b :: c :: rest, hrank => simp at hrank
    rw [← next.volume_axes]
    rw [← info.volume_axes] at hlength ⊢
    rcases hcases with haxes | ⟨a, haxes⟩ | ⟨a, b, haxes⟩
    · have hshape : info.shape = [] := by rw [← info.dims_axes, haxes, dims_nil]
      simp only [sliceOfShapeBuffer, isVector, isMatrix, ShapeInfo.rank, hshape, haxes] at hslice
      simp at hslice
      rw [← hslice, ShapeInfo.axes_ofAxes, haxes]
      simp
    · have hshape : info.shape = [a.1] := by rw [← info.dims_axes, haxes]; rfl
      rw [haxes] at hlength ⊢
      simp only [sliceOfShapeBuffer, isVector, isMatrix, ShapeInfo.rank, hshape, haxes] at hslice
      by_cases hone : a.1 = 1
      · simp [isRowVector, isVector, ShapeInfo.rank, hshape, hone] at hrow
      · simp [hone] at hslice
        rw [← hslice, ShapeInfo.axes_ofAxes]
        simpa using hlength
    · have hshape : info.shape = [a.1, b.1] := by rw [← info.dims_axes, haxes]; rfl
      rw [haxes] at hlength ⊢
      have ha : 0 < a.1 := Nat.pos_of_mul_pos_right (by simpa using hlength)
      have hb : 0 < b.1 := Nat.pos_of_mul_pos_left (by simpa using hlength)
      simp only [sliceOfShapeBuffer, isVector, isMatrix, ShapeInfo.rank, hshape, haxes] at hslice
      by_cases hone : a.1 = 1
      · simp [isRowVector, isVector, ShapeInfo.rank, hshape, hone] at hrow
      · by_cases hcol : b.1 = 1
        · simp [hone, hcol] at hslice
          have hscalar : next.axes = [(1, 1), (1, 1)] := by rw [← hslice]; rfl
          rw [hscalar]
          simp [hcol]
          omega
        · simp [hone, hcol] at hslice
          rw [← hslice, ShapeInfo.axes_ofAxes]
          simp
          exact lt_mul_of_one_lt_left hb (by omega)

end Shape
end LibND4J
