import LibND4J.Arrays.Channels
import LibND4J.Arrays.Contractions
import LibND4J.Loops.SummaryStats

/-!
# Means and variances of channels

The reductions of an array along all axes but the second one, as arrays.  Their results are rows
with one entry for each channel.  If each channel has one element, the array more than two axes and
a slot of one, the variance of the whole array is in the first entry, and zeros are in the others.

Main results:

- Theorem `channelValues_perm`: the elements of a channel, numbered along the other axes.
- Theorem `meanAlong_channels`: the means of the channels.
- Theorems `varianceAlong_channels` and `varianceAlong_whole`: the variances.
-/

namespace LibND4J
namespace Arrays

open Strided Shape Loops

/-! ## The routines -/

section Routines

variable {T : Type}

/-- The operation `Mean`. -/
def meanOf (T : Type) [Field T] : ReduceOp T Unit where
  startingValue := fun _ => 0
  update := fun old opOutput _ => opOutput + old
  op := fun d1 _ => d1
  postProcess := fun reduction n _ => reduction / n

namespace NDArray

/-- The array of a result. -/
def ofReduced [Zero T] (result : Reduced T) : NDArray T :=
  ⟨result.shapeInfo, fun i => result.buffer.getD i.toNat 0⟩

/-- The array that a reduction returns. -/
def reduced [Zero T] (result : Except String (Option (Reduced T))) :
    Except Failure (NDArray T) :=
  match result with
  | .error message => .error (.thrown message)
  | .ok none => .error .undefined
  | .ok (some result) => .ok (ofReduced result)

/-- `reduceAlongDimension` with `Mean`. -/
def meanAlong [Field T] (run : Runtime T) (array : NDArray T) (dimensions : List Int) :
    Except Failure (NDArray T) :=
  reduced ((meanOf T).reduceAlongDimension array.shapeInfo.length run.settings array.buffer
    array.shapeInfo () dimensions)

/-- `varianceAlongDimension` with `SummaryStatsVariance`, for a given skewness and the memory that
the first statistics are built in. -/
def varianceAlong [Field T] [LinearOrder T] [FloorRing T]
    (skewness : SummaryStatsData T → T) (startingIndex : SummaryStatsData T) (array : NDArray T)
    (biasCorrected : Bool) (dimensions : List Int) : Except Failure (NDArray T) :=
  reduced ((summaryStatsVariance skewness).varianceAlongDimension array.shapeInfo.length
    startingIndex array.buffer array.shapeInfo biasCorrected dimensions)

/-- The elements of an array, in C order. -/
def values (array : NDArray T) : List T :=
  ((List.range array.shapeInfo.length).map (decode array.shapeInfo.shape)).map array.element

/-- The elements of a channel, in C order. -/
def channelValues (array : NDArray T) (k : Nat) : List T :=
  (((List.range array.shapeInfo.length).map (decode array.shapeInfo.shape)).filter fun c =>
    channelOf c = k).map array.element

end NDArray

end Routines

/-! ## The axes -/

/-- The axes of images, without their channels. -/
def imageAxes {rank : Nat} (hrank : rank = 4) : Dimensions rank where
  toList := [0, 2, 3]
  ne_nil := List.cons_ne_nil 0 [2, 3]
  sorted := by decide
  lt_rank := by
    intro d hd
    simp only [List.mem_cons, List.not_mem_nil, or_false] at hd
    omega

theorem checkDimensions_images {rank : Nat} (hrank : rank = 4) :
    checkDimensions rank [0, 2, 3] = .ok (imageAxes hrank) := by
  subst hrank
  rfl

/-- All axes but the second one, which leave a row over. -/
structure BatchAxes (info : ShapeInfo) (dims : List Int) (dimension : Dimensions info.rank) :
    Prop where
  accepted : checkDimensions info.rank dims = .ok dimension
  result_eq : evalReduceShapeInfo 'c' info dimension =
    updateStrides [1, info.shape.getD 1 0] 'c'
  leftOver_eq : ∀ {α : Type} (data : List α) (d : α), data.length = info.rank →
    dimension.leftOver data = [data.getD 1 d]
  two_le : 2 ≤ info.rank
  rank_le : info.rank ≤ maxDimension

section Axes

variable {info : ShapeInfo}

/-- The rows of a matrix. -/
theorem batchAxes_matrix (hrank : info.rank = 2) : BatchAxes info [0] (firstAxis hrank) where
  accepted := checkDimensions_zero hrank
  result_eq := by
    have htoList : (firstAxis hrank).toList = [0] := rfl
    obtain ⟨m, n, hshape⟩ := List.length_eq_two.mp hrank
    simp [evalReduceShapeInfo, htoList, hrank, hshape, removeIndex, maxDimension]
  leftOver_eq := by
    intro α data d hlength
    obtain ⟨a, b, rfl⟩ := List.length_eq_two.mp (hlength.trans hrank)
    rfl
  two_le := hrank.ge
  rank_le := by
    rw [hrank]
    decide

theorem exists_four {α : Type} {data : List α} (h : data.length = 4) :
    ∃ a b c d, data = [a, b, c, d] := by
  rcases data with - | ⟨a, - | ⟨b, - | ⟨c, - | ⟨d, - | ⟨e, rest⟩⟩⟩⟩⟩
  case cons.cons.cons.cons.nil => exact ⟨a, b, c, d, rfl⟩
  all_goals
    simp only [List.length_cons, List.length_nil] at h
    omega

/-- All axes of images but that of the channels. -/
theorem batchAxes_images (hrank : info.rank = 4) :
    BatchAxes info [0, 2, 3] (imageAxes hrank) where
  accepted := checkDimensions_images hrank
  result_eq := by
    have htoList : (imageAxes hrank).toList = [0, 2, 3] := rfl
    obtain ⟨a, b, c, d, hshape⟩ := exists_four (hrank : info.shape.length = 4)
    simp [evalReduceShapeInfo, htoList, hrank, hshape, removeIndex, maxDimension]
  leftOver_eq := by
    intro α data d hlength
    obtain ⟨a, b, c, e, rfl⟩ := exists_four (hlength.trans hrank)
    rfl
  two_le := by omega
  rank_le := by
    rw [hrank]
    decide

/-- The places of a channel, by their numbers along the other axes. -/
def placeAlong (dimension : Dimensions info.rank) (k j : Nat) : List Nat :=
  dimension.coordinate [k] (decode (dimension.kept info.shape) j)

namespace BatchAxes

variable {dims : List Int} {dimension : Dimensions info.rank} {k j : Nat}
  (h : BatchAxes info dims dimension)

include h

theorem leftOver_shape : dimension.leftOver info.shape = [info.shape.getD 1 0] :=
  h.leftOver_eq info.shape 0 rfl

theorem inBox_leftOver (hk : k < info.shape.getD 1 0) :
    InBox (dimension.leftOver info.shape) [k] := by
  rw [h.leftOver_shape]
  exact .cons hk .nil

/-- A place of a channel is one of the array. -/
theorem inBox_place (hpos : info.Positive) (hk : k < info.shape.getD 1 0)
    (hj : j < (dimension.kept info.shape).prod) : InBox info.shape (placeAlong dimension k j) :=
  (Selection.merge_spec (h.inBox_leftOver hk) (inBox_decode (hpos.kept dimension) hj)).1

theorem channelOf_place (hpos : info.Positive) (hk : k < info.shape.getD 1 0)
    (hj : j < (dimension.kept info.shape).prod) : channelOf (placeAlong dimension k j) = k := by
  have hbox := h.inBox_place hpos hk hj
  have hpart : dimension.leftOver (placeAlong dimension k j) = [k] :=
    (Selection.merge_spec (h.inBox_leftOver hk) (inBox_decode (hpos.kept dimension) hj)).2.1
  have hchannel := h.leftOver_eq (placeAlong dimension k j) 0 hbox.length_eq.symm
  rw [hpart, List.singleton_inj] at hchannel
  exact hchannel.symm

/-- Every place of a channel has a number. -/
theorem exists_place {c : List Nat} (hc : InBox info.shape c) :
    ∃ j < (dimension.kept info.shape).prod, placeAlong dimension (channelOf c) j = c := by
  obtain ⟨⟨u, v⟩, ⟨hu, hv⟩, hcoordinate⟩ := (bijOn_coordinate dimension rfl).surjOn hc
  have hpart : dimension.leftOver c = u := by
    rw [← hcoordinate]
    exact (Selection.merge_spec hu hv).2.1
  have hchannel : u = [channelOf c] := by
    rw [← hpart]
    exact h.leftOver_eq c 0 hc.length_eq.symm
  refine ⟨encode (dimension.kept info.shape) v, encode_lt hv, ?_⟩
  rw [placeAlong, decode_encode hv, ← hchannel]
  exact hcoordinate

theorem place_inj (hpos : info.Positive) (hk : k < info.shape.getD 1 0)
    (hj : j < (dimension.kept info.shape).prod) {j' : Nat}
    (hj' : j' < (dimension.kept info.shape).prod)
    (heq : placeAlong dimension k j = placeAlong dimension k j') : j = j' := by
  have hkept := hpos.kept dimension
  have hparts := (bijOn_coordinate dimension rfl).injOn
    (show ([k], decode (dimension.kept info.shape) j) ∈ _ from
      ⟨h.inBox_leftOver hk, inBox_decode hkept hj⟩)
    (show ([k], decode (dimension.kept info.shape) j') ∈ _ from
      ⟨h.inBox_leftOver hk, inBox_decode hkept hj'⟩) heq
  exact (bijOn_decode hkept).injOn hj hj' (Prod.mk.inj hparts).2

/-- The number of elements of a channel. -/
theorem length_eq : info.length = (dimension.kept info.shape).prod * info.shape.getD 1 0 := by
  have hmul := (TAD.init info dimension).volume_kept_mul
  have hkept : volume (TAD.init info dimension).kept = (dimension.kept info.shape).prod :=
    volume_kept_eq
  have hleft : volume (TAD.init info dimension).leftOver = info.shape.getD 1 0 := by
    have hprod : (dimension.leftOver info.shape).prod = info.shape.getD 1 0 := by
      rw [h.leftOver_shape, List.prod_singleton]
    exact volume_leftOver_eq.trans hprod
  rw [hkept, hleft] at hmul
  exact hmul.symm

end BatchAxes

/-- The elements of a channel, numbered along the other axes. -/
theorem channelValues_perm {T : Type} {array : NDArray T} {dims : List Int}
    {dimension : Dimensions array.shapeInfo.rank} (h : BatchAxes array.shapeInfo dims dimension)
    (hpos : array.shapeInfo.Positive) {k : Nat} (hk : k < array.shapeInfo.shape.getD 1 0) :
    (array.channelValues k).Perm
      ((List.range (dimension.kept array.shapeInfo.shape).prod).map fun j =>
        array.element (placeAlong dimension k j)) := by
  have hplaces : (((List.range array.shapeInfo.length).map (decode array.shapeInfo.shape)).filter
      fun c => channelOf c = k).Perm
      ((List.range (dimension.kept array.shapeInfo.shape).prod).map (placeAlong dimension k)) := by
    have hall : ((List.range array.shapeInfo.length).map (decode array.shapeInfo.shape)).Nodup :=
      List.nodup_range.map_on fun i hi j hj heq =>
        (bijOn_decode hpos).injOn (List.mem_range.mp hi) (List.mem_range.mp hj) heq
    have hnumbered : ((List.range (dimension.kept array.shapeInfo.shape).prod).map
        (placeAlong dimension k)).Nodup :=
      List.nodup_range.map_on fun i hi j hj heq =>
        h.place_inj hpos hk (List.mem_range.mp hi) (List.mem_range.mp hj) heq
    rw [List.perm_ext_iff_of_nodup (hall.filter _) hnumbered]
    intro c
    rw [List.mem_filter, List.mem_map, List.mem_map, decide_eq_true_eq]
    constructor
    · rintro ⟨⟨i, hi, rfl⟩, hchannel⟩
      obtain ⟨j, hj, hplace⟩ := h.exists_place (inBox_decode hpos (List.mem_range.mp hi))
      rw [hchannel] at hplace
      exact ⟨j, List.mem_range.mpr hj, hplace⟩
    · rintro ⟨j, hj, rfl⟩
      have hj := List.mem_range.mp hj
      have hbox := h.inBox_place hpos hk hj
      exact ⟨⟨_, List.mem_range.mpr (encode_lt hbox), decode_encode hbox⟩,
        h.channelOf_place hpos hk hj⟩
  have hvalues := hplaces.map array.element
  rw [List.map_map] at hvalues
  exact hvalues

/-- The tensors of an array without negative offsets do not start at one. -/
theorem dot_leftOver_nonneg {dimension : Dimensions info.rank} (hpos : info.Positive)
    (hnonneg : ∀ c, InBox info.shape c → 0 ≤ dot c info.stride) {u : List Nat}
    (hu : InBox (dimension.leftOver info.shape) u) :
    0 ≤ dot u (dimension.leftOver info.stride) := by
  have hkept := hpos.kept dimension
  have hv := inBox_decode hkept (prod_pos_of_pos hkept)
  have hfirst : dot (decode (dimension.kept info.shape) 0) (dimension.kept info.stride) =
      offsetAt (dimension.kept info.axes) 0 := by
    rw [offsetAt_eq_dot, dims_kept, map_snd_kept]
  have hplace : 0 ≤ dot (dimension.coordinate u (decode (dimension.kept info.shape) 0))
      info.stride := hnonneg _ (Selection.merge_spec hu hv).1
  rwa [dot_coordinate dimension hu hv, hfirst, offsetAt_zero, add_zero] at hplace

end Axes

/-! ## Rows of results -/

/-- A row in cells of its own. -/
structure OwnRow (info : ShapeInfo) (K : Nat) : Prop extends ChannelRow info K where
  cellsApart : CellsApart info
  offset_eq : info.offset = 0

section Results

variable {T : Type} {K : Nat}

theorem positive_updateStrides (hK : 0 < K) : (updateStrides [1, K] 'c').Positive := by
  intro d hd
  have hmem : d ∈ [1, K] := hd
  simp only [List.mem_cons, List.not_mem_nil, or_false] at hmem
  omega

theorem ownRow_updateStrides (hK : 0 < K) : OwnRow (updateStrides [1, K] 'c') K where
  shape_eq := rfl
  honest := honestSlots_updateStrides [1, K] 'c' (Or.inl rfl)
  cellsApart :=
    (consecutive_updateStrides [1, K] (Or.inl rfl)).cellsApart (positive_updateStrides hK)
  offset_eq := rfl

theorem liesInLength_updateStrides (hK : 0 < K) : LiesInLength (updateStrides [1, K] 'c') :=
  liesInLength_of_consecutive (positive_updateStrides hK)
    (consecutive_updateStrides [1, K] (Or.inl rfl))

variable {k : Nat}

/-- The entries of a result that is a row. -/
theorem element_ofReduced [Zero T] {result : Reduced T}
    (hresult : result.shapeInfo = updateStrides [1, K] 'c') (hk : k < K) {v : T}
    (h : result.element k = some v) : (NDArray.ofReduced result).element [0, k] = v := by
  have hplace : decode [1, K] k = [0, k] := by
    simp only [decode, List.prod_cons, List.prod_nil, mul_one, Nat.div_eq_of_lt hk,
      Nat.mod_eq_of_lt hk, Nat.div_one]
  have hcoordinate : ind2subC result.shapeInfo.shape k = [0, k] := by
    rw [hresult, ind2subC_eq_decode (positive_updateStrides (Nat.zero_lt_of_lt hk))]
    exact hplace
  rw [Reduced.element, hcoordinate] at h
  rw [NDArray.element, NDArray.ofReduced]
  simp only [List.getD_eq_getElem?_getD]
  rw [h, Option.getD_some]

/-- A result that is a row, as an array. -/
theorem exists_row [Zero T] {result : Reduced T} {v : Nat → T}
    (hresult : result.shapeInfo = updateStrides [1, K] 'c')
    (helement : ∀ k < K, result.element k = some (v k)) :
    ∃ buffer, NDArray.reduced (.ok (some result)) = .ok ⟨updateStrides [1, K] 'c', buffer⟩ ∧
      ∀ k < K, (NDArray.mk (updateStrides [1, K] 'c') buffer).element [0, k] = v k := by
  refine ⟨(NDArray.ofReduced result).buffer, ?_, fun k hk => ?_⟩
  · rw [← hresult]
    rfl
  · rw [← hresult]
    exact element_ofReduced hresult hk (helement k hk)

theorem meanOf_lawful [Field T] (elements : Set T) :
    (meanOf T).Lawful () elements Set.univ where
  start := (sumAll_lawful elements).start
  op_mem := (sumAll_lawful elements).op_mem
  regular := (sumAll_lawful elements).regular

theorem reduceValues_meanOf [Field T] (v : Nat → T) (n : Nat) :
    (meanOf T).reduceValues () v n = Moments.mean ((List.range n).map v) := by
  have hfold : ∀ (js : List Nat) (acc : T),
      js.foldl (fun acc j => (meanOf T).accumulate () acc (v j)) acc = acc + (js.map v).sum := by
    intro js
    induction js with
    | nil => exact fun acc => (add_zero acc).symm
    | cons j js ih =>
        intro acc
        rw [List.foldl_cons, ih, List.map_cons, List.sum_cons, ← add_assoc]
        exact congrArg (· + _) (add_comm (v j) acc)
  have hsum := hfold (List.range n) 0
  rw [zero_add] at hsum
  rw [Moments.mean, List.length_map, List.length_range, ← hsum]
  rfl

variable {array : NDArray T} {dims : List Int} {dimension : Dimensions array.shapeInfo.rank}

variable (h : BatchAxes array.shapeInfo dims dimension)

include h

/-- The elements that a reduction along the axes takes for an entry. -/
theorem elementAlong_channels (hpos : array.shapeInfo.Positive) {j : Nat}
    (hk : k < array.shapeInfo.shape.getD 1 0)
    (hj : j < (dimension.kept array.shapeInfo.shape).prod) :
    elementAlong array.buffer array.shapeInfo dimension
        (decode (dimension.leftOver array.shapeInfo.shape) k) j =
      array.element (placeAlong dimension k j) := by
  have hchannel : decode [array.shapeInfo.shape.getD 1 0] k = [k] := by simp [decode]
  rw [h.leftOver_shape, hchannel, element_eq (h.inBox_place hpos hk hj)]
  rfl

/-- The numbers of the entries. -/
theorem BatchAxes.lt_prod (hk : k < array.shapeInfo.shape.getD 1 0) :
    k < (dimension.leftOver array.shapeInfo.shape).prod := by
  rwa [h.leftOver_shape, List.prod_singleton]

/-- The values that an entry is made of are those of its channel. -/
theorem values_perm (hpos : array.shapeInfo.Positive) (hk : k < array.shapeInfo.shape.getD 1 0) :
    ((List.range (dimension.kept array.shapeInfo.shape).prod).map
      (elementAlong array.buffer array.shapeInfo dimension
        (decode (dimension.leftOver array.shapeInfo.shape) k))).Perm (array.channelValues k) := by
  refine List.Perm.trans (List.Perm.of_eq ?_) (channelValues_perm h hpos hk).symm
  exact List.map_congr_left fun j hj =>
    elementAlong_channels h hpos hk (List.mem_range.mp hj)

omit h

theorem meanAlong_channels [Field T] (run : Runtime T)
    (h : BatchAxes array.shapeInfo dims dimension) (hpos : array.shapeInfo.Positive)
    (hews : array.shapeInfo.HonestEws)
    (hnonneg : ∀ c, InBox array.shapeInfo.shape c → 0 ≤ dot c array.shapeInfo.stride) :
    ∃ buffer, array.meanAlong run dims =
        .ok ⟨updateStrides [1, array.shapeInfo.shape.getD 1 0] 'c', buffer⟩ ∧
      ∀ k < array.shapeInfo.shape.getD 1 0,
        (NDArray.mk (updateStrides [1, array.shapeInfo.shape.getD 1 0] 'c') buffer).element [0, k] =
          Moments.mean (array.channelValues k) := by
  have hsqueeze : (squeeze (dimension.leftOver array.shapeInfo.axes)).length ≤ 1 := by
    rw [h.leftOver_eq array.shapeInfo.axes default (ShapeInfo.length_axes _)]
    exact List.length_filter_le _ _
  have hreduces : ReducesElements run.settings array.shapeInfo dims dimension := by
    refine (reducesElements_iff h.accepted hpos hews h.rank_le run.settings).mpr (Or.inr
      ⟨fun _ _ _ => Or.inr hsqueeze, Or.inr fun u hu => ?_⟩)
    exact le_trans (by decide) (dot_leftOver_nonneg hpos hnonneg hu)
  obtain ⟨result, hresult, -, helement⟩ := hreduces T Unit (meanOf T) () array.buffer Set.univ
    (meanOf_lawful _) array.shapeInfo.length (le_refl _)
  have hinfo := (shapeInfo_of_reduceAlongDimension h.accepted hresult).trans h.result_eq
  rw [NDArray.meanAlong, hresult]
  refine exists_row hinfo fun k hk => ?_
  rw [helement k (h.lt_prod hk), reduceValues_meanOf, Moments.mean_perm (values_perm h hpos hk)]

/-! ## Variances -/

/-- Each of several channels has one element, and the tensors along the other axes are taken for the
whole array. -/
def TakenWhole (info : ShapeInfo) : Prop :=
  2 < info.rank ∧ info.length = info.shape.getD 1 0 ∧ info.elementWiseStride = 1 ∧
    info.shape.getD 1 0 ≠ 1

instance (info : ShapeInfo) : Decidable (TakenWhole info) :=
  inferInstanceAs (Decidable (_ ∧ _ ∧ _ ∧ _))

theorem BatchAxes.prod_kept_eq_one_iff (h : BatchAxes array.shapeInfo dims dimension)
    (hpos : array.shapeInfo.Positive) :
    (dimension.kept array.shapeInfo.shape).prod = 1 ↔
      array.shapeInfo.length = array.shapeInfo.shape.getD 1 0 := by
  rw [h.length_eq]
  exact (Nat.mul_eq_right (channels_pos h.two_le hpos).ne').symm

/-- The statistics of the channels are collected from their own elements. -/
theorem collects_channels (h : BatchAxes array.shapeInfo dims dimension)
    (hpos : array.shapeInfo.Positive) (hcells : CellsApart array.shapeInfo)
    (hnonneg : ∀ c, InBox array.shapeInfo.shape c → 0 ≤ dot c array.shapeInfo.stride)
    (hmany : array.shapeInfo.shape.getD 1 0 ≠ 1) (hwhole : ¬ TakenWhole array.shapeInfo) :
    Collects array.shapeInfo dimension where
  no_shortcut := fun ⟨hrank, hkept, hews⟩ =>
    hwhole ⟨hrank, (h.prod_kept_eq_one_iff hpos).mp hkept, hews, hmany⟩
  strided := by
    intro hone hextent
    have hK := channels_pos h.two_le hpos
    obtain ⟨a, ha⟩ := List.length_eq_one_iff.mp
      ((length_kept dimension array.shapeInfo.length_axes).trans hone)
    have hshape : dimension.kept array.shapeInfo.shape = [a.1] := by rw [← dims_kept, ha]; rfl
    have hstride : dimension.kept array.shapeInfo.stride = [a.2] := by
      rw [← map_snd_kept, ha]
      rfl
    have hpositive : 0 < a.1 := by
      apply hpos.kept dimension a.1
      rw [hshape]
      exact List.mem_singleton_self _
    rw [hshape, List.prod_singleton] at hextent
    refine ⟨by rw [h.leftOver_shape]; exact hmany, fun b hb => ?_⟩
    rw [ha, List.mem_singleton] at hb
    subst hb
    -- the second element of the first channel lies behind the first one
    have hleft := h.inBox_leftOver hK
    have hfirst : InBox (dimension.kept array.shapeInfo.shape) [0] := by
      rw [hshape]
      exact .cons hpositive .nil
    have hsecond : InBox (dimension.kept array.shapeInfo.shape) [1] := by
      rw [hshape]
      exact .cons (by omega) .nil
    have hbox := (Selection.merge_spec hleft hfirst).1
    have hbox' := (Selection.merge_spec hleft hsecond).1
    have hdot := dot_coordinate dimension hleft hfirst
    have hdot' := dot_coordinate dimension hleft hsecond
    have hzero : ∀ s : Int, dot [0] [s] = 0 := by simp [dot]
    have hone' : ∀ s : Int, dot [1] [s] = s := by simp [dot]
    rw [h.leftOver_eq array.shapeInfo.stride 0 array.shapeInfo.stride_length, hstride, hzero]
      at hdot hdot'
    rw [hzero, add_zero] at hdot
    rw [hone', zero_add] at hdot'
    have hge : 0 ≤ dot (dimension.coordinate [0] [1]) array.shapeInfo.stride := hnonneg _ hbox'
    have hne : dot (dimension.coordinate [0] [0]) array.shapeInfo.stride ≠
        dot (dimension.coordinate [0] [1]) array.shapeInfo.stride := by
      intro heq
      have hsame := hcells _ _ hbox hbox' heq
      have hparts := (Selection.merge_spec hleft hfirst).2.2
      rw [show Selection.merge dimension.mem array.shapeInfo.shape.length 0 [0] [0] = _ from hsame,
        (Selection.merge_spec hleft hsecond).2.2] at hparts
      cases hparts
    omega
  starts := Or.inr (Or.inr fun u hu =>
    le_trans (by decide) (dot_leftOver_nonneg hpos hnonneg hu))

section Variances

variable [Field T] [LinearOrder T] [FloorRing T]

variable [IsStrictOrderedRing T]

/-- The variances of the channels. -/
theorem varianceAlong_channels (skewness : SummaryStatsData T → T)
    (startingIndex : SummaryStatsData T) (h : BatchAxes array.shapeInfo dims dimension)
    (hpos : array.shapeInfo.Positive) (hews : array.shapeInfo.HonestEws)
    (hcells : CellsApart array.shapeInfo)
    (hnonneg : ∀ c, InBox array.shapeInfo.shape c → 0 ≤ dot c array.shapeInfo.stride)
    (hwhole : ¬ TakenWhole array.shapeInfo) :
    ∃ buffer, array.varianceAlong skewness startingIndex false dims =
        .ok ⟨updateStrides [1, array.shapeInfo.shape.getD 1 0] 'c', buffer⟩ ∧
      ∀ k < array.shapeInfo.shape.getD 1 0,
        (NDArray.mk (updateStrides [1, array.shapeInfo.shape.getD 1 0] 'c') buffer).element [0, k] =
          Moments.variance (array.channelValues k) := by
  have hvaries : VariesElements array.shapeInfo dims dimension := by
    by_cases hone : array.shapeInfo.shape.getD 1 0 = 1
    · apply variesElements_of_one h.accepted hpos hews h.rank_le
      rw [h.leftOver_shape, List.prod_singleton, hone]
    · apply variesElements_of_collects h.accepted hpos hews h.rank_le
      · rw [h.leftOver_shape, List.prod_singleton]
        exact hone
      · exact collects_channels h hpos hcells hnonneg hone hwhole
  obtain ⟨result, hresult, -, helement⟩ := hvaries T skewness startingIndex array.buffer
    array.shapeInfo.length (le_refl _)
  have hinfo := (shapeInfo_of_varianceAlongDimension h.accepted hresult).trans h.result_eq
  rw [NDArray.varianceAlong, hresult]
  refine exists_row hinfo fun k hk => ?_
  rw [helement k (h.lt_prod hk), Moments.variance_perm (values_perm h hpos hk)]

omit [Field T] [LinearOrder T] [FloorRing T] [IsStrictOrderedRing T] in
/-- A list of zeros with another first entry. -/
theorem set_zero_replicate [Zero T] (n : Nat) (v : T) :
    (List.replicate n 0).set 0 v = (List.range n).map fun k => if k = 0 then v else 0 := by
  apply List.ext_getElem
  · rw [List.length_set, List.length_replicate, List.length_map, List.length_range]
  · intro k hk hk'
    rw [List.getElem_set, List.getElem_replicate, List.getElem_map, List.getElem_range]
    simp only [eq_comm]

/-- The variance of the whole array in the first entry. -/
theorem varianceAlong_whole (skewness : SummaryStatsData T → T)
    (startingIndex : SummaryStatsData T) (h : BatchAxes array.shapeInfo dims dimension)
    (hpos : array.shapeInfo.Positive) (hews : array.shapeInfo.HonestEws)
    (hwhole : TakenWhole array.shapeInfo) :
    ∃ buffer, array.varianceAlong skewness startingIndex false dims =
        .ok ⟨updateStrides [1, array.shapeInfo.shape.getD 1 0] 'c', buffer⟩ ∧
      ∀ k < array.shapeInfo.shape.getD 1 0,
        (NDArray.mk (updateStrides [1, array.shapeInfo.shape.getD 1 0] 'c') buffer).element [0, k] =
          if k = 0 then Moments.variance array.values else 0 := by
  obtain ⟨hrank, hlength, hslot, hmany⟩ := hwhole
  have hmany' : (dimension.leftOver array.shapeInfo.shape).prod ≠ 1 := by
    rwa [h.leftOver_shape, List.prod_singleton]
  have hproper := proper_of_many hmany'
  have hvolume : volume (TAD.init array.shapeInfo dimension).leftOver ≠ 1 :=
    fun hone => hmany' (volume_leftOver_eq.symm.trans hone)
  have htad : (TAD.init array.shapeInfo dimension).wholeThing = true :=
    (wholeThing_iff hpos hproper hvolume).mpr
      ⟨hrank, volume_kept_eq.trans ((h.prod_kept_eq_one_iff hpos).mpr hlength), hslot⟩
  have hrow : (evalReduceShapeInfo 'c' array.shapeInfo dimension).length =
      (dimension.leftOver array.shapeInfo.shape).prod :=
    (reducedShape_evalReduceShapeInfo 'c' dimension h.rank_le).prod_eq
  have hentries : (List.replicate (evalReduceShapeInfo 'c' array.shapeInfo dimension).length
      (0 : T)).set 0 (Moments.variance array.values) =
      (List.range (dimension.leftOver array.shapeInfo.shape).prod).map fun k =>
        if k = 0 then Moments.variance array.values else 0 := by
    rw [hrow]
    exact set_zero_replicate _ _
  have hvalues : (List.range array.shapeInfo.length).map
      (fun k => array.buffer (offsetAt array.shapeInfo.axes k)) = array.values := by
    rw [NDArray.values, List.map_map]
    refine List.map_congr_left fun k hk => ?_
    rw [Function.comp_apply, element_eq (inBox_decode hpos (List.mem_range.mp hk)),
      offsetAt_eq_dot, ShapeInfo.dims_axes, ShapeInfo.map_snd_axes]
  have hexec := @exec_whole array.shapeInfo dimension T _ _ _ hpos hews h.rank_le hproper
    (evalReduceShapeInfo 'c' array.shapeInfo dimension) (Or.inr htad)
    (summaryStatsVariance skewness) array.shapeInfo.length false startingIndex array.buffer
    (List.replicate (evalReduceShapeInfo 'c' array.shapeInfo dimension).length 0)
  rw [execScalar_summaryStats_eq skewness startingIndex array.buffer hpos hews, hvalues,
    hentries] at hexec
  have hresult := varianceAlongDimension_of_exec h.accepted hproper hexec
  rw [NDArray.varianceAlong, hresult]
  exact exists_row h.result_eq fun k hk =>
    element_evalReduceShapeInfo hpos dimension h.rank_le _ (h.lt_prod hk)

end Variances

end Results

/-! ## One element among zeros -/

section Single

variable {T : Type} [Zero T]

/-- A number in the cell of a place, and zeros in all others. -/
def singleAt (info : ShapeInfo) (place : List Nat) (t : T) : Int → T := fun cell =>
  if cell = dot place info.stride then t else 0

theorem element_singleAt {info : ShapeInfo} (hcells : CellsApart info) {place c : List Nat}
    (hplace : InBox info.shape place) (hc : InBox info.shape c) (t : T) :
    (NDArray.mk info (singleAt info place t)).element c = if c = place then t else 0 := by
  rw [@element_eq T ⟨info, _⟩ c hc]
  by_cases hsame : c = place
  · rw [if_pos hsame, hsame]
    exact if_pos rfl
  · rw [if_neg hsame]
    exact if_neg fun heq => hsame (hcells c place hc hplace heq)

/-- The elements of the first channel, if its first one is not zero. -/
theorem channelValues_singleAt {info : ShapeInfo} {dims : List Int}
    {dimension : Dimensions info.rank} (h : BatchAxes info dims dimension) (hpos : info.Positive)
    (hcells : CellsApart info) {m : Nat} (hm : (dimension.kept info.shape).prod = m + 1) (t : T) :
    ((NDArray.mk info (singleAt info (placeAlong dimension 0 0) t)).channelValues 0).Perm
      (t :: List.replicate m 0) := by
  have hchannels := channels_pos h.two_le hpos
  have hfirst : 0 < (dimension.kept info.shape).prod := by omega
  have hvalues := @channelValues_perm T
    ⟨info, singleAt info (placeAlong dimension 0 0) t⟩ dims dimension h hpos 0 hchannels
  refine hvalues.trans (List.Perm.of_eq ?_)
  have hset : (List.replicate (m + 1) (0 : T)).set 0 t = t :: List.replicate m 0 := by
    rw [List.replicate_succ, List.set_cons_zero]
  rw [hm, ← hset, set_zero_replicate]
  refine List.map_congr_left fun j hj => ?_
  have hj : j < (dimension.kept info.shape).prod := hm ▸ List.mem_range.mp hj
  have helement := element_singleAt hcells (h.inBox_place hpos hchannels hfirst)
    (h.inBox_place hpos hchannels hj) t
  have hplace : placeAlong dimension 0 j = placeAlong dimension 0 0 ↔ j = 0 :=
    ⟨h.place_inj hpos hchannels hj hfirst, fun hzero => by rw [hzero]⟩
  simp only [hplace] at helement
  exact helement

end Single

end Arrays
end LibND4J
