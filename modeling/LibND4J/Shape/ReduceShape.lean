import LibND4J.Shape.Slices

/-!
# The shape of a reduction

A reduction checks the dimensions it is given, brings them in increasing order and
computes the shape information of its result from the axes that are left over.

Main results:

- Theorem `checkDimensions_mem`: accepted dimensions are the axes they name,
  negative ones counted from the end.
- Theorem `checkDimensions_spec`: which lists are refused, and what becomes of the others.
- Theorem `reducedShape_evalReduceShapeInfo`: the result keeps the left-over axes.
- Theorem `getOffset_updateStrides`: in C order the elements of a fresh array lie
  one after the other.
-/

namespace LibND4J
namespace Shape

open Strided Selection

/-! ## Checking dimensions -/

/-- The axis that a dimension names: negative ones count from the end. -/
def axisOf (rank : Nat) (dim : Int) : Int :=
  if dim < 0 then dim + rank else dim

/-- Drop repetitions of neighbours. -/
def unique : List Int → List Int
  | i :: j :: dims => if i = j then unique (j :: dims) else i :: unique (j :: dims)
  | dims => dims

/-- Sort the dimensions and drop repetitions; a single dimension is left as it is. -/
def sortUnique (dims : List Int) : List Int :=
  if dims.length > 1 then unique (dims.insertionSort (· ≤ ·)) else dims

variable {i : Int} {dims : List Int} {rank : Nat} {shape : List Nat}

theorem mem_unique : i ∈ unique dims ↔ i ∈ dims := by
  fun_induction unique dims with
  | case1 j dims ih => rw [ih, List.mem_cons (l := j :: dims)]; simp
  | case2 j k dims _ ih => rw [List.mem_cons, ih, List.mem_cons (l := k :: dims)]
  | case3 dims _ => rfl

/-- Dropping repetitions makes a sorted list strictly increasing. -/
theorem pairwise_unique (h : dims.Pairwise (· ≤ ·)) : (unique dims).Pairwise (· < ·) := by
  fun_induction unique dims with
  | case1 j dims ih => exact ih h.of_cons
  | case2 j k dims hne ih =>
      rw [List.pairwise_cons] at h
      refine List.Pairwise.cons (fun l hl => ?_) (ih h.2)
      have hjk : j < k := lt_of_le_of_ne (h.1 k List.mem_cons_self) hne
      rcases List.mem_cons.mp (mem_unique.mp hl) with rfl | hl
      · exact hjk
      · exact lt_of_lt_of_le hjk ((List.pairwise_cons.mp h.2).1 l hl)
  | case3 dims hshort =>
      match dims, hshort with
      | [], _ => exact List.Pairwise.nil
      | [j], _ => exact List.pairwise_singleton _ j
      | j :: k :: rest, hshort => exact absurd rfl (hshort j k rest)

theorem mem_sortUnique : i ∈ sortUnique dims ↔ i ∈ dims := by
  rw [sortUnique]
  split
  · rw [mem_unique, List.mem_insertionSort]
  · rfl

theorem pairwise_sortUnique (dims : List Int) : (sortUnique dims).Pairwise (· < ·) := by
  rw [sortUnique]
  split
  · exact pairwise_unique (List.pairwise_insertionSort _ dims)
  · rename_i hshort
    match dims, hshort with
    | [], _ => exact List.Pairwise.nil
    | [j], _ => exact List.pairwise_singleton _ j
    | j :: k :: rest, hshort => simp at hshort

/-- In an increasing list every entry lies between the first and the last one. -/
theorem between_of_pairwise (h : dims.Pairwise (· < ·)) (hi : i ∈ dims) (default : Int) :
    dims.headD default ≤ i ∧ i ≤ dims.getLastD default := by
  induction dims generalizing i with
  | nil => cases hi
  | cons j dims ih =>
      rw [List.pairwise_cons] at h
      cases dims with
      | nil =>
          rw [List.mem_singleton] at hi
          exact ⟨hi.ge, hi.le⟩
      | cons k rest =>
          have hjk : j < k := h.1 k List.mem_cons_self
          have hk := ih h.2 List.mem_cons_self
          rcases List.mem_cons.mp hi with rfl | hi
          · exact ⟨le_refl i, hjk.le.trans hk.2⟩
          · exact ⟨(h.1 i hi).le, (ih h.2 hi).2⟩

def checkDimensions (rank : Nat) (dimensions : List Int) : Except String (Dimensions rank) :=
  if hempty : dimensions = [] then
    .error "shape::checkDimensions method: array of dimensions is empty!"
  else
    let dims := sortUnique (dimensions.map (axisOf rank))
    if dims.length > rank then
      .error ("shape::checkDimensions method: number of input dimensions is too big " ++
        "( > rank of array) !")
    else if hrange : dims.headD 0 < 0 ∨ dims.getLastD 0 > (rank : Int) - 1 then
      .error ("shape::checkDimensions method: the negative dimension is still present in " ++
        "input array after transform or the too big dimension is present ( > rank of array) !")
    else
      .ok
        { toList := dims.map Int.toNat
          ne_nil := by
            intro hnil
            obtain ⟨d, hd⟩ := List.exists_mem_of_ne_nil dimensions hempty
            have hmem : axisOf rank d ∈ dims :=
              mem_sortUnique.mpr (List.mem_map_of_mem hd)
            rw [List.map_eq_nil_iff.mp hnil] at hmem
            cases hmem
          sorted := by
            have hsorted : dims.Pairwise (· < ·) := pairwise_sortUnique _
            rw [List.pairwise_map]
            refine hsorted.imp_of_mem fun hi hj hlt => ?_
            have hlow := (between_of_pairwise hsorted hi 0).1
            have hlow' := (between_of_pairwise hsorted hj 0).1
            omega
          lt_rank := by
            intro d hd
            obtain ⟨i, hi, rfl⟩ := List.mem_map.mp hd
            have hsorted : dims.Pairwise (· < ·) := pairwise_sortUnique _
            have hbounds := between_of_pairwise hsorted hi 0
            omega }

/-- Accepted dimensions are the axes they name. -/
theorem checkDimensions_mem {dimensions : List Int} {dimension : Dimensions rank}
    (h : checkDimensions rank dimensions = .ok dimension) (i : Nat) :
    dimension.mem i ↔ ∃ d ∈ dimensions, axisOf rank d = i := by
  unfold checkDimensions at h
  simp only at h
  split at h
  · cases h
  split at h
  · cases h
  split at h
  · cases h
  · rename_i hrange
    cases h
    have hmem : ∀ j, j ∈ sortUnique (dimensions.map (axisOf rank)) ↔
        ∃ d ∈ dimensions, axisOf rank d = j := fun j => by
      rw [mem_sortUnique, List.mem_map]
    have hlow : ∀ j ∈ sortUnique (dimensions.map (axisOf rank)), 0 ≤ j := by
      intro j hj
      have hbounds := between_of_pairwise (pairwise_sortUnique _) hj 0
      omega
    rw [Dimensions.mem, decide_eq_true_eq, List.mem_map, ← hmem]
    constructor
    · rintro ⟨j, hj, rfl⟩
      rwa [Int.toNat_of_nonneg (hlow j hj)]
    · intro hi
      exact ⟨i, hi, Int.toNat_natCast i⟩

/-- `NDArray::tensorsAlongDimension`; the quotient of a tensor without elements is undefined. -/
def tensorsAlongDimension (info : ShapeInfo) (dimensions : List Int) :
    Except String (Option Nat) :=
  (checkDimensions info.rank dimensions).map fun copy =>
    let tadLength := tadLength info.shape copy.toList
    if tadLength = 0 then none else some (info.length / tadLength)

/-- A strictly increasing list between zero and the rank has at most as many entries. -/
theorem length_le_rank (h : dims.Pairwise (· < ·)) (hrange : ∀ i ∈ dims, 0 ≤ i ∧ i < rank) :
    dims.length ≤ rank := by
  have hnodup : (dims.map Int.toNat).Nodup := by
    rw [List.Nodup, List.pairwise_map]
    refine h.imp_of_mem fun hi hj hlt => ?_
    have hi := hrange _ hi
    have hj := hrange _ hj
    omega
  have hsubset : dims.map Int.toNat ⊆ List.range rank := by
    intro i hi
    obtain ⟨j, hj, rfl⟩ := List.mem_map.mp hi
    have hj := hrange j hj
    rw [List.mem_range]
    omega
  have hlength := (List.subperm_of_subset hnodup hsubset).length_le
  rwa [List.length_map, List.length_range] at hlength

/-- The ends of an increasing list tell whether all of it lies between zero and the rank. -/
theorem ends_iff (h : dims.Pairwise (· < ·)) (hne : dims ≠ []) :
    ¬ (dims.headD 0 < 0 ∨ dims.getLastD 0 > (rank : Int) - 1) ↔ ∀ i ∈ dims, 0 ≤ i ∧ i < rank := by
  constructor
  · intro hends i hi
    have hbounds := between_of_pairwise h hi 0
    omega
  · intro hrange
    have hhead : dims.headD 0 ∈ dims := by
      obtain ⟨first, rest, rfl⟩ := List.exists_cons_of_ne_nil hne
      exact List.mem_cons_self
    have hlast : dims.getLastD 0 ∈ dims := by
      rw [List.getLastD_eq_getLast?, List.getLast?_eq_some_getLast hne, Option.getD_some]
      exact List.getLast_mem hne
    have hfirst := hrange _ hhead
    have hend := hrange _ hlast
    omega

/-- Lists of dimensions are refused if they are empty or leave the axes. -/
theorem checkDimensions_error_iff (rank : Nat) (dimensions : List Int) :
    (∃ message, checkDimensions rank dimensions = .error message) ↔
      dimensions = [] ∨ ∃ d ∈ dimensions, ¬ (0 ≤ axisOf rank d ∧ axisOf rank d < rank) := by
  have hsorted : (sortUnique (dimensions.map (axisOf rank))).Pairwise (· < ·) :=
    pairwise_sortUnique _
  by_cases hempty : dimensions = []
  · rw [checkDimensions, dif_pos hempty]
    exact ⟨fun _ => Or.inl hempty, fun _ => ⟨_, rfl⟩⟩
  have hfilled : sortUnique (dimensions.map (axisOf rank)) ≠ [] := by
    obtain ⟨d, hd⟩ := List.exists_mem_of_ne_nil dimensions hempty
    exact List.ne_nil_of_mem (mem_sortUnique.mpr (List.mem_map_of_mem hd))
  have hall : (∀ i ∈ sortUnique (dimensions.map (axisOf rank)), 0 ≤ i ∧ i < rank) ↔
      ∀ d ∈ dimensions, 0 ≤ axisOf rank d ∧ axisOf rank d < rank := by
    simp only [mem_sortUnique, List.forall_mem_map]
  rw [checkDimensions, dif_neg hempty]
  by_cases hright : ∀ d ∈ dimensions, 0 ≤ axisOf rank d ∧ axisOf rank d < rank
  · have hlength := length_le_rank hsorted (hall.mpr hright)
    rw [if_neg (by omega), dif_neg ((ends_iff hsorted hfilled).mpr (hall.mpr hright))]
    constructor
    · rintro ⟨message, herror⟩
      cases herror
    · rintro (hnil | ⟨d, hd, hwrong⟩)
      · exact absurd hnil hempty
      · exact absurd (hright d hd) hwrong
  · have hends : (sortUnique (dimensions.map (axisOf rank))).headD 0 < 0 ∨
        (sortUnique (dimensions.map (axisOf rank))).getLastD 0 > (rank : Int) - 1 := by
      by_contra hnot
      exact hright (hall.mp ((ends_iff hsorted hfilled).mp hnot))
    refine ⟨fun _ => Or.inr ?_, fun _ => ?_⟩
    · by_contra hnone
      exact hright fun d hd => by_contra fun hwrong => hnone ⟨d, hd, hwrong⟩
    by_cases hlong : (sortUnique (dimensions.map (axisOf rank))).length > rank
    · rw [if_pos hlong]
      exact ⟨_, rfl⟩
    · rw [if_neg hlong, dif_pos hends]
      exact ⟨_, rfl⟩

/-- What lists of dimensions are accepted, what becomes of them, and that the tensors along them
have all elements of an array. -/
theorem checkDimensions_spec (rank : Nat) (dimensions : List Int) :
    ((∃ message, checkDimensions rank dimensions = .error message) ↔
      dimensions = [] ∨ ∃ d ∈ dimensions, ¬ (0 ≤ axisOf rank d ∧ axisOf rank d < rank)) ∧
    ∀ dimension, checkDimensions rank dimensions = .ok dimension →
      dimension.toList.Pairwise (· < ·) ∧
      (∀ i : Nat, i ∈ dimension.toList ↔ ∃ d ∈ dimensions, axisOf rank d = i) ∧
      ∀ info : ShapeInfo, info.rank = rank →
        tadLength info.shape dimension.toList *
          (info.length / tadLength info.shape dimension.toList) = info.length ∧
        (info.Positive → tensorsAlongDimension info dimensions =
          .ok (some (info.length / tadLength info.shape dimension.toList))) := by
  refine ⟨checkDimensions_error_iff rank dimensions, fun dimension haccepted =>
    ⟨dimension.sorted, fun i => ?_, ?_⟩⟩
  · rw [← checkDimensions_mem haccepted, Dimensions.mem, decide_eq_true_eq]
  · rintro info rfl
    have hlength : tadLength info.shape dimension.toList = (dimension.kept info.shape).prod :=
      tadLength_eq dimension rfl
    have hdvd : (dimension.kept info.shape).prod ∣ info.length := ⟨_, (prod_pick info.shape).symm⟩
    refine ⟨by rw [hlength, Nat.mul_div_cancel' hdvd], fun hpos => ?_⟩
    have hne : tadLength info.shape dimension.toList ≠ 0 := by
      rw [hlength]
      exact (Nat.pos_of_dvd_of_pos hdvd hpos.length_pos).ne'
    rw [tensorsAlongDimension, haccepted]
    exact congrArg Except.ok (if_neg hne)

theorem checkDimensions_spec_cube :
    tensorsAlongDimension ⟨[2, 3, 4], [12, 4, 1], 0, 1, 'c', rfl⟩ [-1, 0] = .ok (some 3) := by
  obtain ⟨-, haccepted⟩ := checkDimensions_spec 3 [-1, 0]
  obtain ⟨-, -, htensors⟩ := haccepted ⟨[0, 2], by decide, by decide, by decide⟩ rfl
  exact (htensors ⟨[2, 3, 4], [12, 4, 1], 0, 1, 'c', rfl⟩ rfl).2 (by decide)

/-! ## Fresh shapes -/

/-- Strides of a fresh array in C order, the last one first to be set. -/
def cStrides : List Nat → List Int
  | [] => []
  | [_] => [1]
  | _ :: e :: shape =>
      match cStrides (e :: shape) with
      | [] => []
      | s :: strides => s * e :: s :: strides

/-- Strides of a fresh array in F order, from the given first stride on. -/
def fStrides : Int → List Nat → List Int
  | _, [] => []
  | s, d :: shape => s :: fStrides (s * d) shape

/-- `updateStrides`, of a buffer that holds its rank and its extents. -/
def updateStrides (shape : List Nat) (order : Char) : ShapeInfo where
  shape := shape
  stride := if order = 'c' then cStrides shape else fStrides 1 shape
  offset := 0
  elementWiseStride := 1
  order := order
  stride_length := by
    have hc : ∀ ds : List Nat, (cStrides ds).length = ds.length := by
      intro ds
      fun_induction cStrides ds with
      | case1 => rfl
      | case2 d => rfl
      | case3 d e ds hnil ih => rw [hnil] at ih; cases ih
      | case4 d e ds s strides hcons ih => rw [hcons] at ih; simpa using ih
    have hf : ∀ (ds : List Nat) (s : Int), (fStrides s ds).length = ds.length := by
      intro ds
      induction ds with
      | nil => intro s; rfl
      | cons d ds ih => intro s; simp [fStrides, ih]
    split
    · exact hc shape
    · exact hf shape 1

theorem cStrides_cons (d : Nat) (shape : List Nat) :
    cStrides (d :: shape) = (shape.prod : Int) :: cStrides shape := by
  induction shape generalizing d with
  | nil => rfl
  | cons e shape ih =>
      rw [cStrides, ih e, List.prod_cons, Nat.cast_mul, mul_comm]

/-- The elements of a fresh array in C order lie one after the other. -/
theorem offsetAt_cStrides {t : Nat} (ht : t < shape.prod) :
    offsetAt (shape.zip (cStrides shape)) t = t := by
  induction shape generalizing t with
  | nil =>
      have hzero : t = 0 := by simpa using ht
      rw [hzero]
      rfl
  | cons d shape ih =>
      rw [List.prod_cons] at ht
      have hprod : 0 < shape.prod := Nat.pos_of_ne_zero fun hzero => by simp [hzero] at ht
      have hvolume : volume (shape.zip (cStrides shape)) = shape.prod := by
        have h := (updateStrides shape 'c').volume_axes
        exact h
      rw [cStrides_cons, List.zip_cons_cons, offsetAt_cons, hvolume, ih (Nat.mod_lt t hprod),
        nsmul_eq_mul]
      show ((t / shape.prod : Nat) : Int) * (shape.prod : Nat) + (t % shape.prod : Nat) = t
      rw [← Nat.cast_mul, ← Nat.cast_add, Nat.div_add_mod']

theorem getOffset_updateStrides (hpos : ∀ d ∈ shape, 0 < d) {t : Nat} (ht : t < shape.prod) :
    getOffset 0 shape (updateStrides shape 'c').stride (ind2subC shape t) = t := by
  have hbox : InBox shape (decode shape t) := inBox_decode hpos ht
  have haxes := offsetAt_eq_dot (updateStrides shape 'c').axes t
  rw [ShapeInfo.dims_axes, ShapeInfo.map_snd_axes] at haxes
  rw [ind2subC_eq_decode hpos, getOffset_eq hbox (updateStrides shape 'c').stride_length, zero_add]
  exact haxes.symm.trans (offsetAt_cStrides ht)

/-- `evalReduceShapeInfo`, behind its check of the dimensions. -/
def evalReduceShapeInfo (order : Char) (info : ShapeInfo) (dimension : Dimensions info.rank) :
    ShapeInfo :=
  let dimensions := dimension.toList
  let newRank := info.rank - dimensions.length
  let newShape :=
    if newRank = 0 ∨ dimensions = [maxDimension] then [1, 1]
    else removeIndex info.shape dimensions
  let newShape :=
    if newRank = 1 then
      let oldValue := newShape.getD 0 0
      if dimensions.getD 0 0 = 0 then [1, oldValue] else [oldValue, 1]
    else
      newShape
  updateStrides newShape order

/-- The shape a reduction should have: the axes left over, a single one padded by an
extent of one, none at all giving a scalar. -/
def ReducedShape (left shape : List Nat) : Prop :=
  match left with
  | [] => shape = [1, 1]
  | [d] => shape = [1, d] ∨ shape = [d, 1]
  | left => shape = left

theorem ReducedShape.prod_eq {left : List Nat} (h : ReducedShape left shape) :
    shape.prod = left.prod := by
  unfold ReducedShape at h
  split at h
  · rw [h]
    rfl
  · rcases h with rfl | rfl
    · simp
    · simp
  · rw [h]

theorem ReducedShape.pos {left : List Nat} (h : ReducedShape left shape)
    (hpos : ∀ d ∈ left, 0 < d) : ∀ d ∈ shape, 0 < d := by
  unfold ReducedShape at h
  split at h
  · simp [h]
  · rename_i d
    have hd := hpos d List.mem_cons_self
    rcases h with rfl | rfl
    · simpa using hd
    · simpa using hd
  · rwa [h]

/-- The result of a reduction keeps the left-over axes. -/
theorem reducedShape_evalReduceShapeInfo (order : Char) {info : ShapeInfo}
    (dimension : Dimensions info.rank) (hmax : info.rank ≤ maxDimension) :
    ReducedShape (dimension.leftOver info.shape)
      (evalReduceShapeInfo order info dimension).shape := by
  have hmarker : dimension.toList ≠ [maxDimension] := by
    intro hdim
    have hlt := dimension.lt_rank maxDimension (by rw [hdim]; exact List.mem_singleton_self _)
    omega
  have hremove : removeIndex info.shape dimension.toList = dimension.leftOver info.shape :=
    removeIndex_eq_leftOver dimension rfl
  have hlen : dimension.toList.length + (dimension.leftOver info.shape).length = info.rank :=
    length_kept_add dimension rfl
  show ReducedShape _ (if info.rank - dimension.toList.length = 1 then
      let oldValue := (if info.rank - dimension.toList.length = 0 ∨
        dimension.toList = [maxDimension] then [1, 1] else
          removeIndex info.shape dimension.toList).getD 0 0
      if dimension.toList.getD 0 0 = 0 then [1, oldValue] else [oldValue, 1]
    else if info.rank - dimension.toList.length = 0 ∨ dimension.toList = [maxDimension] then [1, 1]
    else removeIndex info.shape dimension.toList)
  simp only [hmarker, or_false, hremove]
  rw [show info.rank - dimension.toList.length = (dimension.leftOver info.shape).length by omega]
  generalize dimension.leftOver info.shape = left
  match left with
  | [] => rfl
  | [d] =>
      rw [List.length_singleton, if_pos rfl, if_neg one_ne_zero]
      by_cases hfirst : dimension.toList.getD 0 0 = 0
      · rw [if_pos hfirst]
        exact Or.inl rfl
      · rw [if_neg hfirst]
        exact Or.inr rfl
  | d :: e :: rest => rfl

end Shape
end LibND4J
