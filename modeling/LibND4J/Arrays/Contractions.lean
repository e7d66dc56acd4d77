import LibND4J.Arrays.FlatResult
import LibND4J.Arrays.TensorDot
import LibND4J.Library.SingleAxis

/-!
# Contractions along any axes

The axes of `tensorDot` may count from the back, and an array may have no axis that is kept: it
contributes an axis of extent one to the result.  The operation `tensormmul` reads the axes
from its integer arguments.

Main results:

- Theorem `buffer_of_line`: a dense array reshaped to a row or a column fills its buffer.
- Theorem `tensorDotAlong_contracts`: the elements of a contraction.
- Theorem `not_keptExtents_always`: an array that is summed over as a whole.
-/

namespace LibND4J
namespace Arrays

open Shape Strided Ops

/-! ## The routine -/

/-- An axis that may count from the back, counted from the front. -/
def fromFront (rank : Nat) (axis : Int) : Int :=
  if axis < 0 then axis + rank else axis

/-- `NDArray::sizeAt`. -/
def NDArray.sizeAt {T : Type} (array : NDArray T) (dim : Int) : Except Failure Nat :=
  if dim ≥ array.shapeInfo.rank ∨ dim < -array.shapeInfo.rank then
    .error (.thrown "Bad size index requested")
  else .ok (array.shapeInfo.shape.getD (fromFront array.shapeInfo.rank dim).toNat 0)

/-- The loop that validates the axes; the rest of a longer list stays as it is. -/
def validateAxes {T : Type} (a b : NDArray T) :
    List Int → List Int → Except Failure (List Int × List Int)
  | i :: axes_0, j :: axes_1 => do
      let m ← a.sizeAt i
      let n ← b.sizeAt j
      if m ≠ n then
        .error (.thrown "Size of the given axes at each dimension must be the same size.")
      else
        let (axes_0, axes_1) ← validateAxes a b axes_0 axes_1
        return (fromFront a.shapeInfo.rank i :: axes_0, fromFront b.shapeInfo.rank j :: axes_1)
  | axes_0, axes_1 => return (axes_0, axes_1)

/-- `NDArrayFactory::tensorDot` without an array for the result. -/
def tensorDotAlong {T : Type} [CommRing T] [DecidableEq T] (run : Runtime T) (a b : NDArray T)
    (axes_0 axes_1 : List Int) : Except Failure (NDArray T) := do
  let (axes_0, axes_1) ← validateAxes a b axes_0 axes_1
  let _ ← (axes_0.take a.shapeInfo.rank).mapM a.sizeAt
  let _ ← (axes_1.take b.shapeInfo.rank).mapM b.sizeAt
  if ∃ i ∈ axes_0 ++ axes_1, i < 0 then
    -- an axis that is kept and summed over
    .error (.thrown ("Wrong arguments in permute method: either array is nullptr or rank is not " ++
      "suitable!"))
  else tensorDot run a b (axes_0.map Int.toNat) (axes_1.map Int.toNat)

/-- `vector::at`. -/
def argumentAt (iArguments : List Int) (i : Int) : Except Failure Int :=
  if 0 ≤ i ∧ i < iArguments.length then .ok (iArguments.getD i.toNat 0)
  else .error (.thrown "std::out_of_range")

def tensormmul {T : Type} [CommRing T] [DecidableEq T] (run : Runtime T) (a b : NDArray T)
    (iArguments : List Int) : Except Failure (NDArray T) := do
  let axe0_size ← argumentAt iArguments 0
  let axe1_size ← argumentAt iArguments (axe0_size + 1)
  let axes_0 ← (List.range axe0_size.toNat).mapM fun e : Nat => argumentAt iArguments (e + 1)
  let axes_1 ← (List.range axe1_size.toNat).mapM fun e : Nat =>
    argumentAt iArguments (e + axe0_size + 2)
  tensorDotAlong run a b axes_0 axes_1

/-! ## Coordinates -/

section Coordinates

variable {shape axes c k : List Nat} {n : Nat}

/-- The coordinate of an operand, from its parts on the axes that are kept and on those that are
summed over. -/
def operandCoordinate (rank : Nat) (axes free summed : List Nat) : List Nat :=
  (List.range rank).map fun i =>
    if i ∈ axes then summed.getD (axes.idxOf i) 0 else free.getD ((keptAxes rank axes).idxOf i) 0

variable {rank : Nat}

theorem getD_operandCoordinate {i : Nat} (hi : i < rank) (axes free summed : List Nat) :
    (operandCoordinate rank axes free summed).getD i 0 =
      if i ∈ axes then summed.getD (axes.idxOf i) 0
      else free.getD ((keptAxes rank axes).idxOf i) 0 := by
  rw [operandCoordinate, List.getD_eq_getElem?_getD, List.getElem?_map, List.getElem?_range hi]
  rfl

/-- Different axes and the other ones are all axes. -/
theorem perm_keptAxes (hnodup : axes.Nodup) (hlt : ∀ i ∈ axes, i < n) :
    (keptAxes n axes ++ axes).Perm (List.range n) := by
  have hdisjoint : (keptAxes n axes).Disjoint axes := fun i hkept hi =>
    of_decide_eq_true (List.mem_filter.mp hkept).2 hi
  refine (List.perm_ext_iff_of_nodup ?_ List.nodup_range).mpr fun i => ?_
  · exact List.Nodup.append (List.nodup_range.filter _) hnodup hdisjoint
  · rw [List.mem_append, keptAxes, List.mem_filter, List.mem_range, decide_eq_true_iff]
    constructor
    · rintro (⟨hi, -⟩ | hi)
      · exact hi
      · exact hlt i hi
    · intro hi
      by_cases hmem : i ∈ axes
      · exact Or.inr hmem
      · exact Or.inl ⟨hi, hmem⟩

/-- A list read at the places of its axes. -/
theorem map_getD_idxOf {l v : List Nat} (hnodup : l.Nodup) (hlength : v.length = l.length) :
    l.map (fun i => v.getD (l.idxOf i) 0) = v := by
  apply List.ext_getElem
  · rw [List.length_map, hlength]
  · intro i hi hv
    rw [List.getElem_map, hnodup.idxOf_getElem, List.getD_eq_getElem?_getD,
      List.getElem?_eq_getElem hv, Option.getD_some]

/-- The parts of a coordinate on the axes that are kept. -/
theorem map_keptAxes_operandCoordinate (hc : c.length = (keptAxes rank axes).length)
    (k : List Nat) : (keptAxes rank axes).map ((operandCoordinate rank axes c k).getD · 0) = c := by
  refine (List.map_congr_left fun i hi => ?_).trans (map_getD_idxOf (List.nodup_range.filter _) hc)
  obtain ⟨hrange, hnot⟩ := List.mem_filter.mp hi
  rw [getD_operandCoordinate (List.mem_range.mp hrange), if_neg (of_decide_eq_true hnot)]

/-- The parts of a coordinate on the axes that are summed over. -/
theorem map_axes_operandCoordinate (hnodup : axes.Nodup) (hlt : ∀ i ∈ axes, i < rank)
    (hk : k.length = axes.length) (c : List Nat) :
    axes.map ((operandCoordinate rank axes c k).getD · 0) = k := by
  refine (List.map_congr_left fun i hi => ?_).trans (map_getD_idxOf hnodup hk)
  rw [getD_operandCoordinate (hlt i hi), if_pos hi]

theorem getD_extentsOf {i : Nat} (hi : i ∈ axes) :
    (extentsOf shape axes).getD (axes.idxOf i) 0 = shape.getD i 0 := by
  rw [extentsOf, List.getD_eq_getElem?_getD, List.getElem?_map,
    List.getElem?_eq_getElem (List.idxOf_lt_length_iff.mpr hi), List.getElem_idxOf]
  rfl

/-- The parts make a coordinate of the operand. -/
theorem inBox_operandCoordinate (hc : InBox (extentsOf shape (keptAxes shape.length axes)) c)
    (hk : InBox (extentsOf shape axes) k) :
    InBox shape (operandCoordinate shape.length axes c k) := by
  refine List.forall₂_iff_get.mpr ⟨?_, fun i hi hi' => ?_⟩
  · rw [operandCoordinate, List.length_map, List.length_range]
  · have hcoordinate := getD_operandCoordinate hi axes c k
    have hextent : shape.getD i 0 = shape[i] := by
      rw [List.getD_eq_getElem?_getD, List.getElem?_eq_getElem hi, Option.getD_some]
    rw [List.getD_eq_getElem?_getD, List.getElem?_eq_getElem hi', Option.getD_some] at hcoordinate
    rw [List.get_eq_getElem, List.get_eq_getElem, hcoordinate, ← hextent]
    by_cases hmem : i ∈ axes
    · rw [if_pos hmem, ← getD_extentsOf hmem]
      refine getD_lt_of_inBox hk ?_
      rw [extentsOf, List.length_map]
      exact List.idxOf_lt_length_iff.mpr hmem
    · have hkept : i ∈ keptAxes shape.length axes :=
        List.mem_filter.mpr ⟨List.mem_range.mpr hi, decide_eq_true hmem⟩
      rw [if_neg hmem, ← getD_extentsOf hkept]
      refine getD_lt_of_inBox hc ?_
      rw [extentsOf, List.length_map]
      exact List.idxOf_lt_length_iff.mpr hkept

theorem pos_oldShape (hpos : ∀ d ∈ shape, 0 < d) : ∀ d ∈ oldShape shape axes, 0 < d := by
  intro d hd
  rw [oldShape] at hd
  split at hd
  · rw [List.mem_singleton.mp hd]
    exact Nat.one_pos
  · exact pos_extentsOf hpos (fun i hi => List.mem_range.mp (List.mem_of_mem_filter hi)) d hd

/-- The axis of extent one that stands for none adds nothing to a coordinate. -/
theorem exists_keptCoordinate (hc : InBox (oldShape shape axes) c) :
    ∃ c', InBox (extentsOf shape (keptAxes shape.length axes)) c' ∧
      encode (extentsOf shape (keptAxes shape.length axes)) c' = encode (oldShape shape axes) c ∧
      ∀ k, operandCoordinate shape.length axes c' k = operandCoordinate shape.length axes c k := by
  by_cases hnone : keptAxes shape.length axes = []
  · rw [oldShape, if_pos hnone] at hc ⊢
    have hzero : c = [0] := by
      cases hc with
      | cons hlt hrest =>
          cases hrest
          rw [Nat.lt_one_iff.mp hlt]
    subst hzero
    rw [hnone]
    refine ⟨[], .nil, rfl, fun k => List.map_congr_left fun i hi => ?_⟩
    have hmem : i ∈ axes := by
      by_contra hnot
      have hkept : i ∈ keptAxes shape.length axes :=
        List.mem_filter.mpr ⟨hi, decide_eq_true hnot⟩
      rw [hnone] at hkept
      cases hkept
    rw [if_pos hmem, if_pos hmem]
  · rw [oldShape, if_neg hnone] at hc ⊢
    exact ⟨c, hc, rfl, fun _ => rfl⟩

end Coordinates

/-! ## Dense arrays -/

/-- The elements are the first cells of the buffer. -/
structure FillsBuffer (info : ShapeInfo) : Prop where
  positive : info.Positive
  lies : LiesInLength info
  cellsApart : CellsApart info

section Dense

variable {T : Type} {info : ShapeInfo} {p : List Nat}

/-- Every coordinate of a permuted array is a permuted coordinate. -/
theorem exists_permuted (hp : p.Perm (List.range info.rank)) {c' : List Nat}
    (hc' : InBox (permuteShapeBuffer info p).shape c') :
    ∃ c, InBox info.shape c ∧ p.map (c.getD · 0) = c' := by
  have hrank := rank_permuteShapeBuffer hp
  have hback : (inversePermutation p).Perm (List.range (permuteShapeBuffer info p).rank) := by
    rw [hrank]
    exact perm_inversePermutation hp
  have hbox := inBox_permuteShapeBuffer hback hc'
  rw [(permuted_twice hp).1] at hbox
  have hlength : c'.length = p.length := by
    rw [← hc'.length_eq, hp.length_eq, List.length_range]
    exact hrank
  refine ⟨_, hbox, (List.map_congr_left fun i hi => ?_).trans
    (map_getD_idxOf (hp.nodup_iff.mpr List.nodup_range) hlength)⟩
  have hi : i < p.length := by
    rw [hp.length_eq, List.length_range]
    exact List.mem_range.mp (hp.mem_iff.mp hi)
  rw [inversePermutation, List.map_map, List.getD_eq_getElem?_getD, List.getElem?_map,
    List.getElem?_range hi]
  rfl

/-- The cell of a permuted coordinate. -/
theorem dot_permuteShapeBuffer (hp : p.Perm (List.range info.rank)) {c : List Nat}
    (hc : InBox info.shape c) :
    dot (p.map (c.getD · 0)) (permuteShapeBuffer info p).stride = dot c info.stride := by
  have hcell := getOffset_permuteShapeBuffer hp hc 0
  rwa [getOffset_eq (inBox_permuteShapeBuffer hp hc) (permuteShapeBuffer info p).stride_length,
    getOffset_eq hc info.stride_length, zero_add, zero_add] at hcell

/-- A permuted array has the same cells. -/
theorem FillsBuffer.permute (h : FillsBuffer info) (hp : p.Perm (List.range info.rank)) :
    FillsBuffer (permuteShapeBuffer info p) where
  positive := by
    intro d hd
    rw [shape_permuteShapeBuffer hp] at hd
    exact pos_extentsOf h.positive (fun i hi => List.mem_range.mp (hp.mem_iff.mp hi)) d hd
  lies := by
    intro c' hc'
    obtain ⟨c, hc, rfl⟩ := exists_permuted hp hc'
    rw [dot_permuteShapeBuffer hp hc, length_permuteShapeBuffer hp]
    exact h.lies c hc
  cellsApart := by
    intro c' d' hc' hd' heq
    obtain ⟨c, hc, rfl⟩ := exists_permuted hp hc'
    obtain ⟨d, hd, rfl⟩ := exists_permuted hp hd'
    rw [dot_permuteShapeBuffer hp hc, dot_permuteShapeBuffer hp hd] at heq
    rw [h.cellsApart c d hc hd heq]

variable {m n : Nat}

/-- The cells of a row or a column lie at equal distances. -/
theorem exists_stride_of_line (hthin : m = 1 ∨ n = 1) (hshape : info.shape = [m, n]) :
    ∃ s : Int, ∀ k < info.length, elementOffset false info.axes k = k * s := by
  obtain ⟨s, t, hstride⟩ : ∃ s t, info.stride = [s, t] := by
    apply List.length_eq_two.mp
    rw [info.stride_length, hshape]
    rfl
  have hcell : ∀ k, elementOffset false info.axes k = dot (decode [m, n] k) [s, t] := by
    intro k
    rw [elementOffset_eq_dot, hshape, hstride]
    rfl
  rw [length_of_shape hshape]
  rcases hthin with rfl | rfl
  · refine ⟨t, fun k hk => ?_⟩
    rw [Nat.one_mul] at hk
    rw [hcell]
    simp [decode, Nat.mod_eq_of_lt hk, Nat.div_eq_of_lt hk]
  · refine ⟨s, fun k hk => ?_⟩
    rw [Nat.mul_one] at hk
    rw [hcell]
    simp [decode, Nat.mod_one]

/-- Two cells or more at equal distances that are the first ones of a buffer. -/
theorem stride_eq_one (h : FillsBuffer info) (hmany : info.length ≠ 1) {s : Int}
    (hcells : ∀ k < info.length, elementOffset false info.axes k = k * s) : s = 1 := by
  have hpos := h.positive.length_pos
  have hlies : ∀ k < info.length, 0 ≤ (k : Int) * s ∧ (k : Int) * s < info.length := by
    intro k hk
    rw [← hcells k hk, elementOffset_eq_dot]
    exact h.lies _ ((bijOn_coordinateOf false h.positive).mapsTo hk)
  have hone := hlies 1 (by omega)
  have hlast := hlies (info.length - 1) (by omega)
  have hne : s ≠ 0 := by
    rintro rfl
    have hsame := elementOffset_inj h.positive h.cellsApart false hpos (by omega : 1 < info.length)
      (by rw [hcells 0 hpos, hcells 1 (by omega), mul_zero, mul_zero])
    omega
  by_contra hs
  have htwo : 2 ≤ s := by
    have hnonneg := hone.1
    rw [Nat.cast_one, one_mul] at hnonneg
    omega
  have hfar : ((info.length - 1 : Nat) : Int) * 2 ≤ (info.length - 1 : Nat) * s :=
    mul_le_mul_of_nonneg_left htwo (Int.natCast_nonneg _)
  omega

/-- A dense array reshaped to a row or a column fills its buffer in order. -/
theorem buffer_of_line (run : Runtime T) {array matrix : NDArray T} {cshape : List Int}
    (h : FillsBuffer array.shapeInfo) (hews : array.shapeInfo.HonestEws)
    (hadm : Admissible array.shapeInfo.length cshape [m, n]) (hthin : m = 1 ∨ n = 1)
    (hmany : array.shapeInfo.length ≠ 1) (hmatrix : array.reshape run 'c' cshape = .ok matrix) :
    ∀ k < array.shapeInfo.length,
      matrix.buffer k = array.element (decode array.shapeInfo.shape k) := by
  have hlength : [m, n].prod = array.shapeInfo.length := hadm.prod_eq
  intro k hk
  rcases reshape_cases h.positive hadm.positive (decide ('c' = 'f')) with ⟨hyes, -⟩ | ⟨hno, -⟩
  · obtain ⟨target, htarget, hshape, -, -, hview⟩ :=
      reshape_view run h.positive (Or.inl rfl) hadm hyes
    obtain rfl : (⟨target, array.buffer⟩ : NDArray T) = matrix :=
      Except.ok.inj (htarget.symm.trans hmatrix)
    have htargetLength : target.length = array.shapeInfo.length := by
      rw [ShapeInfo.length, hshape, hlength]
    obtain ⟨s, hs⟩ := exists_stride_of_line hthin hshape
    have hcells : ∀ k < array.shapeInfo.length,
        elementOffset false array.shapeInfo.axes k = k * s := by
      intro k hk
      have hsame := hview.2 k (by rw [target.volume_axes, htargetLength]; exact hk)
      exact hsame.symm.trans (hs k (htargetLength ▸ hk))
    have hone := hcells k hk
    rw [stride_eq_one h hmany hcells, mul_one] at hone
    have helement := element_coordinateOf array h.positive false hk
    rw [hone] at helement
    exact helement.symm
  · obtain ⟨buffer, hresult, helement⟩ := reshape_copy run h.positive hews (Or.inl rfl) hadm hno
    obtain rfl := Except.ok.inj (hresult.symm.trans hmatrix)
    have hbox : InBox [m, n] (decode [m, n] k) := inBox_decode hadm.positive (hlength ▸ hk)
    rw [← helement k hk]
    refine (congrArg buffer ?_).trans (element_shapeBuffer hbox).symm
    rw [encode_decode hadm.positive (hlength ▸ hk)]

/-- The buffer of such a row or column holds its entries. -/
theorem buffer_eq_element (run : Runtime T) {array matrix : NDArray T} {cshape : List Int}
    (h : FillsBuffer array.shapeInfo) (hews : array.shapeInfo.HonestEws)
    (hadm : Admissible array.shapeInfo.length cshape [m, n]) (hthin : m = 1 ∨ n = 1)
    (hmany : array.shapeInfo.length ≠ 1) (hmatrix : array.reshape run 'c' cshape = .ok matrix) :
    ∀ k < array.shapeInfo.length, matrix.buffer k = matrix.element (decode [m, n] k) := by
  obtain ⟨result, hresult, -, -, -, helement⟩ := reshape_elements run h.positive hews hadm
  obtain rfl := Except.ok.inj (hresult.symm.trans hmatrix)
  intro k hk
  rw [buffer_of_line run h hews hadm hthin hmany hmatrix k hk, helement k hk]

end Dense

/-! ## Contractions -/

/-- The elements of an array are the sums of the products over the axes that are summed over; its
axes are in two parts. -/
structure ContractsTo {T : Type} [CommRing T] (a b c : NDArray T) (axes0 axes1 : List Nat)
    (shapeA shapeB : List Nat) : Prop where
  shape_eq : c.shapeInfo.shape = shapeA ++ shapeB
  element_eq : ∀ cA cB, InBox shapeA cA → InBox shapeB cB →
    c.element (cA ++ cB) = ∑ k ∈ Finset.range (extentsOf a.shapeInfo.shape axes0).prod,
      a.element (operandCoordinate a.shapeInfo.shape.length axes0 cA
          (decode (extentsOf a.shapeInfo.shape axes0) k)) *
        b.element (operandCoordinate b.shapeInfo.shape.length axes1 cB
          (decode (extentsOf a.shapeInfo.shape axes0) k))

section Contractions

variable {T : Type} [CommRing T] [DecidableEq T] {a b A B : NDArray T} {axes0 axes1 : List Nat}
  {K : Nat}

/-- The product of a row and a column that gets an array of its own. -/
theorem mmulHelper_row_column (run : Runtime T) (hK : K ≠ 1) (hA : A.shapeInfo.shape = [1, K])
    (hB : B.shapeInfo.shape = [K, 1]) (hrow : ∀ k < K, A.buffer k = A.element [0, k])
    (hcolumn : ∀ k < K, B.buffer k = B.element [k, 0]) :
    ∃ c, A.mmulHelper run B none 1 0 = .ok (some c) ∧ c.shapeInfo.shape = [1, 1] ∧
      c.shapeInfo.HonestEws ∧ c.element [0, 0] = productAt A B K 0 0 := by
  have hshape : (NDArray.ofMatrix (T := T) 1 1 'c').shapeInfo.shape = [1, 1] := by
    rw [NDArray.ofMatrix, shape_withEws, shape_newShapeInfo]
  refine ⟨⟨(NDArray.ofMatrix (T := T) 1 1 'c').shapeInfo, Function.update
    (NDArray.ofMatrix (T := T) 1 1 'c').buffer 0 (Blas.dot A.buffer B.buffer K)⟩, ?_, hshape,
    honestEws_withEws (Or.inl rfl) _, ?_⟩
  · unfold NDArray.mmulHelper
    rw [isVectorArray_of_shape hA, isVectorArray_of_shape hB, isMatrix_of_shape hA,
      isMatrix_of_shape hB, length_of_shape hA, length_of_shape hB]
    simp [hK]
  · have hbox : InBox [1, 1] [0, 0] := .cons Nat.one_pos (.cons Nat.one_pos .nil)
    have hcell := dot_eq_zero_of_prod hbox rfl (NDArray.ofMatrix (T := T) 1 1 'c').shapeInfo.stride
    have hread : Function.update (NDArray.ofMatrix (T := T) 1 1 'c').buffer 0
        (Blas.dot A.buffer B.buffer K) 0 = Blas.dot A.buffer B.buffer K :=
      Function.update_self _ _ _
    rw [element_eq (hshape ▸ hbox), hcell]
    refine hread.trans ?_
    rw [Blas.dot_eq_pairSum]
    refine Finset.sum_congr rfl fun k hk => ?_
    have hk := Finset.mem_range.mp hk
    rw [← hrow k hk, ← hcolumn k hk]

variable (run : Runtime T) (h : Aligned a.shapeInfo b.shapeInfo axes0 axes1)

include h

omit [CommRing T] [DecidableEq T] in
/-- The element of the first operand, from the two parts of its coordinate. -/
theorem element_left {c k : List Nat}
    (hc : InBox (extentsOf a.shapeInfo.shape (keptAxes a.shapeInfo.shape.length axes0)) c)
    (hk : InBox (extentsOf a.shapeInfo.shape axes0) k) :
    (NDArray.mk (permuteShapeBuffer a.shapeInfo
        (keptAxes a.shapeInfo.shape.length axes0 ++ axes0)) a.buffer).element (c ++ k) =
      a.element (operandCoordinate a.shapeInfo.shape.length axes0 c k) := by
  have hnodup : axes0.Nodup :=
    (List.nodup_append.mp (h.permA.nodup_iff.mpr List.nodup_range)).2.1
  have hlt : ∀ i ∈ axes0, i < a.shapeInfo.shape.length := fun i hi =>
    List.mem_range.mp (h.permA.mem_iff.mp (List.mem_append_right _ hi))
  rw [← element_permute h.permA (inBox_operandCoordinate hc hk), List.map_append,
    map_keptAxes_operandCoordinate (by rw [← hc.length_eq, extentsOf, List.length_map]) k,
    map_axes_operandCoordinate hnodup hlt (by rw [← hk.length_eq, extentsOf, List.length_map]) c]

omit [CommRing T] [DecidableEq T] in
/-- The element of the second operand. -/
theorem element_right {c k : List Nat} (hk : InBox (extentsOf b.shapeInfo.shape axes1) k)
    (hc : InBox (extentsOf b.shapeInfo.shape (keptAxes b.shapeInfo.shape.length axes1)) c) :
    (NDArray.mk (permuteShapeBuffer b.shapeInfo
        (axes1 ++ keptAxes b.shapeInfo.shape.length axes1)) b.buffer).element (k ++ c) =
      b.element (operandCoordinate b.shapeInfo.shape.length axes1 c k) := by
  have hnodup : axes1.Nodup :=
    (List.nodup_append.mp (h.permB.nodup_iff.mpr List.nodup_range)).1
  have hlt : ∀ i ∈ axes1, i < b.shapeInfo.shape.length := fun i hi =>
    List.mem_range.mp (h.permB.mem_iff.mp (List.mem_append_left _ hi))
  rw [← element_permute h.permB (inBox_operandCoordinate hc hk), List.map_append,
    map_keptAxes_operandCoordinate (by rw [← hc.length_eq, extentsOf, List.length_map]) k,
    map_axes_operandCoordinate hnodup hlt (by rw [← hk.length_eq, extentsOf, List.length_map]) c]

/-- The product of the two matrices. -/
theorem exists_product (hA : FillsBuffer a.shapeInfo) (hB : FillsBuffer b.shapeInfo)
    (hK : (extentsOf a.shapeInfo.shape axes0).prod ≠ 1)
    (hN : (extentsOf b.shapeInfo.shape (keptAxes b.shapeInfo.shape.length axes1)).prod ≠ 1 ∨
      (extentsOf a.shapeInfo.shape (keptAxes a.shapeInfo.shape.length axes0)).prod = 1)
    (hfactorA : Factor A
      (extentsOf a.shapeInfo.shape (keptAxes a.shapeInfo.shape.length axes0)).prod
      (extentsOf a.shapeInfo.shape axes0).prod)
    (hfactorB : Factor B (extentsOf a.shapeInfo.shape axes0).prod
      (extentsOf b.shapeInfo.shape (keptAxes b.shapeInfo.shape.length axes1)).prod)
    (hreshapeA : (NDArray.mk (permuteShapeBuffer a.shapeInfo
        (keptAxes a.shapeInfo.shape.length axes0 ++ axes0)) a.buffer).reshape run 'c'
      [-1, (extentsOf a.shapeInfo.shape axes0).prod] = .ok A)
    (hreshapeB : (NDArray.mk (permuteShapeBuffer b.shapeInfo
        (axes1 ++ keptAxes b.shapeInfo.shape.length axes1)) b.buffer).reshape run 'c'
      [(extentsOf a.shapeInfo.shape axes0).prod, -1] = .ok B) :
    ∃ c, A.mmulHelper run B none 1 0 = .ok (some c) ∧
      c.shapeInfo.shape =
        [(extentsOf a.shapeInfo.shape (keptAxes a.shapeInfo.shape.length axes0)).prod,
          (extentsOf b.shapeInfo.shape (keptAxes b.shapeInfo.shape.length axes1)).prod] ∧
      c.shapeInfo.HonestEws ∧
      ∀ r < (extentsOf a.shapeInfo.shape (keptAxes a.shapeInfo.shape.length axes0)).prod,
        ∀ s < (extentsOf b.shapeInfo.shape (keptAxes b.shapeInfo.shape.length axes1)).prod,
          c.element [r, s] = productAt A B (extentsOf a.shapeInfo.shape axes0).prod r s := by
  obtain ⟨K, hsummed⟩ : ∃ K, (extentsOf a.shapeInfo.shape axes0).prod = K := ⟨_, rfl⟩
  obtain ⟨M, hrows⟩ : ∃ M,
    (extentsOf a.shapeInfo.shape (keptAxes a.shapeInfo.shape.length axes0)).prod = M := ⟨_, rfl⟩
  obtain ⟨N, hcolumns⟩ : ∃ N,
    (extentsOf b.shapeInfo.shape (keptAxes b.shapeInfo.shape.length axes1)).prod = N := ⟨_, rfl⟩
  have hlengthA : (permuteShapeBuffer a.shapeInfo
      (keptAxes a.shapeInfo.shape.length axes0 ++ axes0)).length = M * K := by
    rw [ShapeInfo.length, shape_permuteShapeBuffer h.permA, List.map_append, List.prod_append,
      ← hrows, ← hsummed]
    rfl
  have hlengthB : (permuteShapeBuffer b.shapeInfo
      (axes1 ++ keptAxes b.shapeInfo.shape.length axes1)).length = K * N := by
    rw [ShapeInfo.length, shape_permuteShapeBuffer h.permB, List.map_append, List.prod_append,
      ← hcolumns, ← hsummed, h.extentsOf_eq]
    rfl
  rw [hsummed] at hK hfactorA hfactorB hreshapeA hreshapeB ⊢
  rw [hrows] at hN hfactorA ⊢
  rw [hcolumns] at hN hfactorB ⊢
  by_cases hone : N = 1
  · obtain rfl := hN.resolve_left (not_not.mpr hone)
    subst hone
    have hrow : ∀ k < K, A.buffer k = A.element [0, k] := by
      intro k hk
      have hbuffer := buffer_eq_element run (hA.permute h.permA) (honestEws_permute _ _)
        (hlengthA ▸ admissible_rows Nat.one_pos hfactorA.columns_pos) (Or.inl rfl)
        (by rwa [hlengthA, Nat.one_mul]) hreshapeA k (by rwa [hlengthA, Nat.one_mul])
      rw [hbuffer]
      simp [decode, Nat.mod_eq_of_lt hk, Nat.div_eq_of_lt hk]
    have hcolumn : ∀ k < K, B.buffer k = B.element [k, 0] := by
      intro k hk
      have hbuffer := buffer_eq_element run (hB.permute h.permB) (honestEws_permute _ _)
        (hlengthB ▸ admissible_columns hfactorB.rows_pos Nat.one_pos) (Or.inr rfl)
        (by rwa [hlengthB, Nat.mul_one]) hreshapeB k (by rwa [hlengthB, Nat.mul_one])
      rw [hbuffer]
      simp [decode, Nat.mod_one]
    obtain ⟨c, hc, hshape, hews, helement⟩ :=
      mmulHelper_row_column run hK hfactorA.shape_eq hfactorB.shape_eq hrow hcolumn
    refine ⟨c, hc, hshape, hews, fun r hr s hs => ?_⟩
    rw [Nat.lt_one_iff.mp hr, Nat.lt_one_iff.mp hs, helement]
  · exact mmulHelper_new run hK hone hfactorA hfactorB

/-- The contraction of two dense arrays over an extent above one, with several columns or a single
row. -/
theorem tensorDot_contracts (hA : FillsBuffer a.shapeInfo) (hB : FillsBuffer b.shapeInfo)
    (hK : (extentsOf a.shapeInfo.shape axes0).prod ≠ 1)
    (hN : (oldShape b.shapeInfo.shape axes1).prod ≠ 1 ∨
      (oldShape a.shapeInfo.shape axes0).prod = 1) :
    ∃ c, tensorDot run a b axes0 axes1 = .ok c ∧
      ContractsTo a b c axes0 axes1 (oldShape a.shapeInfo.shape axes0)
        (oldShape b.shapeInfo.shape axes1) := by
  obtain ⟨A, B, hrun, hreshapeA, hreshapeB, hfactorA, hfactorB, helementA, helementB⟩ :=
    tensorDot_matrices run h
  rw [prod_oldShape, prod_oldShape] at hN
  obtain ⟨product, hproduct, hshape, hews, helement⟩ := exists_product run h hA hB hK hN hfactorA
    hfactorB hreshapeA hreshapeB
  rw [← prod_oldShape, ← prod_oldShape] at hshape
  have hpos : ∀ d ∈ oldShape a.shapeInfo.shape axes0 ++ oldShape b.shapeInfo.shape axes1,
      0 < d := by
    intro d hd
    rcases List.mem_append.mp hd with hd | hd
    · exact pos_oldShape h.posA d hd
    · exact pos_oldShape h.posB d hd
  have hsummed : ∀ d ∈ extentsOf a.shapeInfo.shape axes0, 0 < d :=
    pos_extentsOf h.posA fun i hi =>
      List.mem_range.mp (h.permA.mem_iff.mp (List.mem_append_right _ hi))
  obtain ⟨c, hc, hcShape, -, hcElement⟩ := reshape_join run hshape hpos hews
  refine ⟨c, ?_, hcShape, fun cA cB hcA hcB => ?_⟩
  · rw [hrun, hproduct]
    exact hc
  · obtain ⟨cA', hcA', hencodeA, hcoordinateA⟩ := exists_keptCoordinate hcA
    obtain ⟨cB', hcB', hencodeB, hcoordinateB⟩ := exists_keptCoordinate hcB
    rw [hcElement cA cB hcA hcB, ← hencodeA, ← hencodeB, helement _ (encode_lt hcA') _
      (encode_lt hcB'), productAt]
    refine Finset.sum_congr rfl fun k hk => ?_
    have hk := Finset.mem_range.mp hk
    have hbox := inBox_decode hsummed hk
    have hentryA := helementA cA' _ hcA' hbox
    have hentryB := helementB _ cB' hbox hcB'
    rw [encode_decode hsummed hk] at hentryA hentryB
    rw [hentryA, hentryB, ← hcoordinateA, ← hcoordinateB]
    exact congrArg₂ (· * ·) (element_left h hcA' hbox)
      (element_right h (h.extentsOf_eq ▸ hbox) hcB')

end Contractions

/-! ## Calls with any axes -/

/-- The axes of a call, counted from the front. -/
def frontAxes (info : ShapeInfo) (axes : List Int) : List Nat :=
  axes.map fun i => (fromFront info.rank i).toNat

/-- Axes that may count from the back. -/
def AreAxes (info : ShapeInfo) (axes : List Int) : Prop :=
  ∀ i ∈ axes, -(info.rank : Int) ≤ i ∧ i < info.rank

instance (info : ShapeInfo) (axes : List Int) : Decidable (AreAxes info axes) :=
  inferInstanceAs (Decidable (∀ i ∈ axes, _))

/-- Two lists of different axes with matching extents. -/
structure ValidAxes (a b : ShapeInfo) (axes_0 axes_1 : List Int) : Prop where
  axesA : AreAxes a axes_0
  axesB : AreAxes b axes_1
  distinctA : (frontAxes a axes_0).Nodup
  distinctB : (frontAxes b axes_1).Nodup
  extentsOf_eq : extentsOf a.shape (frontAxes a axes_0) = extentsOf b.shape (frontAxes b axes_1)

section Calls

variable {T : Type} {info : ShapeInfo} {a b array : NDArray T} {axes axes_0 axes_1 : List Int}

theorem fromFront_of_axis {rank : Nat} {i : Int} (h : -(rank : Int) ≤ i ∧ i < rank) :
    0 ≤ fromFront rank i ∧ fromFront rank i < rank := by
  rw [fromFront]
  split <;> omega

theorem frontAxes_lt (h : AreAxes info axes) :
    ∀ i ∈ frontAxes info axes, i < info.shape.length := by
  intro i hi
  obtain ⟨j, hj, rfl⟩ := List.mem_map.mp hi
  have hbounds := fromFront_of_axis (h j hj)
  have hrank : info.rank = info.shape.length := rfl
  omega

theorem ValidAxes.aligned (h : ValidAxes a.shapeInfo b.shapeInfo axes_0 axes_1)
    (hA : a.shapeInfo.Positive) (hB : b.shapeInfo.Positive) :
    Aligned a.shapeInfo b.shapeInfo (frontAxes a.shapeInfo axes_0)
      (frontAxes b.shapeInfo axes_1) where
  posA := hA
  posB := hB
  permA := perm_keptAxes h.distinctA (frontAxes_lt h.axesA)
  permB := List.perm_append_comm.trans (perm_keptAxes h.distinctB (frontAxes_lt h.axesB))
  extentsOf_eq := h.extentsOf_eq

theorem sizeAt_eq {i : Int} (h : -(array.shapeInfo.rank : Int) ≤ i ∧ i < array.shapeInfo.rank) :
    array.sizeAt i =
      .ok (array.shapeInfo.shape.getD (fromFront array.shapeInfo.rank i).toNat 0) := by
  rw [NDArray.sizeAt, if_neg (by omega)]

/-- The loop counts the axes from the front. -/
theorem validateAxes_eq (hA : AreAxes a.shapeInfo axes_0) (hB : AreAxes b.shapeInfo axes_1)
    (h : extentsOf a.shapeInfo.shape (frontAxes a.shapeInfo axes_0) =
      extentsOf b.shapeInfo.shape (frontAxes b.shapeInfo axes_1)) :
    validateAxes a b axes_0 axes_1 = .ok (axes_0.map (fromFront a.shapeInfo.rank),
      axes_1.map (fromFront b.shapeInfo.rank)) := by
  induction axes_0 generalizing axes_1 with
  | nil =>
      cases axes_1 with
      | nil => rfl
      | cons j axes_1 => cases h
  | cons i axes_0 ih =>
      cases axes_1 with
      | nil => cases h
      | cons j axes_1 =>
          obtain ⟨hsize, hrest⟩ := List.cons.inj h
          rw [validateAxes, sizeAt_eq (hA i List.mem_cons_self),
            sizeAt_eq (hB j List.mem_cons_self)]
          have hloop := ih (fun k hk => hA k (List.mem_cons_of_mem i hk))
            (fun k hk => hB k (List.mem_cons_of_mem j hk)) hrest
          show (if _ ≠ _ then _ else _) = _
          rw [if_neg (not_not.mpr hsize), hloop]
          rfl

variable [CommRing T] [DecidableEq T]

/-- A call is one with axes that count from the front. -/
theorem tensorDotAlong_eq (run : Runtime T)
    (h : ValidAxes a.shapeInfo b.shapeInfo axes_0 axes_1) :
    tensorDotAlong run a b axes_0 axes_1 =
      tensorDot run a b (frontAxes a.shapeInfo axes_0) (frontAxes b.shapeInfo axes_1) := by
  have hfront : ∀ {array : NDArray T} {axes : List Int}, AreAxes array.shapeInfo axes →
      ∀ i ∈ axes.map (fromFront array.shapeInfo.rank), 0 ≤ i ∧ i < array.shapeInfo.rank := by
    intro array axes haxes i hi
    obtain ⟨j, hj, rfl⟩ := List.mem_map.mp hi
    exact fromFront_of_axis (haxes j hj)
  have hsizes : ∀ {array : NDArray T} {axes : List Int}, AreAxes array.shapeInfo axes →
      ∃ sizes, ((axes.map (fromFront array.shapeInfo.rank)).take array.shapeInfo.rank).mapM
        array.sizeAt = .ok sizes := by
    intro array axes haxes
    refine ⟨_, mapM_eq_ok fun i hi => sizeAt_eq ?_⟩
    have hbounds := hfront haxes i (List.mem_of_mem_take hi)
    omega
  have hnonneg : ¬ ∃ i ∈ axes_0.map (fromFront a.shapeInfo.rank) ++
      axes_1.map (fromFront b.shapeInfo.rank), i < 0 := by
    rintro ⟨i, hi, hneg⟩
    rcases List.mem_append.mp hi with hi | hi
    · exact absurd (hfront h.axesA i hi).1 (by omega)
    · exact absurd (hfront h.axesB i hi).1 (by omega)
  obtain ⟨sizesA, hsizesA⟩ := hsizes h.axesA
  obtain ⟨sizesB, hsizesB⟩ := hsizes h.axesB
  rw [tensorDotAlong, validateAxes_eq h.axesA h.axesB h.extentsOf_eq]
  show ((_ : Except Failure (List Nat)) >>= fun _ => _) = _
  rw [hsizesA]
  show ((_ : Except Failure (List Nat)) >>= fun _ => _) = _
  rw [hsizesB]
  show (if _ then _ else _) = _
  rw [if_neg hnonneg, List.map_map, List.map_map]
  rfl

/-- The number of terms of an element of the contraction. -/
def summedExtent (info : ShapeInfo) (axes : List Int) : Nat :=
  (extentsOf info.shape (frontAxes info axes)).prod

/-- The number of coordinates that an operand contributes. -/
def keptExtent (info : ShapeInfo) (axes : List Int) : Nat :=
  (oldShape info.shape (frontAxes info axes)).prod

/-- The contraction of two dense arrays over an extent above one, with several columns or a single
row.  An operand whose axes are all summed over contributes an axis of extent one. -/
theorem tensorDotAlong_contracts (run : Runtime T) (a b : NDArray T) (axes_0 axes_1 : List Int)
    (h : ValidAxes a.shapeInfo b.shapeInfo axes_0 axes_1) (hA : FillsBuffer a.shapeInfo)
    (hB : FillsBuffer b.shapeInfo) (hsummed : summedExtent a.shapeInfo axes_0 ≠ 1)
    (hkept : keptExtent b.shapeInfo axes_1 ≠ 1 ∨ keptExtent a.shapeInfo axes_0 = 1) :
    ∃ c, tensorDotAlong run a b axes_0 axes_1 = .ok c ∧
      ContractsTo a b c (frontAxes a.shapeInfo axes_0) (frontAxes b.shapeInfo axes_1)
        (oldShape a.shapeInfo.shape (frontAxes a.shapeInfo axes_0))
        (oldShape b.shapeInfo.shape (frontAxes b.shapeInfo axes_1)) := by
  rw [tensorDotAlong_eq run h]
  exact tensorDot_contracts run (h.aligned hA.positive hB.positive) hA hB hsummed hkept

end Calls

/-- A new array fills its buffer. -/
theorem fillsBuffer_newShapeInfo {order : Char} {shape : List Nat}
    (horder : order = 'c' ∨ order = 'f') (hpos : ∀ d ∈ shape, 0 < d) :
    FillsBuffer (newShapeInfo order shape) where
  positive := positive_newShapeInfo hpos order
  cellsApart := cellsApart_newShapeInfo horder hpos
  lies := liesInLength_of_consecutive (positive_newShapeInfo hpos order)
    (dense_newShapeInfo horder shape)

/-- A new array with the numbers of its cells for its elements. -/
def cellNumbers (shape : List Nat) : NDArray Int :=
  ⟨newShapeInfo 'c' shape, id⟩

theorem validAxes_cellNumbers :
    ValidAxes (cellNumbers [2, 2]).shapeInfo (cellNumbers [2, 2, 3]).shapeInfo [0, 1] [0, -2] where
  axesA := by decide
  axesB := by decide
  distinctA := by decide
  distinctB := by decide
  extentsOf_eq := by decide

/-- A matrix that is summed over as a whole. -/
theorem tensorDotAlong_contracts_cellNumbers :
    ∃ c, tensorDotAlong (oneThread fun _ => 0) (cellNumbers [2, 2]) (cellNumbers [2, 2, 3]) [0, 1]
        [0, -2] = .ok c ∧
      ContractsTo (cellNumbers [2, 2]) (cellNumbers [2, 2, 3]) c [0, 1] [0, 1] [1] [3] :=
  tensorDotAlong_contracts (oneThread fun _ => 0) (cellNumbers [2, 2]) (cellNumbers [2, 2, 3])
    [0, 1] [0, -2] validAxes_cellNumbers (fillsBuffer_newShapeInfo (Or.inl rfl) (by decide))
    (fillsBuffer_newShapeInfo (Or.inl rfl) (by decide)) (by decide) (by decide)

/-- The result has an axis of extent one for a matrix that is summed over as a whole. -/
theorem not_keptExtents_always :
    ¬ ∀ (run : Runtime Int) (a b : NDArray Int) (axes_0 axes_1 : List Int),
      ValidAxes a.shapeInfo b.shapeInfo axes_0 axes_1 → FillsBuffer a.shapeInfo →
      FillsBuffer b.shapeInfo →
      ∃ c, tensorDotAlong run a b axes_0 axes_1 = .ok c ∧
        ContractsTo a b c (frontAxes a.shapeInfo axes_0) (frontAxes b.shapeInfo axes_1)
          (extentsOf a.shapeInfo.shape
            (keptAxes a.shapeInfo.rank (frontAxes a.shapeInfo axes_0)))
          (extentsOf b.shapeInfo.shape
            (keptAxes b.shapeInfo.rank (frontAxes b.shapeInfo axes_1))) := by
  intro h
  have hA : FillsBuffer (cellNumbers [2, 2]).shapeInfo :=
    fillsBuffer_newShapeInfo (Or.inl rfl) (by decide)
  have hB : FillsBuffer (cellNumbers [2, 2, 3]).shapeInfo :=
    fillsBuffer_newShapeInfo (Or.inl rfl) (by decide)
  obtain ⟨c, hc, hcontracts⟩ := h (oneThread fun _ => 0) _ _ _ _ validAxes_cellNumbers hA hB
  obtain ⟨c', hc', hcontracts'⟩ := tensorDot_contracts (oneThread fun _ => (0 : Int))
    (validAxes_cellNumbers.aligned hA.positive hB.positive) hA hB (by decide) (by decide)
  rw [← tensorDotAlong_eq (oneThread fun _ => 0) validAxes_cellNumbers, hc] at hc'
  obtain rfl := Except.ok.inj hc'
  have hshapes := hcontracts.shape_eq.symm.trans hcontracts'.shape_eq
  exact absurd hshapes (by decide)

end Arrays
end LibND4J
