import LibND4J.Arrays.Histories
import LibND4J.Arrays.Products
import LibND4J.Loops.Reduce

/-!
# Dense matrices

A matrix that a constructor makes lies densely in C or in F order.  Such matrices can be transposed,
multiplied, copied and summed in any combination of orders.

Main results:

- Theorem `DenseMatrix.factor_transpose`: a transposed matrix is one that a product reads
  right.
- Theorem `gemmResult_of_dense`: the product of two matrices, for a result in either order.
- Theorem `assign_of_dense`: the elements of a matrix that is assigned to.
- Theorem `sumAlong_rows`: the sums of the columns of a matrix.
-/

namespace LibND4J
namespace Arrays

open Strided Shape Ops

/-! ## The routines -/

namespace NDArray

variable {T : Type}

/-- A copy of the buffer, of as many cells as the array has elements. -/
def copyBuffer (run : Runtime T) (array : NDArray T) : Int → T :=
  fun i => if 0 ≤ i ∧ i < array.shapeInfo.length then array.buffer i else run.fresh i

/-- The copy constructor from a pointer. -/
def copy (run : Runtime T) (array : NDArray T) : NDArray T :=
  ⟨array.shapeInfo, array.copyBuffer run⟩

/-- `NDArray::transpose`. -/
def transpose (run : Runtime T) (array : NDArray T) : NDArray T :=
  ⟨transposeShapeInfo array.shapeInfo, array.copyBuffer run⟩

/-- `NDArray::transposei`, of an array that owns its buffer. -/
def transposei (array : NDArray T) : NDArray T :=
  ⟨transposeShapeInfo array.shapeInfo, array.buffer⟩

end NDArray

/-- The operation `Sum`. -/
def sumAll (T : Type) [CommRing T] : Loops.ReduceOp T Unit where
  startingValue := fun _ => 0
  update := fun old opOutput _ => opOutput + old
  op := fun d1 _ => d1
  postProcess := fun reduction _ _ => reduction

/-- `reduceAlongDimension` with `Sum`. -/
def sumAlong {T : Type} [CommRing T] (run : Runtime T) (array : NDArray T)
    (dimensions : List Int) : Except Failure (NDArray T) :=
  match (sumAll T).reduceAlongDimension array.shapeInfo.length run.settings array.buffer
      array.shapeInfo () dimensions with
  | .error message => .error (.thrown message)
  | .ok none => .error .undefined
  | .ok (some sum) => .ok ⟨sum.shapeInfo, fun i => sum.buffer.getD i.toNat 0⟩

/-! ## Dense matrices -/

/-- A matrix as the constructors make it: its elements lie one after the other, in C or in F
order. -/
structure DenseMatrix (info : ShapeInfo) (m n : Nat) : Prop where
  shape_eq : info.shape = [m, n]
  rows_pos : 0 < m
  columns_pos : 0 < n
  order_eq : info.order = 'c' ∨ info.order = 'f'
  dense : Consecutive info.isFOrder info
  slot_le : info.elementWiseStride ≤ 1

section Layouts

variable {T : Type} {info : ShapeInfo} {array : NDArray T} {m n r c : Nat}

/-- What the constructor from rows and columns makes. -/
theorem denseMatrix_ofMatrix [Zero T] {order : Char} (horder : order = 'c' ∨ order = 'f')
    (hm : 0 < m) (hn : 0 < n) :
    DenseMatrix (NDArray.ofMatrix m n order : NDArray T).shapeInfo m n where
  shape_eq := shape_newShapeInfo order [m, n]
  rows_pos := hm
  columns_pos := hn
  order_eq := by
    rcases horder with rfl | rfl
    · exact Or.inl rfl
    · exact Or.inr rfl
  dense := by
    have hflag : (withEws (newShapeInfo order [m, n]) 1).isFOrder = decide (order = 'f') :=
      isFOrder_eq (order_newShapeInfo horder [m, n])
    intro k hk
    have hcell := dense_newShapeInfo horder [m, n] k hk
    rwa [← hflag] at hcell
  slot_le := le_refl 1

namespace DenseMatrix

variable (h : DenseMatrix info m n)

include h

theorem positive : info.Positive := by
  rw [ShapeInfo.Positive, h.shape_eq]
  simp [h.rows_pos, h.columns_pos]

theorem shape_ne_nil : info.shape ≠ [] := by
  rw [h.shape_eq]
  exact List.cons_ne_nil m [n]

theorem cellsApart : CellsApart info :=
  h.dense.cellsApart h.positive

theorem inBox (hr : r < m) (hc : c < n) : InBox info.shape [r, c] := by
  rw [h.shape_eq]
  exact .cons hr (.cons hc .nil)

omit h

theorem isFOrder_of_f (hf : info.order = 'f') : info.isFOrder = true := by
  rw [ShapeInfo.isFOrder, hf]
  rfl

theorem isFOrder_of_c (hc : info.order = 'c') : info.isFOrder = false := by
  rw [ShapeInfo.isFOrder, hc]
  rfl

/-- A slot of one tells how the elements lie. -/
theorem honest (h : DenseMatrix info m n) : info.HonestEws := by
  intro hslot k hk
  have hone : info.elementWiseStride = 1 := le_antisymm h.slot_le hslot
  rw [h.dense k hk, hone, mul_one]

/-- A product reads a dense matrix right. -/
theorem factor (h : DenseMatrix array.shapeInfo m n) : Factor array m n where
  shape_eq := h.shape_eq
  rows_pos := h.rows_pos
  columns_pos := h.columns_pos
  honest := h.honest
  layout := by
    rcases h.order_eq with hc | hf
    · exact Or.inl hc
    · exact Or.inr (columnsInBuffer_of_dense h.shape_eq (isFOrder_of_f hf ▸ h.dense))

/-- The cells of a dense matrix are the first ones of the buffer. -/
theorem dot_bounds (h : DenseMatrix info m n) {coord : List Nat} (hbox : InBox info.shape coord) :
    0 ≤ dot coord info.stride ∧ dot coord info.stride < info.length := by
  obtain ⟨k, hk, rfl⟩ := (bijOn_coordinateOf info.isFOrder h.positive).surjOn hbox
  rw [h.dense.dot_eq hk]
  exact ⟨Int.natCast_nonneg k, Int.ofNat_lt.mpr hk⟩

end DenseMatrix

/-- A copy of a dense matrix holds its elements. -/
theorem element_copyBuffer (run : Runtime T) (h : DenseMatrix array.shapeInfo m n) (hr : r < m)
    (hc : c < n) :
    (NDArray.mk array.shapeInfo (array.copyBuffer run)).element [r, c] = array.element [r, c] := by
  have hbox : InBox array.shapeInfo.shape [r, c] := h.inBox hr hc
  have hcopy : (NDArray.mk array.shapeInfo (array.copyBuffer run)).element [r, c] =
      array.copyBuffer run (dot [r, c] array.shapeInfo.stride) := element_eq hbox
  rw [hcopy, element_eq hbox]
  exact if_pos (h.dot_bounds hbox)

/-! ## Transposes -/

/-- Transposed shape information shows the same cells. -/
theorem element_transposeShapeInfo (hshape : info.shape = [m, n]) (buffer : Int → T) (hr : r < m)
    (hc : c < n) :
    (NDArray.mk (transposeShapeInfo info) buffer).element [c, r] =
      (NDArray.mk info buffer).element [r, c] := by
  have haxes : (transposeShapeInfo info).axes = info.axes.reverse := axes_reverseAxes info
  have hshape' : (transposeShapeInfo info).shape = [n, m] := by
    rw [← ShapeInfo.dims_axes, haxes, dims_reverse, ShapeInfo.dims_axes, hshape]
    rfl
  obtain ⟨s, t, hstride⟩ : ∃ s t, info.stride = [s, t] := by
    apply List.length_eq_two.mp
    rw [info.stride_length, hshape]
    rfl
  have hstride' : (transposeShapeInfo info).stride = [t, s] := by
    rw [← ShapeInfo.map_snd_axes, haxes, List.map_reverse, ShapeInfo.map_snd_axes, hstride]
    rfl
  have hbox : InBox info.shape [r, c] := by
    rw [hshape]
    exact .cons hr (.cons hc .nil)
  have hbox' : InBox (transposeShapeInfo info).shape [c, r] := by
    rw [hshape']
    exact .cons hc (.cons hr .nil)
  rw [element_eq hbox', element_eq hbox]
  refine congrArg buffer ?_
  rw [hstride, hstride']
  simp only [dot_cons, dot_nil_left, add_zero]
  exact add_comm _ _

/-- A row or a column lies alike in both orders. -/
theorem consecutive_of_thin (hthin : m = 1 ∨ n = 1) (hshape : info.shape = [m, n])
    (h : Consecutive false info) : Consecutive true info := by
  intro k hk
  have hbound : k < m * n := by rwa [length_of_shape hshape] at hk
  have hsame : decodeF [m, n] k = decode [m, n] k := by
    rcases hthin with rfl | rfl
    · have hk' : k < n := by rwa [Nat.one_mul] at hbound
      rw [decodeF_cons 1 [n] (by simpa using hk'), decodeF_cons n [] (by simpa using hk')]
      simp [decodeF_nil, decode, Nat.mod_one, Nat.mod_eq_of_lt hk', Nat.div_eq_of_lt hk']
    · have hk' : k < m := by rwa [Nat.mul_one] at hbound
      have hzero : k / m = 0 := Nat.div_eq_of_lt hk'
      rw [decodeF_cons m [1] (by simpa using hk'), hzero, decodeF_cons 1 [] (by simp)]
      simp [decodeF_nil, decode, Nat.mod_one, Nat.mod_eq_of_lt hk']
  have hcell := h k hk
  rw [elementOffset, ShapeInfo.dims_axes, hshape] at hcell ⊢
  simp only [if_true, Bool.false_eq_true, if_false] at hcell ⊢
  rw [hsame, hcell]

theorem order_transposeShapeInfo (info : ShapeInfo) :
    (transposeShapeInfo info).order = getOrder info.axes.reverse 1 := by
  rw [← axes_reverseAxes, reverseAxes, permuteShapeBuffer, ShapeInfo.axes_ofAxes]
  rfl

theorem length_transposed (info : ShapeInfo) : (transposeShapeInfo info).length = info.length := by
  have haxes : (transposeShapeInfo info).axes = info.axes.reverse := axes_reverseAxes info
  rw [← ShapeInfo.volume_axes, haxes, volume_reverse, ShapeInfo.volume_axes]

/-- Transposing turns the F order into the C order. -/
theorem consecutive_transposeShapeInfo (h : Consecutive true info) :
    Consecutive false (transposeShapeInfo info) := by
  intro k hk
  rw [length_transposed] at hk
  have haxes : (transposeShapeInfo info).axes = info.axes.reverse := axes_reverseAxes info
  rw [haxes, elementOffset_reverse info.axes (by rwa [info.volume_axes]), h k hk]

/-- Axes whose strides grow lie densely in F order. -/
theorem consecutive_of_contiguousFrom (h : contiguousFrom info.axes 1 = true) :
    Consecutive true info := by
  intro k hk
  have hcell := elementOffset_of_contiguousFrom h (k := k) (by rwa [info.volume_axes])
  rwa [mul_one] at hcell

namespace DenseMatrix

variable (h : DenseMatrix info m n)

include h

/-- The strides of a matrix in C order, unless it is a row or a column. -/
theorem axes_of_c (hc : info.order = 'c') (hm : m ≠ 1) (hn : n ≠ 1) :
    info.axes = [(m, (n : Int)), (n, 1)] := by
  have hdense : Consecutive false info := isFOrder_of_c hc ▸ h.dense
  obtain ⟨s, t, hstride⟩ : ∃ s t, info.stride = [s, t] := by
    apply List.length_eq_two.mp
    rw [info.stride_length, h.shape_eq]
    rfl
  have hrows := h.rows_pos
  have hcolumns := h.columns_pos
  have hs := hdense.dot_encode (h.inBox (r := 1) (c := 0) (by omega) (by omega))
  have ht := hdense.dot_encode (h.inBox (r := 0) (c := 1) (by omega) (by omega))
  rw [hstride, h.shape_eq] at hs ht
  simp [encode] at hs ht
  rw [ShapeInfo.axes, h.shape_eq, hstride, hs, ht]
  rfl

/-- The order slot of a transposed matrix tells how its elements lie. -/
theorem dense_transpose :
    Consecutive (transposeShapeInfo info).isFOrder (transposeShapeInfo info) := by
  have haxes : (transposeShapeInfo info).axes = info.axes.reverse := axes_reverseAxes info
  have horder := order_transposeShapeInfo info
  by_cases hflag : (transposeShapeInfo info).order = 'f'
  · have hfortran : contiguousFrom info.axes.reverse 1 = true := by
      by_contra hnot
      rw [(getOrder_eq_c_iff _ _).mpr hnot] at horder
      rw [horder] at hflag
      exact absurd hflag (by decide)
    rw [ShapeInfo.isFOrder, hflag]
    exact consecutive_of_contiguousFrom (haxes ▸ hfortran)
  · have hfalse : (transposeShapeInfo info).isFOrder = false := decide_eq_false hflag
    rw [hfalse]
    apply consecutive_transposeShapeInfo
    rcases h.order_eq with hc | hf
    · by_cases hthin : m = 1 ∨ n = 1
      · exact consecutive_of_thin hthin h.shape_eq (isFOrder_of_c hc ▸ h.dense)
      · rw [not_or] at hthin
        -- the strides are those of the F order, and the slot says so
        exfalso
        apply hflag
        rw [horder, h.axes_of_c hc hthin.1 hthin.2, getOrder]
        simp [contiguousFrom, hthin.2]
    · exact isFOrder_of_f hf ▸ h.dense

theorem shape_transpose : (transposeShapeInfo info).shape = [n, m] := by
  have haxes : (transposeShapeInfo info).axes = info.axes.reverse := axes_reverseAxes info
  rw [← ShapeInfo.dims_axes, haxes, dims_reverse, ShapeInfo.dims_axes, h.shape_eq]
  rfl

/-- A product reads a transposed matrix right. -/
theorem factor_transpose (buffer : Int → T) :
    Factor ⟨transposeShapeInfo info, buffer⟩ n m where
  shape_eq := h.shape_transpose
  rows_pos := h.columns_pos
  columns_pos := h.rows_pos
  honest := by
    intro _ k hk
    exact (h.dense_transpose k hk).trans (mul_one _).symm
  layout := by
    rcases h.order_eq with hc | hf
    · right
      apply columnsInBuffer_of_dense h.shape_transpose
      exact Consecutive.reverseAxes (isFOrder_of_c hc ▸ h.dense)
    · by_cases hflag : (transposeShapeInfo info).order = 'c'
      · exact Or.inl hflag
      · right
        rw [order_transposeShapeInfo, getOrder_eq_c_iff, not_not, ← axes_reverseAxes] at hflag
        exact columnsInBuffer_of_dense h.shape_transpose (consecutive_of_contiguousFrom hflag)

end DenseMatrix

end Layouts

/-! ## Copies and products -/

section Products

variable {T : Type} {array other A B C : NDArray T} {m n M K N : Nat}

/-- The elements of a matrix that is assigned to. -/
theorem assign_of_dense (run : Runtime T) (h : DenseMatrix array.shapeInfo m n)
    (hshape : other.shapeInfo.shape = [m, n]) (hother : other.shapeInfo.HonestEws) :
    ∃ result, array.assign run other = .ok result ∧ result.shapeInfo = array.shapeInfo ∧
      ∀ r < m, ∀ c < n, result.element [r, c] = other.element [r, c] := by
  obtain ⟨buffer, hassign, helement⟩ := assign_spec run (hshape.trans h.shape_eq.symm)
    h.shape_ne_nil h.positive h.honest h.slot_le hother h.cellsApart
  refine ⟨⟨array.shapeInfo, buffer⟩, hassign, rfl, fun r hr c hc => ?_⟩
  have hbox : InBox array.shapeInfo.shape [r, c] := h.inBox hr hc
  have hcell : (NDArray.mk array.shapeInfo buffer).element [r, c] =
      buffer (dot [r, c] array.shapeInfo.stride) := element_eq hbox
  rw [hcell, helement _ hbox]

/-- An element of a matrix that holds its columns. -/
theorem element_of_f {info : ShapeInfo} (h : DenseMatrix info m n) (hf : info.order = 'f')
    (buffer : Int → T) {r c : Nat} (hr : r < m) (hc : c < n) :
    (NDArray.mk info buffer).element [r, c] = buffer (Blas.linearIndexF m n r c) :=
  ((@columnsInBuffer_of_dense T ⟨info, buffer⟩ m n h.shape_eq
    (DenseMatrix.isFOrder_of_f hf ▸ h.dense)) r hr c hc).symm

/-- An element of a matrix that holds its rows. -/
theorem element_of_c {info : ShapeInfo} (h : DenseMatrix info m n) (hc : info.order = 'c')
    (buffer : Int → T) {r c : Nat} (hr : r < m) (hc' : c < n) :
    (NDArray.mk info buffer).element [r, c] = buffer (Blas.linearIndexC m n r c) :=
  ((@rowsInBuffer_of_dense T ⟨info, buffer⟩ m n h.shape_eq
    (DenseMatrix.isFOrder_of_c hc ▸ h.dense)) r hr c hc').symm

variable [CommRing T] [DecidableEq T]

/-- For a result in C order the product of a copy is assigned to it. -/
theorem gemmResult_of_c (run : Runtime T) (hC : C.shapeInfo.order ≠ 'f') {copy : NDArray T}
    (hdup : C.dup run 'f' = .ok copy) (hcopy : copy.shapeInfo.order = 'f')
    (hshape : copy.shapeInfo.shape = C.shapeInfo.shape) (alpha beta : T) :
    A.gemmResult run B C alpha beta =
      A.gemmResult run B copy alpha beta >>= fun product => C.assign run product := by
  have hrows : rows copy.shapeInfo = rows C.shapeInfo := by rw [rows, rows, hshape]
  have hcolumns : columns copy.shapeInfo = columns C.shapeInfo := by rw [columns, columns, hshape]
  unfold NDArray.gemmResult
  simp only [hC, hcopy, ne_eq, not_false_eq_true, not_true_eq_false, if_true, if_false, hdup,
    hrows, hcolumns]
  cases A.gemmFactors run B with
  | error e => rfl
  | ok factors => rfl

/-- The product of two matrices, for a result in either order. -/
theorem gemmResult_of_dense (run : Runtime T) (hA : Factor A M K) (hB : Factor B K N)
    (hC : DenseMatrix C.shapeInfo M N) :
    ∃ result, A.gemmResult run B C 1 0 = .ok result ∧ result.shapeInfo = C.shapeInfo ∧
      ∀ r < M, ∀ c < N, result.element [r, c] = productAt A B K r c := by
  by_cases hf : C.shapeInfo.order = 'f'
  · obtain ⟨buffer, hresult, hbuffer⟩ := gemmResult_spec run hA hB hC.shape_eq hf 1 0
    refine ⟨_, hresult, rfl, fun r hr c hc => ?_⟩
    rw [element_of_f hC hf buffer hr hc, hbuffer r hr c hc, one_mul, zero_mul, add_zero]
  · -- the product of the copy is copied back
    obtain ⟨buffer, hdup, -⟩ := dup_spec run (Or.inr rfl) hC.shape_ne_nil hC.positive hC.honest
    have hcopy : DenseMatrix (withEws (newShapeInfo 'f' C.shapeInfo.shape) 1) M N := by
      rw [hC.shape_eq]
      exact denseMatrix_ofMatrix (T := T) (Or.inr rfl) hC.rows_pos hC.columns_pos
    obtain ⟨product, hproduct, helement⟩ := gemmResult_spec run hA hB
      (C := ⟨withEws (newShapeInfo 'f' C.shapeInfo.shape) 1, buffer⟩) hcopy.shape_eq rfl 1 0
    obtain ⟨result, hassign, hinfo, hsame⟩ := @assign_of_dense T C
      ⟨withEws (newShapeInfo 'f' C.shapeInfo.shape) 1, product⟩ M N run hC hcopy.shape_eq
      hcopy.honest
    refine ⟨result, ?_, hinfo, fun r hr c hc => ?_⟩
    · rw [gemmResult_of_c run hf hdup rfl (shape_newShapeInfo 'f' _), hproduct]
      exact hassign
    · rw [hsame r hr c hc, element_of_f hcopy rfl product hr hc, helement r hr c hc, one_mul,
        zero_mul, add_zero]

end Products

/-! ## Sums -/

section Sums

variable {T : Type} {array : NDArray T} {m n : Nat}

def firstAxis {rank : Nat} (hrank : rank = 2) : Dimensions rank where
  toList := [0]
  ne_nil := List.cons_ne_nil 0 []
  sorted := List.pairwise_singleton _ 0
  lt_rank := by
    intro d hd
    rw [List.mem_singleton.mp hd, hrank]
    exact Nat.two_pos

theorem checkDimensions_zero {rank : Nat} (hrank : rank = 2) :
    checkDimensions rank [0] = .ok (firstAxis hrank) := by
  subst hrank
  rfl

/-- The second axis. -/
def lastAxis {rank : Nat} (hrank : rank = 2) : Dimensions rank where
  toList := [1]
  ne_nil := one_ne_nil
  sorted := pairwise_one
  lt_rank := (Loops.columnsAxis hrank).lt_rank

theorem checkDimensions_last {rank : Nat} (hrank : rank = 2) :
    checkDimensions rank [-1] = .ok (lastAxis hrank) := by
  subst hrank
  rfl

variable [CommRing T]

/-- The sum is lawful on all values. -/
theorem sumAll_lawful (elements : Set T) : (sumAll T).Lawful () elements Set.univ where
  start := fun _ _ _ => rfl
  op_mem := fun _ _ => Set.mem_univ _
  regular := fun _ _ => Folds.Regular.of_identity (Set.mem_univ _) (fun _ _ _ _ => Set.mem_univ _)
    (fun a _ b _ => add_comm b a)
    (fun a _ b _ c _ => by
      show c + (b + a) = (c + b) + a
      rw [add_assoc])
    (fun a _ => add_zero a)

theorem reduceValues_sumAll (v : Nat → T) (k : Nat) :
    (sumAll T).reduceValues () v k = ∑ j ∈ Finset.range k, v j := by
  have hfold : ∀ k, (List.range k).foldl (fun acc j => (sumAll T).accumulate () acc (v j)) 0 =
      ∑ j ∈ Finset.range k, v j := by
    intro k
    induction k with
    | zero => rfl
    | succ k ih =>
        rw [List.range_succ, List.foldl_append, ih, List.foldl_cons, List.foldl_nil,
          Finset.sum_range_succ, add_comm]
        rfl
  exact hfold k

omit [CommRing T] in
theorem inBox_matrix (hshape : array.shapeInfo.shape = [m, n]) {r c : Nat} (hr : r < m)
    (hc : c < n) : InBox array.shapeInfo.shape [r, c] := by
  rw [hshape]
  exact .cons hr (.cons hc .nil)

/-- The reductions of a matrix along an axis are a line; `coordinate k l` is the `l`-th place of the
`k`-th reduction. -/
theorem reduceAlong_of_axis {opType : Loops.ReduceOp T Unit}
    (hlaw : ∀ elements, opType.Lawful () elements Set.univ) (run : Runtime T)
    (coordinate : Nat → Nat → List Nat) (hshape : array.shapeInfo.shape = [m, n]) (hm : 0 < m)
    (hn : 0 < n) (hews : array.shapeInfo.HonestEws) {dimensions : List Int}
    {axis : Dimensions array.shapeInfo.rank} {a b : Nat} {line : List Nat}
    (haccepted : checkDimensions array.shapeInfo.rank dimensions = .ok axis)
    (hsingle : axis.toList.length = 1)
    (hline : evalReduceShapeInfo 'c' array.shapeInfo axis = updateStrides line 'c')
    (hpos : ∀ d ∈ line, 0 < d)
    (hleftOver : axis.leftOver array.shapeInfo.shape = [a])
    (hkept : axis.kept array.shapeInfo.shape = [b])
    (hcoordinate : ∀ k l, axis.coordinate [k] [l] = coordinate k l)
    (hbox : ∀ k < a, ∀ l < b, InBox array.shapeInfo.shape (coordinate k l)) :
    ∃ result, opType.reduceAlongDimension array.shapeInfo.length run.settings array.buffer
        array.shapeInfo () dimensions = .ok (some result) ∧ result.shapeInfo.shape = line ∧
      result.shapeInfo.HonestEws ∧ ∀ k < a,
        (NDArray.mk result.shapeInfo fun i => result.buffer.getD i.toNat 0).element
          (decode line k) = opType.reduceValues () (fun l => array.element (coordinate k l)) b := by
  have hrank : array.shapeInfo.rank = 2 := by rw [ShapeInfo.rank, hshape]; rfl
  have hpositive : array.shapeInfo.Positive := by
    rw [ShapeInfo.Positive, hshape]
    simp [hm, hn]
  have hreduces : Loops.ReducesElements run.settings array.shapeInfo dimensions axis :=
    (Loops.reducesElements_iff haccepted hpositive hews (by rw [hrank]; decide) run.settings).mpr
      (Or.inr ⟨fun hthree => absurd hthree (by rw [hrank]; decide), Or.inl hsingle⟩)
  obtain ⟨result, hresult, -, helement⟩ := hreduces T Unit opType () array.buffer Set.univ
    (hlaw _) array.shapeInfo.length (le_refl _)
  have hinfo := Loops.shapeInfo_of_reduceAlongDimension haccepted hresult
  rw [hline] at hinfo
  have hinner : result.shapeInfo.shape = line := by
    rw [hinfo]
    rfl
  refine ⟨result, hresult, hinner, ?_, fun k hk => ?_⟩
  · rw [hinfo]
    exact honestSlots_updateStrides line 'c' (Or.inl rfl)
  · have hvalue := helement k (by rwa [hleftOver, List.prod_singleton])
    rw [hkept, hleftOver, List.prod_singleton, Loops.Reduced.element, hinner,
      ind2subC_eq_decode hpos] at hvalue
    rw [NDArray.element, hinner]
    simp only [List.getD_eq_getElem?_getD]
    rw [hvalue, Option.getD_some]
    have hb : 0 < b := hpositive.kept axis b (by rw [hkept]; exact List.mem_singleton_self b)
    refine Loops.reduceValues_ext opType () hb fun l hl => ?_
    rw [Loops.elementAlong, hkept, show decode [a] k = [k] by simp [decode],
      show decode [b] l = [l] by simp [decode], hcoordinate, element_eq (hbox k hk l hl)]

/-- The reductions of the rows of a matrix are a column. -/
theorem reduceAlong_columns {opType : Loops.ReduceOp T Unit}
    (hlaw : ∀ elements, opType.Lawful () elements Set.univ) (run : Runtime T) (array : NDArray T)
    {dimensions : List Int}
    (hdimensions : ∀ {rank : Nat} (hrank : rank = 2),
      checkDimensions rank dimensions = .ok (lastAxis hrank))
    (hshape : array.shapeInfo.shape = [m, n]) (hm : 0 < m) (hn : 0 < n)
    (hews : array.shapeInfo.HonestEws) :
    ∃ result, opType.reduceAlongDimension array.shapeInfo.length run.settings array.buffer
        array.shapeInfo () dimensions = .ok (some result) ∧ result.shapeInfo.shape = [m, 1] ∧
      result.shapeInfo.HonestEws ∧ ∀ r < m,
        (NDArray.mk result.shapeInfo fun i => result.buffer.getD i.toNat 0).element
          (decode [m, 1] r) = opType.reduceValues () (fun c => array.element [r, c]) n := by
  have hrank : array.shapeInfo.rank = 2 := by rw [ShapeInfo.rank, hshape]; rfl
  have htoList : (lastAxis hrank).toList = [1] := rfl
  have hline : evalReduceShapeInfo 'c' array.shapeInfo (lastAxis hrank) =
      updateStrides [m, 1] 'c' := by
    simp [evalReduceShapeInfo, htoList, hrank, hshape, removeIndex, maxDimension]
  have hmerge : ∀ (r c : Nat) k, k = 2 → Selection.merge (lastAxis hrank).mem k 0 [r] [c] = [r, c] := by
    rintro r c _ rfl
    rfl
  exact reduceAlong_of_axis hlaw run (fun r c => [r, c]) hshape hm hn hews
    (hdimensions hrank) rfl hline (by simp [hm]) (by rw [hshape]; rfl)
    (by rw [hshape]; rfl) (fun r c => hmerge r c _ hrank)
    fun r hr c hc => inBox_matrix hshape hr hc

/-- The sums of the columns of a matrix are a row. -/
theorem sumAlong_rows (run : Runtime T) (hshape : array.shapeInfo.shape = [m, n]) (hm : 0 < m)
    (hn : 0 < n) (hews : array.shapeInfo.HonestEws) :
    ∃ sum, sumAlong run array [0] = .ok sum ∧ sum.shapeInfo.shape = [1, n] ∧
      sum.shapeInfo.HonestEws ∧
      ∀ c < n, sum.element [0, c] = ∑ r ∈ Finset.range m, array.element [r, c] := by
  have hrank : array.shapeInfo.rank = 2 := by rw [ShapeInfo.rank, hshape]; rfl
  have htoList : (firstAxis hrank).toList = [0] := rfl
  have hline : evalReduceShapeInfo 'c' array.shapeInfo (firstAxis hrank) =
      updateStrides [1, n] 'c' := by
    simp [evalReduceShapeInfo, htoList, hrank, hshape, removeIndex, maxDimension]
  have hmerge : ∀ (c r : Nat) k, k = 2 → Selection.merge (firstAxis hrank).mem k 0 [c] [r] = [r, c] := by
    rintro c r _ rfl
    rfl
  obtain ⟨sum, hsum, hrow, hhonest, helement⟩ := reduceAlong_of_axis sumAll_lawful run
    (fun c r => [r, c]) hshape hm hn hews (checkDimensions_zero hrank) rfl hline (by simp [hn])
    (by rw [hshape]; rfl) (by rw [hshape]; rfl) (fun c r => hmerge c r _ hrank)
    fun c hc r hr => inBox_matrix hshape hr hc
  refine ⟨_, by rw [sumAlong, hsum], hrow, hhonest, fun c hc => ?_⟩
  rw [← reduceValues_sumAll, ← helement c hc]
  simp [decode, Nat.div_eq_of_lt hc, Nat.mod_eq_of_lt hc]

/-- The sums of the rows of a matrix are a column. -/
theorem sumAlong_columns (run : Runtime T) (array : NDArray T) (hshape : array.shapeInfo.shape = [m, n]) (hm : 0 < m)
    (hn : 0 < n) (hews : array.shapeInfo.HonestEws) :
    ∃ sum, sumAlong run array [-1] = .ok sum ∧ sum.shapeInfo.shape = [m, 1] ∧
      sum.shapeInfo.HonestEws ∧ ∀ r < m, sum.element (decode [m, 1] r) =
        ∑ c ∈ Finset.range n, array.element [r, c] := by
  obtain ⟨sum, hsum, hcolumn, hhonest, helement⟩ :=
    reduceAlong_columns sumAll_lawful run array checkDimensions_last hshape hm hn hews
  refine ⟨_, by rw [sumAlong, hsum], hcolumn, hhonest, fun r hr => ?_⟩
  rw [← reduceValues_sumAll]
  exact helement r hr

end Sums

end Arrays
end LibND4J
