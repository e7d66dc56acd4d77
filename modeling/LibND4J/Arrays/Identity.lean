import LibND4J.Arrays.FlatResult
import LibND4J.Arrays.Matrices

/-!
# Identity matrices and unitary matrices

`isIdentityMatrix` leaves its inner loop at the diagonal, so that it looks at the entries on
the diagonal and below it.  `isUnitary` multiplies a matrix by a transposed copy of it and
stores the product in that copy.

Main results:

- Theorem `isIdentityMatrix_spec`: the entries that the verdict rests on.
- Theorem `gemmOnto_apply`: a product that is stored in its own second factor is zero.
- Theorem `isUnitary_spec`: the verdict on a matrix of several rows whose elements are the
  first cells of its buffer.
- Theorem `judgesRight_iff`: the verdicts are right exactly if nothing is wrong above the
  diagonal alone.
- Theorem `not_judgesRight_always`: a matrix with an entry above the diagonal.
-/

namespace LibND4J
namespace Arrays

open Strided Shape Ops

/-! ## The routines -/

/-- `const T eps`. -/
def eps {T : Type} [Field T] : T :=
  1 / 100000

section Routines

variable {T : Type} [Field T] [LinearOrder T]

def NDArray.isIdentityMatrix (array : NDArray T) : Except Failure Bool :=
  let rows := rows array.shapeInfo
  let columns := columns array.shapeInfo
  if array.shapeInfo.rank ≠ 2 ∨ rows ≠ columns then
    .error (.thrown "isIdentityMatrix method: matrix must be square and have rank = 2 !")
  else if (List.range rows).any fun i => eps < |array.element [i, i] - 1| then
    .ok false
  -- the inner loop runs while `j != i && j < columns()`
  else if (List.range rows).any fun i =>
      ((List.range columns).takeWhile (· ≠ i)).any fun j => eps < |array.element [i, j]| then
    .ok false
  else .ok true

/-- `GEMM::op` without transpositions, where the second factor is the memory of the product;
`newA` is the array that the first factor is brought in row-major order in. -/
def gemmOnto (M N K : Nat) (alpha : T) (A : Int → T) (beta : T) (C newA : Int → T) : Int → T :=
  let aT := Blas.transpose .colMajor .rowMajor M K A newA
  let C := if beta = 0 then
      Stores.storeAll (fun r : Nat => (r : Int)) (fun _ _ => 0) (List.range (M * N)) C
    else C
  Stores.storeAll (fun p : Nat × Nat => (Blas.linearIndexF M N p.1 p.2 : Int))
    (fun p C =>
      let dotted := if alpha ≠ 0 then
          Blas.dot (fun i => aT (Blas.linearIndexC M K p.1 0 + i))
            (fun i => C (Blas.linearIndexF K N 0 p.2 + i)) K * alpha
        else 0
      if beta ≠ 0 then dotted + beta * C (Blas.linearIndexF M N p.1 p.2) else dotted)
    (Blas.positions M N) C

/-- `mmulHelper` of two square matrices, where the product goes to the second one. -/
def NDArray.mmulHelperOnto (run : Runtime T) (A B : NDArray T) (alpha beta : T) :
    Except Failure (NDArray T) :=
  if isMatrix A.shapeInfo && isMatrix B.shapeInfo && B.shapeInfo.order = 'f' &&
      (A.shapeInfo.order = 'c' || A.shapeInfo.order = 'f') then do
    -- neither `pB` nor `pC` is a copy
    let pA ← if A.shapeInfo.order = 'c' then A.dup run 'f' else .ok A
    return ⟨B.shapeInfo, gemmOnto (rows B.shapeInfo) (columns B.shapeInfo) (columns A.shapeInfo)
      alpha pA.buffer beta B.buffer run.fresh⟩
  else
    (A.mmulHelper run B (some B) alpha beta).map fun result => result.getD B

def NDArray.isUnitary (run : Runtime T) (array : NDArray T) : Except Failure Bool :=
  if array.shapeInfo.rank ≠ 2 ∨ rows array.shapeInfo ≠ columns array.shapeInfo then
    .error (.thrown "isUnitary method: matrix must be square and have rank = 2 !")
  else
    let tr := (array.transpose run).copy run
    -- the copies hold as many cells as there are elements, and the product reads the elements
    if LiesInLength array.shapeInfo then do
      let product ← array.mmulHelperOnto run tr 1 0
      product.isIdentityMatrix
    else .error .undefined

end Routines

/-! ## Identity matrices -/

section Verdicts

variable {T : Type} [Field T] [LinearOrder T] {array : NDArray T} {n : Nat}

/-- The entries on the diagonal are nearly one. -/
def DiagonalNear (entry : Nat → Nat → T) (n : Nat) : Prop :=
  ∀ i < n, |entry i i - 1| ≤ eps

/-- The entries below the diagonal are nearly zero. -/
def LowerNear (entry : Nat → Nat → T) (n : Nat) : Prop :=
  ∀ i < n, ∀ j < i, |entry i j| ≤ eps

/-- The entries above the diagonal are nearly zero. -/
def UpperNear (entry : Nat → Nat → T) (n : Nat) : Prop :=
  ∀ i < n, ∀ j < i, |entry j i| ≤ eps

/-- Every entry is near that of the identity. -/
structure NearIdentity (entry : Nat → Nat → T) (n : Nat) : Prop where
  diagonal : ∀ i < n, |entry i i - 1| ≤ eps
  others : ∀ i < n, ∀ j < n, i ≠ j → |entry i j| ≤ eps

theorem nearIdentity_iff {entry : Nat → Nat → T} :
    NearIdentity entry n ↔
      DiagonalNear entry n ∧ LowerNear entry n ∧ UpperNear entry n := by
  constructor
  · intro h
    refine ⟨h.diagonal, fun i hi j hj => ?_, fun i hi j hj => ?_⟩
    · exact h.others i hi j (hj.trans hi) (Nat.ne_of_gt hj)
    · exact h.others j (hj.trans hi) i hi (Nat.ne_of_lt hj)
  · intro ⟨hdiagonal, hlower, hupper⟩
    refine ⟨hdiagonal, fun i hi j hj hne => ?_⟩
    rcases Nat.lt_or_gt_of_ne hne with hlt | hgt
    · exact hupper j hj i hlt
    · exact hlower i hi j hgt

/-- The inner loop stops at the diagonal. -/
theorem takeWhile_range {i : Nat} (hi : i < n) :
    (List.range n).takeWhile (· ≠ i) = List.range i := by
  obtain ⟨k, rfl⟩ : ∃ k, n = i + (k + 1) := ⟨n - i - 1, by omega⟩
  rw [List.range_add, List.takeWhile_append_of_pos, List.range_succ_eq_map, List.map_cons,
    List.takeWhile_cons_of_neg, List.append_nil]
  · simp
  · intro j hj
    have hlt := List.mem_range.mp hj
    simp only [decide_eq_true_eq]
    omega

/-- The verdict rests on the diagonal and on what is below it. -/
theorem isIdentityMatrix_spec (hshape : array.shapeInfo.shape = [n, n]) :
    ∃ b, array.isIdentityMatrix = .ok b ∧
      (b = true ↔ DiagonalNear (fun i j => array.element [i, j]) n ∧
        LowerNear (fun i j => array.element [i, j]) n) := by
  have hrank : array.shapeInfo.rank = 2 := by rw [ShapeInfo.rank, hshape]; rfl
  have hrows : rows array.shapeInfo = n := by rw [rows, hshape]; rfl
  have hcolumns : columns array.shapeInfo = n := by rw [columns, hshape]; rfl
  have hdiagonal : ((List.range n).any fun i => eps < |array.element [i, i] - 1|) = true ↔
      ¬ DiagonalNear (fun i j => array.element [i, j]) n := by
    simp [DiagonalNear]
  have hlower : ((List.range n).any fun i => ((List.range n).takeWhile (· ≠ i)).any fun j =>
      eps < |array.element [i, j]|) = true ↔
      ¬ LowerNear (fun i j => array.element [i, j]) n := by
    rw [List.any_eq_true, LowerNear]
    push Not
    refine exists_congr fun i => ?_
    rw [List.mem_range]
    refine and_congr_right fun hi => ?_
    rw [takeWhile_range hi]
    simp
  unfold NDArray.isIdentityMatrix
  simp only [hrank, hrows, hcolumns, ne_eq, not_true_eq_false, or_self, if_false]
  by_cases hd : DiagonalNear (fun i j => array.element [i, j]) n
  · rw [if_neg (fun h => hdiagonal.mp h hd)]
    by_cases hl : LowerNear (fun i j => array.element [i, j]) n
    · rw [if_neg (fun h => hlower.mp h hl)]
      exact ⟨true, rfl, iff_of_true rfl ⟨hd, hl⟩⟩
    · rw [if_pos (hlower.mpr hl)]
      exact ⟨false, rfl, iff_of_false (by decide) fun h => hl h.2⟩
  · rw [if_pos (hdiagonal.mpr hd)]
    exact ⟨false, rfl, iff_of_false (by decide) fun h => hd h.1⟩

end Verdicts

/-! ## Products in place -/

section InPlace

variable {T : Type} [Field T] [LinearOrder T]

/-- Where no old value is kept, a product that is stored in its own second factor is zero. -/
theorem gemmOnto_apply (n : Nat) (alpha : T) (A C newA : Int → T) {r c : Nat} (hr : r < n)
    (hc : c < n) : gemmOnto n n n alpha A 0 C newA (Blas.linearIndexF n n r c) = 0 := by
  have hzeroed : ∀ i < n * n, Stores.storeAll (fun r : Nat => (r : Int)) (fun _ _ => 0)
      (List.range (n * n)) C i = 0 := by
    intro i hi
    exact Stores.storeAll_of_agree ⟨i, List.mem_range.mpr hi, rfl⟩ (fun _ _ _ _ => rfl) C
  unfold gemmOnto
  simp only [if_true, ne_eq, not_true_eq_false, if_false]
  -- the memory stays zero, so that every inner product is zero
  generalize Stores.storeAll _ _ (List.range (n * n)) C = zeroed at hzeroed ⊢
  refine Stores.storeAll_keeps (P := fun memory : Int → T => ∀ i < n * n, memory (i : Nat) = 0)
    (fun p hp memory hmemory i hi => ?_) hzeroed _ (Blas.linearIndexF_lt hr hc)
  have hcolumn := (Blas.mem_positions.mp hp).2
  have hdot : ∀ x : Int → T,
      Blas.dot x (fun i => memory (Blas.linearIndexF n n 0 p.2 + i)) n = 0 := by
    intro x
    rw [Blas.dot_eq_pairSum]
    refine Finset.sum_eq_zero fun k hk => ?_
    have hcell : Blas.linearIndexF n n k p.2 < n * n :=
      Blas.linearIndexF_lt (Finset.mem_range.mp hk) hcolumn
    have hindex : ((Blas.linearIndexF n n 0 p.2 : Nat) + k : Int) =
        (Blas.linearIndexF n n k p.2 : Nat) := by
      simp [Blas.linearIndexF]
    simp only
    rw [hindex, hmemory _ hcell, mul_zero]
  by_cases heq : (i : Int) = (Blas.linearIndexF n n p.1 p.2 : Nat)
  · rw [heq, Function.update_self, hdot, zero_mul, ite_self]
  · rw [Function.update_of_ne heq, hmemory i hi]

end InPlace

/-! ## Square matrices -/

section Squares

variable {info : ShapeInfo} {n : Nat}

/-- The elements of a square matrix are the first cells of the buffer in one of two ways. -/
theorem axes_of_liesInLength (hshape : info.shape = [n, n]) (hn : 1 < n)
    (hcells : CellsApart info) (hlies : LiesInLength info) :
    info.axes = [(n, 1), (n, (n : Int))] ∨ info.axes = [(n, (n : Int)), (n, 1)] := by
  obtain ⟨s, t, hstride⟩ : ∃ s t, info.stride = [s, t] := by
    apply List.length_eq_two.mp
    rw [info.stride_length, hshape]
    rfl
  have hbox : ∀ {r c : Nat}, r < n → c < n → InBox info.shape [r, c] := by
    intro r c hr hc
    rw [hshape]
    exact .cons hr (.cons hc .nil)
  have hdot : ∀ r c : Nat, dot [r, c] info.stride = r * s + c * t := by
    intro r c
    rw [hstride]
    simp [dot_cons]
  have hcell : ∀ {r c : Nat}, r < n → c < n → 0 ≤ r * s + c * t ∧ r * s + c * t < n * n := by
    intro r c hr hc
    have h := hlies _ (hbox hr hc)
    rw [hdot, length_of_shape hshape] at h
    exact_mod_cast h
  have happart : ∀ r c r' c' : Nat, r < n → c < n → r' < n → c' < n →
      r * s + c * t = r' * s + c' * t → r = r' ∧ c = c' := by
    intro r c r' c' hr hc hr' hc' h
    have heq := hcells _ _ (hbox hr hc) (hbox hr' hc') (by rw [hdot, hdot, h])
    simpa using heq
  -- neither stride is zero, and together they reach at most the last cell
  have hs : 0 < s := by
    have hcellOne := (hcell (r := 1) (c := 0) hn (by omega)).1
    have hne : s ≠ 0 := by
      rintro rfl
      have heq := happart 1 0 0 0 hn (by omega) (by omega) (by omega)
        (by simp)
      exact absurd heq.1 (by decide)
    omega
  have ht : 0 < t := by
    have hcellOne := (hcell (r := 0) (c := 1) (by omega) hn).1
    have hne : t ≠ 0 := by
      rintro rfl
      have heq := happart 0 1 0 0 (by omega) hn (by omega) (by omega)
        (by simp)
      exact absurd heq.2 (by decide)
    omega
  have hsum : s + t ≤ n + 1 := by
    have hlast := (hcell (r := n - 1) (c := n - 1) (by omega) (by omega)).2
    have hpred : ((n - 1 : Nat) : Int) = n - 1 := by omega
    rw [hpred] at hlast
    have hn' : (2 : Int) ≤ n := by exact_mod_cast hn
    nlinarith
  have haxes : info.axes = [(n, s), (n, t)] := by
    rw [ShapeInfo.axes, hshape, hstride]
    rfl
  obtain ⟨a, rfl⟩ := Int.eq_ofNat_of_zero_le hs.le
  obtain ⟨b, rfl⟩ := Int.eq_ofNat_of_zero_le ht.le
  have ha : 0 < a := by exact_mod_cast hs
  have hb : 0 < b := by exact_mod_cast ht
  have hab : a + b ≤ n + 1 := by exact_mod_cast hsum
  rw [haxes]
  by_cases hone : a = 1
  · -- the first row would meet the first column
    left
    by_cases hlt : b < n
    · have heq := happart b 0 0 1 hlt (by omega) (by omega) hn
        (by simp [hone])
      omega
    · have hbn : b = n := by omega
      rw [hone, hbn]
      rfl
  · right
    by_cases hone' : b = 1
    · by_cases hlt : a < n
      · have heq := happart 0 a 1 0 (by omega) hlt hn (by omega)
          (by simp [hone'])
        omega
      · have han : a = n := by omega
        rw [hone', han]
        rfl
    · have heq := happart b 0 0 a (by omega) (by omega) (by omega)
        (by omega) (by simp [mul_comm])
      omega

end Squares

/-! ## Unitary matrices -/

section Unitary

variable {T : Type} {array : NDArray T} {n : Nat}

variable (run : Runtime T)

/-- The transposed copy holds the elements that lie in the first cells. -/
theorem element_transposedCopy (hshape : array.shapeInfo.shape = [n, n])
    (hlies : LiesInLength array.shapeInfo) {r c : Nat} (hr : r < n) (hc : c < n) :
    ((array.transpose run).copy run).element [c, r] = array.element [r, c] := by
  have hbox : InBox array.shapeInfo.shape [r, c] := by
    rw [hshape]
    exact .cons hr (.cons hc .nil)
  have hcell := hlies _ hbox
  have htransposed : ((array.transpose run).copy run).element [c, r] =
      (NDArray.mk array.shapeInfo ((array.transpose run).copyBuffer run)).element [r, c] :=
    element_transposeShapeInfo hshape _ hr hc
  have hread : (NDArray.mk array.shapeInfo ((array.transpose run).copyBuffer run)).element [r, c] =
      (array.transpose run).copyBuffer run (dot [r, c] array.shapeInfo.stride) := element_eq hbox
  rw [htransposed, hread, element_eq hbox]
  have hlength : (array.transpose run).shapeInfo.length = array.shapeInfo.length :=
    length_transposed array.shapeInfo
  rw [NDArray.copyBuffer, hlength, if_pos hcell]
  exact if_pos hcell

theorem shape_transposed {info : ShapeInfo} (hshape : info.shape = [n, n]) :
    (transposeShapeInfo info).shape = [n, n] := by
  have haxes : (transposeShapeInfo info).axes = info.axes.reverse := axes_reverseAxes info
  rw [← ShapeInfo.dims_axes, haxes, dims_reverse, ShapeInfo.dims_axes, hshape]
  rfl

variable [Field T] [LinearOrder T]

/-- The product of a matrix with its transpose. -/
def NDArray.gram (array : NDArray T) (n r c : Nat) : T :=
  ∑ k ∈ Finset.range n, array.element [r, k] * array.element [c, k]

omit [LinearOrder T] in
theorem gram_comm (array : NDArray T) (n r c : Nat) : array.gram n r c = array.gram n c r :=
  Finset.sum_congr rfl fun _ _ => mul_comm _ _

/-- What a square matrix is asked before its product is formed. -/
theorem isUnitary_of_shape (hshape : array.shapeInfo.shape = [n, n]) :
    array.isUnitary run =
      if LiesInLength array.shapeInfo then
        array.mmulHelperOnto run ((array.transpose run).copy run) 1 0 >>= NDArray.isIdentityMatrix
      else .error .undefined := by
  have hrank : array.shapeInfo.rank = 2 := by rw [ShapeInfo.rank, hshape]; rfl
  have hrows : rows array.shapeInfo = n := by rw [rows, hshape]; rfl
  have hcolumns : columns array.shapeInfo = n := by rw [columns, hshape]; rfl
  unfold NDArray.isUnitary
  rw [hrank, hrows, hcolumns, if_neg (by simp)]

/-- One element is not multiplied. -/
theorem isUnitary_of_one (hshape : array.shapeInfo.shape = [1, 1]) :
    ∃ b, array.isUnitary run = .ok b ∧ (b = true ↔ |array.element [0, 0] - 1| ≤ eps) := by
  have hlies : LiesInLength array.shapeInfo := by
    apply @liesInLength_of_consecutive _ false
    · rw [ShapeInfo.Positive, hshape]
      simp
    · intro k hk
      rw [length_of_shape hshape] at hk
      obtain rfl : k = 0 := by omega
      exact elementOffset_zero (by rw [length_of_shape hshape]; decide) false
  have hshape' : ((array.transpose run).copy run).shapeInfo.shape = [1, 1] :=
    shape_transposed hshape
  have hproduct : array.mmulHelperOnto run ((array.transpose run).copy run) 1 0 =
      .ok ((array.transpose run).copy run) := by
    unfold NDArray.mmulHelperOnto NDArray.mmulHelper
    rw [isMatrix_of_shape hshape, isVectorArray_of_shape hshape]
    rfl
  obtain ⟨b, hverdict, hb⟩ := isIdentityMatrix_spec hshape'
  refine ⟨b, ?_, hb.trans ?_⟩
  · rw [isUnitary_of_shape run hshape, if_pos hlies, hproduct]
    exact hverdict
  · have helement := element_transposedCopy run hshape hlies Nat.one_pos Nat.one_pos
    simp [DiagonalNear, LowerNear, helement]

/-- A matrix that holds its rows is multiplied by zeros. -/
theorem isUnitary_of_rows [IsStrictOrderedRing T] (hshape : array.shapeInfo.shape = [n, n])
    (haxes : array.shapeInfo.axes = [(n, (n : Int)), (n, 1)]) (hn : 1 < n)
    (horder : array.shapeInfo.order = 'c' ∨ array.shapeInfo.order = 'f')
    (hews : array.shapeInfo.HonestEws) (hlies : LiesInLength array.shapeInfo) :
    array.isUnitary run = .ok false := by
  have hone : n ≠ 1 := Nat.ne_of_gt hn
  have hpos : array.shapeInfo.Positive := by
    rw [ShapeInfo.Positive, hshape]
    simp
    omega
  set tr := (array.transpose run).copy run with htr
  have hshape' : tr.shapeInfo.shape = [n, n] := shape_transposed hshape
  have hfortran : contiguousFrom array.shapeInfo.axes.reverse 1 = true := by
    rw [haxes]
    simp [contiguousFrom]
  have horder' : tr.shapeInfo.order = 'f' := by
    have hflag : tr.shapeInfo.order = getOrder array.shapeInfo.axes.reverse 1 :=
      order_transposeShapeInfo array.shapeInfo
    rw [hflag, getOrder, hfortran, List.reverse_reverse, haxes]
    simp [contiguousFrom, hone]
  have hdense' : Consecutive true tr.shapeInfo := by
    apply consecutive_of_contiguousFrom
    have haxes' : tr.shapeInfo.axes = array.shapeInfo.axes.reverse :=
      axes_reverseAxes array.shapeInfo
    rw [haxes', hfortran]
  obtain ⟨pA, hproduct⟩ : ∃ pA, array.mmulHelperOnto run tr 1 0 =
      .ok ⟨tr.shapeInfo, gemmOnto n n n 1 pA 0 tr.buffer run.fresh⟩ := by
    unfold NDArray.mmulHelperOnto
    rw [isMatrix_of_shape hshape, isMatrix_of_shape hshape', horder', rows, columns, columns,
      hshape', hshape]
    rcases horder with hc | hf
    · obtain ⟨buffer, hdup, -⟩ := dup_spec run (Or.inr rfl)
        (by rw [hshape]; exact List.cons_ne_nil n [n]) hpos hews
      refine ⟨buffer, ?_⟩
      simp [hone, hc, hdup]
    · refine ⟨array.buffer, ?_⟩
      simp [hone, hf]
  obtain ⟨b, hverdict, hb⟩ := @isIdentityMatrix_spec T _ _
    ⟨tr.shapeInfo, gemmOnto n n n 1 pA 0 tr.buffer run.fresh⟩ n hshape'
  -- the first entry on the diagonal is already wrong
  have hzero : (NDArray.mk tr.shapeInfo (gemmOnto n n n 1 pA 0 tr.buffer run.fresh)).element
      [0, 0] = 0 := by
    have hcolumns := @columnsInBuffer_of_dense T
      ⟨tr.shapeInfo, gemmOnto n n n 1 pA 0 tr.buffer run.fresh⟩ n n hshape' hdense' 0 (by omega) 0
      (by omega)
    rw [← hcolumns]
    exact gemmOnto_apply n 1 pA tr.buffer run.fresh (by omega) (by omega)
  have hfalse : b = false := by
    by_contra htrue
    have hnear := (hb.mp (Bool.eq_true_of_not_eq_false htrue)).1 0 (by omega)
    simp only [hzero, zero_sub, abs_neg, abs_one, eps] at hnear
    norm_num at hnear
  rw [isUnitary_of_shape run hshape, if_pos hlies, ← htr, hproduct, ← hfalse]
  exact hverdict

/-- A matrix that holds its columns is multiplied by its transpose. -/
theorem isUnitary_of_columns (hshape : array.shapeInfo.shape = [n, n])
    (haxes : array.shapeInfo.axes = [(n, 1), (n, (n : Int))]) (hn : 1 < n)
    (hews : array.shapeInfo.HonestEws) (hlies : LiesInLength array.shapeInfo) :
    ∃ b, array.isUnitary run = .ok b ∧ (b = true ↔ NearIdentity (array.gram n) n) := by
  have hone : n ≠ 1 := Nat.ne_of_gt hn
  set tr := (array.transpose run).copy run with htr
  have hshape' : tr.shapeInfo.shape = [n, n] := shape_transposed hshape
  have hdense : Consecutive true array.shapeInfo := by
    apply consecutive_of_contiguousFrom
    rw [haxes]
    simp [contiguousFrom]
  have horder' : tr.shapeInfo.order = 'c' := by
    have hflag : tr.shapeInfo.order = getOrder array.shapeInfo.axes.reverse 1 :=
      order_transposeShapeInfo array.shapeInfo
    rw [hflag, getOrder_eq_c_iff, haxes]
    simp [contiguousFrom, hone]
  have hmatrix : DenseMatrix tr.shapeInfo n n :=
    { shape_eq := hshape'
      rows_pos := by omega
      columns_pos := by omega
      order_eq := Or.inl horder'
      dense := by
        rw [DenseMatrix.isFOrder_of_c horder']
        exact consecutive_transposeShapeInfo hdense
      slot_le := le_refl 1 }
  have hfactor : Factor array n n :=
    { shape_eq := hshape
      rows_pos := by omega
      columns_pos := by omega
      honest := hews
      layout := Or.inr (columnsInBuffer_of_dense hshape hdense) }
  obtain ⟨product, hresult, hinfo, helement⟩ :=
    gemmResult_of_dense run hfactor hmatrix.factor hmatrix
  have hproduct : array.mmulHelperOnto run tr 1 0 = .ok product := by
    unfold NDArray.mmulHelperOnto
    rw [mmulHelper_gemm run hone hone hshape hshape', Option.getD_some, hresult, horder']
    simp
    rfl
  obtain ⟨b, hverdict, hb⟩ := @isIdentityMatrix_spec T _ _ product n (hinfo ▸ hshape')
  have hentry : ∀ r < n, ∀ c < n, product.element [r, c] = array.gram n r c := by
    intro r hr c hc
    rw [helement r hr c hc]
    refine Finset.sum_congr rfl fun k hk => ?_
    rw [htr, element_transposedCopy run hshape hlies hc (Finset.mem_range.mp hk)]
  refine ⟨b, ?_, hb.trans ?_⟩
  · rw [isUnitary_of_shape run hshape, if_pos hlies, ← htr, hproduct]
    exact hverdict
  · rw [nearIdentity_iff]
    have hdiagonal : DiagonalNear (fun i j => product.element [i, j]) n ↔
        DiagonalNear (array.gram n) n :=
      forall₂_congr fun i hi => by simp only [hentry i hi i hi]
    have hlower : LowerNear (fun i j => product.element [i, j]) n ↔
        LowerNear (array.gram n) n :=
      forall₂_congr fun i hi => forall₂_congr fun j hj => by
        simp only [hentry i hi j (hj.trans hi)]
    -- the product is symmetric, so that its lower half speaks for the upper one
    have hupper : UpperNear (array.gram n) n ↔ LowerNear (array.gram n) n :=
      forall₂_congr fun i _ => forall₂_congr fun j _ => by rw [gram_comm]
    rw [hdiagonal, hlower, hupper, and_self]

end Unitary

/-! ## Right verdicts -/

section Right

variable {T : Type} [Field T] [LinearOrder T] {array : NDArray T} {n : Nat}

/-- Both verdicts are right. -/
structure JudgesRight (run : Runtime T) (array : NDArray T) (n : Nat) : Prop where
  identity : ∃ b, array.isIdentityMatrix = .ok b ∧
    (b = true ↔ NearIdentity (fun i j => array.element [i, j]) n)
  unitary : ∃ b, array.isUnitary run = .ok b ∧ (b = true → NearIdentity (array.gram n) n)

/-- What is looked at decides: nothing is wrong above the diagonal alone, the copy holds the
elements, and the square of a single entry is as near to one as the entry. -/
structure LowerDecides (array : NDArray T) (n : Nat) : Prop where
  upper : DiagonalNear (fun i j => array.element [i, j]) n →
    LowerNear (fun i j => array.element [i, j]) n → UpperNear (fun i j => array.element [i, j]) n
  lies : LiesInLength array.shapeInfo
  single : n = 1 → |array.element [0, 0] - 1| ≤ eps →
    |array.element [0, 0] * array.element [0, 0] - 1| ≤ eps

theorem identity_right_iff (hshape : array.shapeInfo.shape = [n, n]) :
    (∃ b, array.isIdentityMatrix = .ok b ∧
        (b = true ↔ NearIdentity (fun i j => array.element [i, j]) n)) ↔
      (DiagonalNear (fun i j => array.element [i, j]) n →
        LowerNear (fun i j => array.element [i, j]) n →
        UpperNear (fun i j => array.element [i, j]) n) := by
  obtain ⟨b, hverdict, hb⟩ := isIdentityMatrix_spec hshape
  constructor
  · intro ⟨b', hverdict', hb'⟩ hdiagonal hlower
    have hsame : b' = b := Except.ok.inj (hverdict'.symm.trans hverdict)
    have hnear := hb'.mp (hsame ▸ hb.mpr ⟨hdiagonal, hlower⟩)
    exact (nearIdentity_iff.mp hnear).2.2
  · intro h
    refine ⟨b, hverdict, hb.trans ?_⟩
    rw [nearIdentity_iff]
    exact ⟨fun ⟨hd, hl⟩ => ⟨hd, hl, h hd hl⟩, fun ⟨hd, hl, _⟩ => ⟨hd, hl⟩⟩

/-- For more than one element the verdict rests on the product, if it rests on anything. -/
theorem isUnitary_spec [IsStrictOrderedRing T] (run : Runtime T)
    (hshape : array.shapeInfo.shape = [n, n]) (hn : 1 < n)
    (horder : array.shapeInfo.order = 'c' ∨ array.shapeInfo.order = 'f')
    (hews : array.shapeInfo.HonestEws) (hcells : CellsApart array.shapeInfo)
    (hlies : LiesInLength array.shapeInfo) :
    ∃ b, array.isUnitary run = .ok b ∧ (b = true → NearIdentity (array.gram n) n) := by
  rcases axes_of_liesInLength hshape hn hcells hlies with hcolumns | hrows
  · obtain ⟨b, hverdict, hb⟩ :=
      isUnitary_of_columns run hshape hcolumns hn hews hlies
    exact ⟨b, hverdict, hb.mp⟩
  · exact ⟨false, isUnitary_of_rows run hshape hrows hn horder hews hlies, fun h => by cases h⟩

theorem gram_one (array : NDArray T) :
    NearIdentity (array.gram 1) 1 ↔
      |array.element [0, 0] * array.element [0, 0] - 1| ≤ eps := by
  rw [nearIdentity_iff]
  simp [DiagonalNear, LowerNear, UpperNear, NDArray.gram]

/-- The verdicts on a square matrix are right exactly if what is looked at decides. -/
theorem judgesRight_iff [IsStrictOrderedRing T] (run : Runtime T)
    (hshape : array.shapeInfo.shape = [n, n]) (hn : 0 < n)
    (horder : n ≠ 1 → array.shapeInfo.order = 'c' ∨ array.shapeInfo.order = 'f')
    (hews : array.shapeInfo.HonestEws) (hcells : CellsApart array.shapeInfo) :
    JudgesRight run array n ↔ LowerDecides array n := by
  have hidentity := identity_right_iff hshape
  constructor
  · intro h
    obtain ⟨b, hverdict, hb⟩ := h.unitary
    refine ⟨hidentity.mp h.identity, ?_, fun hone hnear => ?_⟩
    · by_contra hnot
      rw [isUnitary_of_shape run hshape, if_neg hnot] at hverdict
      cases hverdict
    · subst hone
      obtain ⟨b', hverdict', hb'⟩ := isUnitary_of_one run hshape
      have hsame : b = b' := Except.ok.inj (hverdict.symm.trans hverdict')
      exact (gram_one array).mp (hb (hsame ▸ hb'.mpr hnear))
  · intro h
    refine ⟨hidentity.mpr h.upper, ?_⟩
    by_cases hone : n = 1
    · subst hone
      obtain ⟨b, hverdict, hb⟩ := isUnitary_of_one run hshape
      exact ⟨b, hverdict, fun htrue => (gram_one array).mpr (h.single rfl (hb.mp htrue))⟩
    · exact isUnitary_spec run hshape (by omega) (horder hone) hews hcells h.lies

/-- A matrix of two rows with the given entries, column after column. -/
def ofColumns (entries : List Rat) : NDArray Rat :=
  ⟨(NDArray.ofMatrix 2 2 'f' : NDArray Rat).shapeInfo, fun i => entries.getD i.toNat 0⟩

theorem denseMatrix_ofColumns (entries : List Rat) :
    DenseMatrix (ofColumns entries).shapeInfo 2 2 :=
  denseMatrix_ofMatrix (T := Rat) (Or.inr rfl) Nat.two_pos Nat.two_pos

theorem judgesRight_iff_identity :
    JudgesRight (oneThread fun _ => 0) (ofColumns [1, 0, 0, 1]) 2 ↔
      LowerDecides (ofColumns [1, 0, 0, 1]) 2 :=
  judgesRight_iff _ (denseMatrix_ofColumns _).shape_eq Nat.two_pos (fun _ => Or.inr rfl)
    (denseMatrix_ofColumns _).honest (denseMatrix_ofColumns _).cellsApart

/-- A matrix with an entry above the diagonal passes for the identity. -/
theorem not_judgesRight_always :
    ¬ ∀ (run : Runtime Rat) (array : NDArray Rat) (n : Nat), array.shapeInfo.shape = [n, n] →
      0 < n → (n ≠ 1 → array.shapeInfo.order = 'c' ∨ array.shapeInfo.order = 'f') →
      array.shapeInfo.HonestEws → CellsApart array.shapeInfo → JudgesRight run array n := by
  intro h
  have hmatrix := denseMatrix_ofColumns [1, 0, 5, 1]
  have hright := h (oneThread fun _ => 0) (ofColumns [1, 0, 5, 1]) 2 hmatrix.shape_eq
    Nat.two_pos (fun _ => Or.inr rfl) hmatrix.honest hmatrix.cellsApart
  have hupper := (identity_right_iff hmatrix.shape_eq).mp hright.identity
  have helement : ∀ i j, i < 2 → j < 2 →
      (ofColumns [1, 0, 5, 1]).element [i, j] = [(1 : Rat), 0, 5, 1].getD (j * 2 + i) 0 := by
    intro i j hi hj
    exact element_of_f hmatrix rfl _ hi hj
  have hdiagonal : DiagonalNear (fun i j => (ofColumns [1, 0, 5, 1]).element [i, j]) 2 := by
    intro i hi
    simp only [helement i i hi hi]
    interval_cases i <;> norm_num [eps]
  have hlower : LowerNear (fun i j => (ofColumns [1, 0, 5, 1]).element [i, j]) 2 := by
    intro i hi j hj
    obtain ⟨rfl, rfl⟩ : i = 1 ∧ j = 0 := by omega
    simp only [helement 1 0 hi (hj.trans hi)]
    norm_num [eps]
  have hentry := hupper hdiagonal hlower 1 Nat.one_lt_two 0 Nat.one_pos
  simp only [helement 0 1 Nat.two_pos Nat.one_lt_two] at hentry
  norm_num [eps] at hentry

end Right

end Arrays
end LibND4J
