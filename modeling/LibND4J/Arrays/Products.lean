import LibND4J.Arrays.Operations
import LibND4J.Ops.Matmul

/-!
# Products of arrays

`NDArrayFactory::mmulHelper` multiplies vectors and matrices.  It looks at the kinds of the
operands and, for two matrices, at the orders of all three arrays: a factor in C order is copied to
F order, one in F order is given to `GEMM::op` as it lies in its buffer.

Main results:

- Theorem `gemmFactors_spec`: the factors that `GEMM::op` gets.
- Theorem `gemmResult_spec`: the product of two matrices, for a result in F order.
- Theorem `mmulHelper_spec`: with an inner extent above one the result receives the product.
-/

namespace LibND4J
namespace Arrays

open Strided Shape Ops

namespace NDArray

variable {T : Type} [CommRing T] [DecidableEq T]

/-- The buffers `pA` and `pB`. -/
def gemmFactors (run : Runtime T) (A B : NDArray T) : Except Failure ((Int → T) × (Int → T)) := do
  let aOrder := A.shapeInfo.order
  let bOrder := B.shapeInfo.order
  if aOrder = bOrder then
    if aOrder = 'c' then
      let pA ← A.dup run 'f'
      let pB ← B.dup run 'f'
      return (pA.buffer, pB.buffer)
    else return (A.buffer, B.buffer)
  else if aOrder = 'c' then
    let pA ← A.dup run 'f'
    return (pA.buffer, B.buffer)
  else
    let pB ← B.dup run 'f'
    return (A.buffer, pB.buffer)

/-- The branch of `mmulHelper` that calls `GEMM::op`. -/
def gemmResult (run : Runtime T) (A B result : NDArray T) (alpha beta : T) :
    Except Failure (NDArray T) := do
  let cOrder := result.shapeInfo.order
  let pC ← if cOrder ≠ 'f' then result.dup run 'f' else .ok result
  let (pA, pB) ← A.gemmFactors run B
  let product := Blas.gemm .noTrans .noTrans (rows result.shapeInfo) (columns result.shapeInfo)
    (columns A.shapeInfo) alpha pA pB beta pC.buffer run.fresh run.fresh
  if cOrder ≠ 'f' then result.assign run ⟨pC.shapeInfo, product⟩
  else return ⟨pC.shapeInfo, product⟩

/-- `mmulHelper` for operands of rank two; no array is a null pointer. -/
def mmulHelper (run : Runtime T) (A B : NDArray T) (C : Option (NDArray T)) (alpha beta : T) :
    Except Failure (Option (NDArray T)) := do
  let result ←
    if isVectorArray A.shapeInfo && isVectorArray B.shapeInfo then
      if A.shapeInfo.length ≠ B.shapeInfo.length then .error (.thrown "A length != B length")
      else
        let result := C.getD (ofMatrix 1 1 'c')
        .ok (some ⟨result.shapeInfo,
          Function.update result.buffer 0 (Blas.dot A.buffer B.buffer A.shapeInfo.length)⟩)
    else .ok C
  if isMatrix A.shapeInfo && isVectorArray B.shapeInfo then
    if columns A.shapeInfo ≠ rows B.shapeInfo then .error (.thrown "A columns != B length")
    else
      -- the product goes to `C`, also where an array was made for the result
      match C with
      | none => .error .undefined
      | some C =>
          .ok (some ⟨C.shapeInfo, Blas.gemv (if A.shapeInfo.order = 'f' then .trans else .noTrans)
            (rows A.shapeInfo) (columns A.shapeInfo) alpha A.buffer (rows B.shapeInfo) B.buffer beta
            C.buffer run.fresh⟩)
  else if (isMatrix A.shapeInfo && isMatrix B.shapeInfo) ||
      (isVectorArray A.shapeInfo && isMatrix B.shapeInfo) then
    let result := result.getD (ofMatrix (rows A.shapeInfo) (columns B.shapeInfo) 'f')
    (A.gemmResult run B result alpha beta).map some
  else return result

end NDArray

/-! ## The factors -/

section Layouts

variable {T : Type} {array : NDArray T} {m n : Nat}

/-- The buffer holds the columns of a matrix one after the other. -/
def ColumnsInBuffer (array : NDArray T) (m n : Nat) : Prop :=
  ∀ r < m, ∀ c < n, array.buffer (Blas.linearIndexF m n r c) = array.element [r, c]

/-- The buffer holds the rows of a matrix one after the other. -/
def RowsInBuffer (array : NDArray T) (m n : Nat) : Prop :=
  ∀ r < m, ∀ c < n, array.buffer (Blas.linearIndexC m n r c) = array.element [r, c]

/-- A matrix that `mmulHelper` reads right: one in C order, which it copies, or one whose buffer
holds its columns. -/
structure Factor (array : NDArray T) (m n : Nat) : Prop where
  shape_eq : array.shapeInfo.shape = [m, n]
  rows_pos : 0 < m
  columns_pos : 0 < n
  honest : array.shapeInfo.HonestEws
  layout : array.shapeInfo.order = 'c' ∨ ColumnsInBuffer array m n

theorem Factor.positive (h : Factor array m n) : array.shapeInfo.Positive := by
  rw [ShapeInfo.Positive, h.shape_eq]
  simp [h.rows_pos, h.columns_pos]

/-- The coordinate of an index in F order. -/
theorem decodeF_linearIndexF {r c : Nat} (hr : r < m) (hc : c < n) :
    decodeF [m, n] (Blas.linearIndexF m n r c) = [r, c] := by
  have hm : 0 < m := Nat.zero_lt_of_lt hr
  have hk : Blas.linearIndexF m n r c < m * [n].prod := by
    rw [List.prod_singleton]
    exact Blas.linearIndexF_lt hr hc
  have hdiv : Blas.linearIndexF m n r c / m = c := by
    rw [Blas.linearIndexF, Nat.mul_comm, Nat.mul_add_div hm, Nat.div_eq_of_lt hr, Nat.add_zero]
  have hmod : Blas.linearIndexF m n r c % m = r := by
    rw [Blas.linearIndexF, Nat.mul_comm, Nat.mul_add_mod, Nat.mod_eq_of_lt hr]
  have hk' : Blas.linearIndexF m n r c / m < n * [].prod := by simpa [hdiv] using hc
  rw [decodeF_cons m [n] hk, decodeF_cons n [] hk', decodeF_nil, hmod, hdiv, Nat.mod_eq_of_lt hc]

/-- The elements of a matrix in F order. -/
theorem elementOffset_pair (m n : Nat) (s t : Int) {k : Nat} (hk : k < m * n) :
    elementOffset true [(m, s), (n, t)] k =
      ((k % m : Nat) : Int) * s + ((k / m : Nat) : Int) * t := by
  have hrest : k / m < n := Nat.div_lt_of_lt_mul hk
  rw [elementOffset_eq_ite _ _ (by simpa using hk), if_pos rfl,
    offsetAtF_cons _ _ (by simpa using hk), offsetAtF_cons _ _ (by simpa using hrest)]
  simp [offsetAtF, Nat.mod_eq_of_lt hrest]

/-- The cell of an entry of a matrix that lies densely in F order. -/
theorem dot_linearIndexF_of_dense {info : ShapeInfo} (hshape : info.shape = [m, n])
    (hdense : Consecutive true info) {r c : Nat} (hr : r < m) (hc : c < n) :
    dot [r, c] info.stride = (Blas.linearIndexF m n r c : Nat) := by
  have hcell := hdense.dot_eq (k := Blas.linearIndexF m n r c)
    (by
      rw [length_of_shape hshape]
      exact Blas.linearIndexF_lt hr hc)
  have hcoordinate : coordinateOf true [m, n] (Blas.linearIndexF m n r c) = [r, c] :=
    decodeF_linearIndexF hr hc
  rwa [hshape, hcoordinate] at hcell

/-- A matrix that lies densely in F order holds its columns. -/
theorem columnsInBuffer_of_dense (hshape : array.shapeInfo.shape = [m, n])
    (hdense : Consecutive true array.shapeInfo) : ColumnsInBuffer array m n := by
  intro r hr c hc
  have hbox : InBox [m, n] [r, c] := .cons hr (.cons hc .nil)
  rw [element_eq (hshape ▸ hbox), dot_linearIndexF_of_dense hshape hdense hr hc]

/-- A matrix that lies densely in C order holds its rows. -/
theorem rowsInBuffer_of_dense (hshape : array.shapeInfo.shape = [m, n])
    (hdense : Consecutive false array.shapeInfo) : RowsInBuffer array m n := by
  intro r hr c hc
  have hbox : InBox [m, n] [r, c] := .cons hr (.cons hc .nil)
  have hindex : Blas.linearIndexC m n r c = encode [m, n] [r, c] := by
    simp [encode, Blas.linearIndexC]
  have hcell := hdense.dot_eq (k := Blas.linearIndexC m n r c)
    (by
      rw [length_of_shape hshape, hindex]
      simpa using encode_lt hbox)
  have hcoordinate : coordinateOf false [m, n] (Blas.linearIndexC m n r c) = [r, c] := by
    rw [hindex]
    exact decode_encode hbox
  rw [hshape, hcoordinate] at hcell
  rw [element_eq (hshape ▸ hbox), hcell]

/-- A dense array in C order is viewed as a matrix that `mmulHelper` reads right. -/
theorem reshape_rows (run : Runtime T) (hpos : array.shapeInfo.Positive) {cshape : List Int}
    (hadm : Admissible array.shapeInfo.length cshape [m, n])
    (hdense : Consecutive false array.shapeInfo) :
    ∃ matrix, array.reshape run 'c' cshape = .ok matrix ∧ matrix.buffer = array.buffer ∧
      matrix.shapeInfo.order = 'c' ∧ Factor matrix m n ∧ RowsInBuffer matrix m n := by
  obtain ⟨target, htarget, hshape, horder, hews, hdense'⟩ :=
    reshape_dense run hpos (Or.inl rfl) hadm hdense
  refine ⟨⟨target, array.buffer⟩, htarget, rfl, horder, ?_, rowsInBuffer_of_dense hshape hdense'⟩
  exact
    { shape_eq := hshape
      rows_pos := hadm.positive m (by simp)
      columns_pos := hadm.positive n (by simp)
      honest := fun h => absurd h (by rw [hews]; decide)
      layout := Or.inl horder }

/-- A dense array in F order is viewed as a matrix that `mmulHelper` reads right. -/
theorem reshape_columns (run : Runtime T) (hpos : array.shapeInfo.Positive) {cshape : List Int}
    (hadm : Admissible array.shapeInfo.length cshape [m, n])
    (hdense : Consecutive true array.shapeInfo) :
    ∃ matrix, array.reshape run 'f' cshape = .ok matrix ∧ matrix.buffer = array.buffer ∧
      Factor matrix m n ∧ ColumnsInBuffer matrix m n := by
  obtain ⟨target, htarget, hshape, horder, hews, hdense'⟩ :=
    reshape_dense run hpos (Or.inr rfl) hadm hdense
  have hcolumns : ColumnsInBuffer ⟨target, array.buffer⟩ m n :=
    columnsInBuffer_of_dense hshape hdense'
  refine ⟨⟨target, array.buffer⟩, htarget, rfl, ?_, hcolumns⟩
  exact
    { shape_eq := hshape
      rows_pos := hadm.positive m (by simp)
      columns_pos := hadm.positive n (by simp)
      honest := fun h => absurd h (by rw [hews]; decide)
      layout := Or.inr hcolumns }

/-- A duplicate in F order holds the columns. -/
theorem Factor.dup (run : Runtime T) (h : Factor array m n) :
    ∃ copy, array.dup run 'f' = .ok copy ∧
      ∀ r < m, ∀ c < n, copy.buffer (Blas.linearIndexF m n r c) = array.element [r, c] := by
  obtain ⟨buffer, hdup, helement⟩ := dup_spec run (Or.inr rfl)
    (by rw [h.shape_eq]; exact List.cons_ne_nil m [n]) h.positive h.honest
  refine ⟨_, hdup, fun r hr c hc => ?_⟩
  have hk : Blas.linearIndexF m n r c < array.shapeInfo.length := by
    rw [length_of_shape h.shape_eq]
    exact Blas.linearIndexF_lt hr hc
  have hvalue := helement _ hk
  have hcoordinate : coordinateOf (decide ('f' = 'f')) [m, n] (Blas.linearIndexF m n r c) = [r, c] :=
    decodeF_linearIndexF hr hc
  rwa [h.shape_eq, hcoordinate] at hvalue

end Layouts

section Products

variable {T : Type} [CommRing T] [DecidableEq T] {A B C : NDArray T} {M K N : Nat}

variable (run : Runtime T)

omit [CommRing T] [DecidableEq T] in
/-- The factors that `GEMM::op` gets hold the columns of the operands. -/
theorem gemmFactors_spec (hA : Factor A M K) (hB : Factor B K N) :
    ∃ pA pB, A.gemmFactors run B = .ok (pA, pB) ∧
      (∀ r < M, ∀ k < K, pA (Blas.linearIndexF M K r k) = A.element [r, k]) ∧
      ∀ k < K, ∀ c < N, pB (Blas.linearIndexF K N k c) = B.element [k, c] := by
  obtain ⟨copyA, hdupA, hcopyA⟩ := hA.dup run
  obtain ⟨copyB, hdupB, hcopyB⟩ := hB.dup run
  unfold NDArray.gemmFactors
  by_cases ha : A.shapeInfo.order = 'c'
  · by_cases hb : B.shapeInfo.order = 'c'
    · refine ⟨copyA.buffer, copyB.buffer, ?_, hcopyA, hcopyB⟩
      simp only [ha, hb, if_true, hdupA, hdupB]
      rfl
    · refine ⟨copyA.buffer, B.buffer, ?_, hcopyA, hB.layout.resolve_left hb⟩
      simp only [ha, if_neg (Ne.symm hb), if_true, hdupA]
      rfl
  · have hcolumns := hA.layout.resolve_left ha
    by_cases hsame : A.shapeInfo.order = B.shapeInfo.order
    · refine ⟨A.buffer, B.buffer, ?_, hcolumns, hB.layout.resolve_left (hsame ▸ ha)⟩
      simp only [if_pos hsame, if_neg ha]
      rfl
    · refine ⟨A.buffer, copyB.buffer, ?_, hcolumns, hcopyB⟩
      simp only [if_neg hsame, if_neg ha, hdupB]
      rfl

/-- The entry of the product of two matrices. -/
def productAt (A B : NDArray T) (K r c : Nat) : T :=
  ∑ k ∈ Finset.range K, A.element [r, k] * B.element [k, c]

/-- The product of two matrices, for a result in F order. -/
theorem gemmResult_spec (hA : Factor A M K) (hB : Factor B K N)
    (hshape : C.shapeInfo.shape = [M, N]) (horder : C.shapeInfo.order = 'f') (alpha beta : T) :
    ∃ buffer, A.gemmResult run B C alpha beta = .ok ⟨C.shapeInfo, buffer⟩ ∧
      ∀ r < M, ∀ c < N, buffer (Blas.linearIndexF M N r c) =
        alpha * productAt A B K r c + beta * C.buffer (Blas.linearIndexF M N r c) := by
  obtain ⟨pA, pB, hfactors, hpA, hpB⟩ := gemmFactors_spec run hA hB
  have hrows : rows C.shapeInfo = M := by rw [rows, hshape]; rfl
  have hcolumns : columns C.shapeInfo = N := by rw [columns, hshape]; rfl
  have hinner : columns A.shapeInfo = K := by rw [columns, hA.shape_eq]; rfl
  refine ⟨Blas.gemm .noTrans .noTrans M N K alpha pA pB beta C.buffer run.fresh run.fresh, ?_,
    fun r hr c hc => ?_⟩
  · unfold NDArray.gemmResult
    simp only [horder, ne_eq, not_true_eq_false, if_false, hfactors, hrows, hcolumns, hinner]
    rfl
  · rw [Blas.gemm_apply .noTrans .noTrans K alpha pA pB beta C.buffer _ _ hr hc]
    congr 2
    refine Finset.sum_congr rfl fun k hk => ?_
    have hk := Finset.mem_range.mp hk
    rw [← hpA r hr k hk, ← hpB k hk c hc]
    rfl

/-- The branch of `mmulHelper` for two vectors, from their extents. -/
theorem mmulHelper_dot (hK : K ≠ 1) (hA : A.shapeInfo.shape = [1, K])
    (hB : B.shapeInfo.shape = [K, 1]) (alpha beta : T) :
    A.mmulHelper run B (some C) alpha beta = .ok (some ⟨C.shapeInfo,
      Function.update C.buffer 0 (Blas.dot A.buffer B.buffer K)⟩) := by
  unfold NDArray.mmulHelper
  rw [isVectorArray_of_shape hA, isVectorArray_of_shape hB, isMatrix_of_shape hA,
    isMatrix_of_shape hB, length_of_shape hA, length_of_shape hB]
  simp [hK]

/-- The branch of `mmulHelper` for a matrix and a column. -/
theorem mmulHelper_gemv (hM : M ≠ 1) (hK : K ≠ 1) (hA : A.shapeInfo.shape = [M, K])
    (hB : B.shapeInfo.shape = [K, 1]) (horder : A.shapeInfo.order ≠ 'f') (alpha beta : T) :
    A.mmulHelper run B (some C) alpha beta = .ok (some ⟨C.shapeInfo,
      Blas.gemv .noTrans M K alpha A.buffer K B.buffer beta C.buffer run.fresh⟩) := by
  unfold NDArray.mmulHelper
  rw [isVectorArray_of_shape hA, isVectorArray_of_shape hB, isMatrix_of_shape hA]
  simp [hM, hK, rows, columns, hA, hB, horder]
  rfl

/-- The branch of `mmulHelper` for two matrices, or a row and a matrix. -/
theorem mmulHelper_gemm (hK : K ≠ 1) (hN : N ≠ 1) (hA : A.shapeInfo.shape = [M, K])
    (hB : B.shapeInfo.shape = [K, N]) (C : Option (NDArray T)) (alpha beta : T) :
    A.mmulHelper run B C alpha beta =
      (A.gemmResult run B (C.getD (NDArray.ofMatrix M N 'f')) alpha beta).map some := by
  unfold NDArray.mmulHelper
  rw [isVectorArray_of_shape hA, isVectorArray_of_shape hB, isMatrix_of_shape hA,
    isMatrix_of_shape hB]
  by_cases hM : M = 1 <;> simp [hK, hN, hM, rows, columns, hA, hB] <;> rfl

/-- With an inner extent of one `mmulHelper` throws or writes the first cell of its result at most. -/
theorem mmulHelper_of_one (hA : A.shapeInfo.shape = [M, 1]) (hB : B.shapeInfo.shape = [1, N])
    (alpha beta : T) :
    (∃ e, A.mmulHelper run B (some C) alpha beta = .error e) ∨
      ∃ buffer, A.mmulHelper run B (some C) alpha beta = .ok (some ⟨C.shapeInfo, buffer⟩) ∧
        ∀ i, (i ≠ 0 ∨ M = 1) → buffer i = C.buffer i := by
  unfold NDArray.mmulHelper
  rw [isVectorArray_of_shape hA, isVectorArray_of_shape hB, isMatrix_of_shape hA,
    isMatrix_of_shape hB, length_of_shape hA, length_of_shape hB]
  by_cases hvectors : M ≠ 1 ∧ N ≠ 1
  · obtain ⟨hM, hN⟩ := hvectors
    by_cases hlengths : M = N
    · right
      refine ⟨Function.update C.buffer 0 (Blas.dot A.buffer B.buffer M), ?_, fun i hi => ?_⟩
      · simp [hN, hlengths]
      · exact Function.update_of_ne (hi.resolve_right hM) _ _
    · left
      refine ⟨.thrown "A length != B length", ?_⟩
      simp [hM, hN, hlengths]
  · right
    refine ⟨C.buffer, ?_, fun _ _ => rfl⟩
    have hnot : (decide ((M = 1 ∨ 1 = 1) ∧ ¬ (M = 1 ∧ 1 = 1)) &&
        decide ((1 = 1 ∨ N = 1) ∧ ¬ (1 = 1 ∧ N = 1))) = false := by
      simp
      tauto
    rw [hnot]
    simp

/-- With an inner extent above one a result in F order receives the product. -/
theorem mmulHelper_spec (hK : K ≠ 1) (hA : Factor A M K) (horder : A.shapeInfo.order = 'c')
    (hrows : RowsInBuffer A M K) (hB : Factor B K N) (hcolumns : ColumnsInBuffer B K N)
    (hC : C.shapeInfo.shape = [M, N]) (hCorder : C.shapeInfo.order = 'f') :
    ∃ buffer, A.mmulHelper run B (some C) 1 0 = .ok (some ⟨C.shapeInfo, buffer⟩) ∧
      ∀ r < M, ∀ c < N, buffer (Blas.linearIndexF M N r c) = productAt A B K r c := by
  by_cases hN : N = 1
  · subst hN
    have hcolumn : ∀ k < K, B.buffer k = B.element [k, 0] := by
      intro k hk
      have hread := hcolumns k hk 0 Nat.one_pos
      rwa [Blas.linearIndexF, Nat.zero_mul, Nat.zero_add] at hread
    by_cases hM : M = 1
    · subst hM
      refine ⟨_, mmulHelper_dot run hK hA.shape_eq hB.shape_eq 1 0, fun r hr c hc => ?_⟩
      obtain rfl := Nat.lt_one_iff.mp hr
      obtain rfl := Nat.lt_one_iff.mp hc
      have hcell : ((Blas.linearIndexF 1 1 0 0 : Nat) : Int) = 0 := rfl
      rw [hcell, Function.update_self, Blas.dot_eq_pairSum]
      refine Finset.sum_congr rfl fun k hk => ?_
      have hk := Finset.mem_range.mp hk
      have hrow := hrows 0 Nat.one_pos k hk
      rw [Blas.linearIndexC, Nat.zero_mul, Nat.zero_add] at hrow
      rw [← hrow, ← hcolumn k hk]
    · have hnot : A.shapeInfo.order ≠ 'f' := by
        rw [horder]
        decide
      refine ⟨_, mmulHelper_gemv run hM hK hA.shape_eq hB.shape_eq hnot 1 0, fun r hr c hc => ?_⟩
      obtain rfl := Nat.lt_one_iff.mp hc
      have hcell : ((Blas.linearIndexF M 1 r 0 : Nat) : Int) = r := by
        rw [Blas.linearIndexF, Nat.zero_mul, Nat.zero_add]
      rw [hcell, Blas.gemv_apply .noTrans 1 A.buffer B.buffer 0 C.buffer run.fresh hr, one_mul,
        zero_mul, add_zero]
      refine Finset.sum_congr rfl fun k hk => ?_
      have hk := Finset.mem_range.mp hk
      rw [← hrows r hr k hk, ← hcolumn k hk]
      rfl
  · obtain ⟨buffer, hresult, hbuffer⟩ := gemmResult_spec run hA hB hC hCorder 1 0
    refine ⟨buffer, ?_, fun r hr c hc => ?_⟩
    · rw [mmulHelper_gemm run hK hN hA.shape_eq hB.shape_eq, Option.getD_some, hresult]
      rfl
    · rw [hbuffer r hr c hc, one_mul, zero_mul, add_zero]

end Products

end Arrays
end LibND4J
