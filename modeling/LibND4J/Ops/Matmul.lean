import LibND4J.Blas.Gemm
import LibND4J.Shape.Slices

/-!
# The shape of matrix products

The shape function of `matmul` sorts its operands into scalars, vectors and matrices, and
so do the operation itself and `NDArrayFactory::mmulHelper`.  The output array is allocated
with the shape that the first of the three declares.

Main results:

- Theorem `matmulShape_eq_iff`: when the shape function declares the shape of the product.
- Theorem `exactlyStored_dot` and `exactlyStored_gemm`: then `mmulHelper` fills
  the output and nothing else.
- Theorem `declaresProduct_iff`: both together.
-/

namespace LibND4J
namespace Ops

open Shape Accumulation

/-! ## The operation -/

/-- `NDArray::isScalar`. -/
def isScalarArray (info : ShapeInfo) : Bool :=
  info.length = 1

/-- `NDArray::isVector`. -/
def isVectorArray (info : ShapeInfo) : Bool :=
  !isScalarArray info && isVector info

def rows (info : ShapeInfo) : Nat :=
  info.shape.getD 0 0

def columns (info : ShapeInfo) : Nat :=
  info.shape.getD 1 0

/-- The shape function of `matmul`; without a fitting branch the shape stays as it was
allocated. -/
def matmulShape (inA inB : ShapeInfo) : Option (List Nat) :=
  if isScalar inA && isScalar inB then
    some [1, 1]
  else if (isVector inA && isScalar inB) || (isScalar inA && isVector inB) then
    some [1, max inA.length inB.length]
  else if isVector inA && isVector inB then
    some [1, 1]
  else if isMatrix inA && isVector inB then
    some [1, inB.length]
  else if (isMatrix inA && isMatrix inB) || (isVector inA && isMatrix inB) then
    some [rows inA, columns inB]
  else none

/-- What `matmul` does with its operands. -/
inductive MatmulBranch
  | mmulHelper
  | scaleX
  | scaleY
  | nothing
deriving DecidableEq

def matmulBranch (x y : ShapeInfo) : MatmulBranch :=
  if isMatrix x && isVectorArray y then .mmulHelper
  else if isVectorArray x && isMatrix y then .mmulHelper
  else if isVectorArray x && isVectorArray y then .mmulHelper
  else if isMatrix x && isMatrix y then .mmulHelper
  else if isVectorArray x && isScalarArray y then .scaleX
  else if isScalarArray x && isVectorArray y then .scaleY
  else .nothing

section Helper

variable {T : Type} [CommRing T] [DecidableEq T]

/-- The buffers that `mmulHelper` works with: those of `A` and `B`, those given to `GEMM::op`
(the same, or copies in Fortran order), and the arrays that the routines allocate. -/
structure Buffers (T : Type) where
  A : Int → T
  B : Int → T
  pA : Int → T
  pB : Int → T
  newA : Int → T
  newB : Int → T

/-- `mmulHelper` for operands of rank two and a result in Fortran order; the outcome is the
buffer of the result, or nothing when it throws. -/
def mmulHelper (a b c : ShapeInfo) (buffers : Buffers T) (alpha beta : T) (C : Int → T) :
    Option (Int → T) := do
  let C ←
    if isVectorArray a && isVectorArray b then
      if a.length ≠ b.length then none
      else some (Function.update C 0 (Blas.dot buffers.A buffers.B a.length))
    else some C
  if isMatrix a && isVectorArray b then
    if columns a ≠ rows b then none
    else some (Blas.gemv (if a.order = 'f' then .trans else .noTrans) (rows a) (columns a) alpha
      buffers.A (rows b) buffers.B beta C buffers.newA)
  else if (isMatrix a && isMatrix b) || (isVectorArray a && isMatrix b) then
    some (Blas.gemm .noTrans .noTrans (rows c) (columns c) (columns a) alpha buffers.pA buffers.pB
      beta C buffers.newA buffers.newB)
  else some C

end Helper

/-! ## Operands of rank two -/

section Kinds

variable {info : ShapeInfo} {m n : Nat}

variable (h : info.shape = [m, n])

include h

theorem length_of_shape : info.length = m * n := by
  simp [ShapeInfo.length, h]

theorem isScalar_of_shape : isScalar info = decide (m = 1 ∧ n = 1) := by
  simp only [isScalar, h]

theorem isVector_of_shape : isVector info = decide (m = 1 ∨ n = 1) := by
  simp [isVector, ShapeInfo.rank, h]

theorem isMatrix_of_shape : isMatrix info = decide (m ≠ 1 ∧ n ≠ 1) := by
  simp [isMatrix, ShapeInfo.rank, h]

theorem isScalarArray_of_shape : isScalarArray info = decide (m = 1 ∧ n = 1) := by
  simp [isScalarArray, length_of_shape h]

theorem isVectorArray_of_shape :
    isVectorArray info = decide ((m = 1 ∨ n = 1) ∧ ¬ (m = 1 ∧ n = 1)) := by
  simp [isVectorArray, isScalarArray_of_shape h, isVector_of_shape h, Bool.and_comm]

end Kinds

section Product

variable {x y : ShapeInfo} {M K N : Nat}

/-- The shape that is declared, by the extents. -/
theorem matmulShape_of_shapes (hMpos : 0 < M) (hNpos : 0 < N) (hx : x.shape = [M, K])
    (hy : y.shape = [K, N]) :
    matmulShape x y =
      if K = 1 then
        if M = 1 then some [1, N] else if N = 1 then some [1, M] else some [1, 1]
      else if M = 1 then some [1, N]
      else if N = 1 then some [1, K] else some [M, N] := by
  rw [matmulShape, isScalar_of_shape hx, isScalar_of_shape hy, isVector_of_shape hx,
    isVector_of_shape hy, isMatrix_of_shape hx, isMatrix_of_shape hy, length_of_shape hx,
    length_of_shape hy, rows, columns, hx, hy]
  by_cases hM : M = 1 <;> by_cases hK : K = 1 <;> by_cases hN : N = 1 <;>
    simp [hM, hK, hN] <;> omega

/-- When the shape of the product is declared. -/
theorem matmulShape_eq_iff (hMpos : 0 < M) (hKpos : 0 < K) (hNpos : 0 < N)
    (hx : x.shape = [M, K]) (hy : y.shape = [K, N]) :
    matmulShape x y = some [M, N] ↔ M = 1 ∨ 2 ≤ K ∧ 2 ≤ N := by
  rw [matmulShape_of_shapes hMpos hNpos hx hy]
  by_cases hM : M = 1 <;> by_cases hK : K = 1 <;> by_cases hN : N = 1 <;>
    simp [hM, hK, hN] <;> omega

/-- `mmulHelper` is not called for a scalar as first operand. -/
theorem not_scalar_of_mmulHelper (hx : x.shape = [M, K]) (hy : y.shape = [K, N])
    (h : matmulBranch x y = .mmulHelper) : ¬ (M = 1 ∧ K = 1) := by
  rintro ⟨rfl, rfl⟩
  rw [matmulBranch, isMatrix_of_shape hx, isMatrix_of_shape hy, isVectorArray_of_shape hx,
    isVectorArray_of_shape hy, isScalarArray_of_shape hx, isScalarArray_of_shape hy] at h
  by_cases hN : N = 1 <;> simp [hN] at h

/-! ## What is stored -/

/-- The run fills so many cells of the buffer, whatever they held before, and leaves all others
alone. -/
def ExactlyStored {T : Type} (length : Nat) (run : (Int → T) → Option (Int → T)) : Prop :=
  ∀ C D, ∃ C' D', run C = some C' ∧ run D = some D' ∧ (∀ i ∈ cells length, C' i = D' i) ∧
    ∀ i, i ∉ cells length → C' i = C i

section Stored

variable {T : Type} [CommRing T] [DecidableEq T] {z : ShapeInfo}

/-- The branch of `mmulHelper` for two vectors. -/
theorem mmulHelper_dot (hK : K ≠ 1) (hx : x.shape = [1, K]) (hy : y.shape = [K, 1])
    (buffers : Buffers T) (alpha beta : T) (C : Int → T) :
    mmulHelper x y z buffers alpha beta C =
      some (Function.update C 0 (Blas.dot buffers.A buffers.B K)) := by
  rw [mmulHelper, isVectorArray_of_shape hx, isVectorArray_of_shape hy, isMatrix_of_shape hx,
    isMatrix_of_shape hy, length_of_shape hx, length_of_shape hy]
  simp [hK]

/-- The branch of `mmulHelper` for two matrices, or a row vector and a matrix. -/
theorem mmulHelper_gemm (hK : K ≠ 1) (hN : N ≠ 1) (hx : x.shape = [M, K]) (hy : y.shape = [K, N])
    (hz : z.shape = [M, N]) (buffers : Buffers T) (alpha beta : T) (C : Int → T) :
    mmulHelper x y z buffers alpha beta C =
      some (Blas.gemm .noTrans .noTrans M N K alpha buffers.pA buffers.pB beta C buffers.newA
        buffers.newB) := by
  rw [mmulHelper, isVectorArray_of_shape hx, isVectorArray_of_shape hy, isMatrix_of_shape hx,
    isMatrix_of_shape hy]
  by_cases hM : M = 1 <;> simp [hK, hN, hM, rows, columns, hx, hz]

theorem exactlyStored_dot (hK : K ≠ 1) (hx : x.shape = [1, K]) (hy : y.shape = [K, 1])
    (hz : z.shape = [1, 1]) (buffers : Buffers T) (alpha : T) :
    ExactlyStored z.length (mmulHelper x y z buffers alpha 0) := by
  intro C D
  refine ⟨_, _, mmulHelper_dot hK hx hy buffers alpha 0 C,
    mmulHelper_dot hK hx hy buffers alpha 0 D, ?_, ?_⟩
  · intro i hi
    rw [length_of_shape hz, mem_cells] at hi
    obtain rfl : i = 0 := by omega
    rw [Function.update_self, Function.update_self]
  · intro i hi
    have hne : i ≠ 0 := by
      rintro rfl
      exact hi (by rw [length_of_shape hz]; decide)
    rw [Function.update_of_ne hne]

theorem exactlyStored_gemm (hK : K ≠ 1) (hN : N ≠ 1) (hx : x.shape = [M, K])
    (hy : y.shape = [K, N]) (hz : z.shape = [M, N]) (buffers : Buffers T) (alpha : T) :
    ExactlyStored z.length (mmulHelper x y z buffers alpha 0) := by
  intro C D
  refine ⟨_, _, mmulHelper_gemm hK hN hx hy hz buffers alpha 0 C,
    mmulHelper_gemm hK hN hx hy hz buffers alpha 0 D, ?_, ?_⟩
  · intro i hi
    rw [length_of_shape hz, mem_cells] at hi
    obtain ⟨k, rfl⟩ := Int.eq_ofNat_of_zero_le hi.1
    obtain ⟨r, hr, c, hc, rfl⟩ := Blas.exists_linearIndexF (Int.ofNat_lt.mp hi.2)
    rw [Blas.gemm_apply _ _ K alpha _ _ 0 C _ _ hr hc, Blas.gemm_apply _ _ K alpha _ _ 0 D _ _ hr hc,
      zero_mul, zero_mul]
  · intro i hi
    rw [length_of_shape hz, mem_cells] at hi
    exact Blas.gemm_apply_of_outside _ _ K alpha _ _ 0 C _ _ hi

end Stored

/-! ## The declared shape and the stores -/

/-- The shape of the product is declared, and `mmulHelper`, where it is called, fills an output of
the declared shape and nothing else. -/
structure DeclaresProduct (x y : ShapeInfo) : Prop where
  shape_eq : matmulShape x y = some [rows x, columns y]
  stored : ∀ (T : Type) [CommRing T] [DecidableEq T] (z : ShapeInfo) (buffers : Buffers T)
    (alpha : T), matmulBranch x y = .mmulHelper → matmulShape x y = some z.shape →
      ExactlyStored z.length (mmulHelper x y z buffers alpha 0)

/-- The shape of the product is declared, and its output exactly large enough, if the first
operand is one row, or neither the inner extent nor the number of columns is one. -/
theorem declaresProduct_iff (hMpos : 0 < M) (hKpos : 0 < K) (hNpos : 0 < N)
    (hx : x.shape = [M, K]) (hy : y.shape = [K, N]) :
    DeclaresProduct x y ↔ M = 1 ∨ 2 ≤ K ∧ 2 ≤ N := by
  have hrows : rows x = M := by rw [rows, hx]; rfl
  have hcolumns : columns y = N := by rw [columns, hy]; rfl
  rw [← matmulShape_eq_iff hMpos hKpos hNpos hx hy]
  constructor
  · intro h
    rw [h.shape_eq, hrows, hcolumns]
  · intro h
    refine ⟨by rw [h, hrows, hcolumns], ?_⟩
    intro T _ _ z buffers alpha hbranch hz
    have hzshape : z.shape = [M, N] := by
      rw [h] at hz
      exact (Option.some.inj hz).symm
    have hbranch := not_scalar_of_mmulHelper hx hy hbranch
    have hextents := (matmulShape_eq_iff hMpos hKpos hNpos hx hy).mp h
    have hK : K ≠ 1 := by omega
    by_cases hN : N = 1
    · obtain rfl : M = 1 := by omega
      subst hN
      exact exactlyStored_dot hK hx hy hzshape buffers alpha
    · exact exactlyStored_gemm hK hN hx hy hzshape buffers alpha

end Product

/-- A dense matrix in Fortran order. -/
def fortranInfo (m n : Nat) : ShapeInfo where
  shape := [m, n]
  stride := [1, m]
  offset := 0
  elementWiseStride := 1
  order := 'f'
  stride_length := rfl

theorem declaresProduct_iff_rowTimesMatrix :
    DeclaresProduct (fortranInfo 1 3) (fortranInfo 3 2) ↔ 1 = 1 ∨ 2 ≤ 3 ∧ 2 ≤ 2 :=
  declaresProduct_iff (by decide) (by decide) (by decide) rfl rfl

/-- The product of a matrix with a column is declared as long a row as the column. -/
theorem not_declaresProduct_always :
    ¬ ∀ (M K N : Nat) (x y : ShapeInfo), 0 < M → 0 < K → 0 < N → x.shape = [M, K] →
      y.shape = [K, N] → DeclaresProduct x y := by
  intro h
  have hdeclares := h 3 2 1 (fortranInfo 3 2) (fortranInfo 2 1) (by decide) (by decide)
    (by decide) rfl rfl
  exact absurd hdeclares.shape_eq (by decide)

end Ops
end LibND4J
