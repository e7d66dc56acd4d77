import LibND4J.Library.Accumulation
import LibND4J.Library.Strided

/-!
# Matrix products

`GEMM::op` and `GEMV::op` multiply matrices that lie densely in their buffers.  Both
bring the first matrix in row-major order and take inner products of its rows; the leading
dimensions, the increments and the storage order that they are given are not looked at, save for
the leading dimension of `GEMV::op`, which is the length of the inner products.

Buffers are functions from cells to elements of a commutative ring.

Main results:

- Theorem `transpose_apply`: a transposed array holds the elements of its source.
- Theorem `gemm_apply` and `gemm_apply_of_outside`: the cells of the result after
  `GEMM::op`, and all others.
- Theorem `gemm_computes`: the two together, whatever order the threads do their work in.
- Theorem `gemv_apply`: the cells of the result after `GEMV::op`.
-/

namespace LibND4J
namespace Blas

open Pairings
open Strided (mul_add_inj)

/-- `CblasRowMajor` and `CblasColMajor`. -/
inductive StorageOrder
  | rowMajor
  | colMajor
deriving DecidableEq

/-- `CblasTrans`, or any other flag. -/
inductive TransposeFlag
  | noTrans
  | trans
deriving DecidableEq

def linearIndexC (_rows cols r c : Nat) : Nat :=
  r * cols + c

def linearIndexF (rows _cols r c : Nat) : Nat :=
  c * rows + r

/-- The steps of a loop over rows with a loop over columns in it. -/
def positions (rows cols : Nat) : List (Nat × Nat) :=
  (List.range rows).flatMap fun r => (List.range cols).map fun c => (r, c)

section Routines

variable {T : Type}

/-- `GEMM::transpose`; `ret` is the new array before it is written. -/
def transpose (orderSource orderTarget : StorageOrder) (rows cols : Nat) (source ret : Int → T) :
    Int → T :=
  Stores.storeAll
    (fun p : Nat × Nat =>
      ((if orderTarget = .rowMajor then linearIndexC rows cols p.1 p.2
        else linearIndexF rows cols p.1 p.2 : Nat) : Int))
    (fun p _ => source (if orderSource = .colMajor then linearIndexF rows cols p.1 p.2
      else linearIndexC rows cols p.1 p.2 : Nat))
    (positions rows cols) ret

variable [CommRing T] [DecidableEq T]

/-- `nd4j_dot`. -/
def dot (x y : Int → T) (length : Nat) : T :=
  (List.range length).foldl (fun acc (e : Nat) => acc + x e * y e) 0

/-- `GEMM::op`; `newA` and `newB` are the arrays that a transposition allocates. -/
def gemm (transA transB : TransposeFlag) (M N K : Nat) (alpha : T) (A B : Int → T) (beta : T)
    (C newA newB : Int → T) : Int → T :=
  let aT := if transA ≠ .trans then transpose .colMajor .rowMajor M K A newA else A
  let bT := if transB = .trans then transpose .rowMajor .colMajor K N B newB else B
  let C := if beta = 0 then
      Stores.storeAll (fun r : Nat => (r : Int)) (fun _ _ => 0) (List.range (M * N)) C
    else C
  Stores.storeAll (fun p : Nat × Nat => (linearIndexF M N p.1 p.2 : Int))
    (fun p C =>
      let dotted := if alpha ≠ 0 then
          dot (fun i => aT (linearIndexC M K p.1 0 + i)) (fun i => bT (linearIndexF K N 0 p.2 + i))
            K * alpha
        else 0
      if beta ≠ 0 then dotted + beta * C (linearIndexF M N p.1 p.2) else dotted)
    (positions M N) C

/-- `GEMV::op`; `newA` is the array that a transposition allocates. -/
def gemv (transA : TransposeFlag) (M N : Nat) (alpha : T) (A : Int → T) (lda : Nat) (X : Int → T)
    (beta : T) (Y newA : Int → T) : Int → T :=
  let aT := if transA = .trans then transpose .colMajor .rowMajor M N A newA else A
  Stores.storeAll (fun r : Nat => (r : Int))
    (fun r Y =>
      let dotted := dot (fun i => aT (linearIndexC M N r 0 + i)) X lda * alpha
      if beta = 0 then dotted else dotted + beta * Y r)
    (List.range M) Y

end Routines

/-! ## Dense indices -/

variable {rows cols : Nat} {p : Nat × Nat}

theorem mem_positions : p ∈ positions rows cols ↔ p.1 < rows ∧ p.2 < cols := by
  rw [positions, List.mem_flatMap]
  constructor
  · rintro ⟨r, hr, hp⟩
    obtain ⟨c, hc, rfl⟩ := List.mem_map.mp hp
    exact ⟨List.mem_range.mp hr, List.mem_range.mp hc⟩
  · rintro ⟨hr, hc⟩
    exact ⟨p.1, List.mem_range.mpr hr, List.mem_map.mpr ⟨p.2, List.mem_range.mpr hc, rfl⟩⟩

theorem linearIndexC_inj {q : Nat × Nat} (hp : p ∈ positions rows cols)
    (hq : q ∈ positions rows cols)
    (h : linearIndexC rows cols p.1 p.2 = linearIndexC rows cols q.1 q.2) : p = q := by
  obtain ⟨hrow, hcol⟩ := mul_add_inj (mem_positions.mp hp).2 (mem_positions.mp hq).2 h
  exact Prod.ext hrow hcol

theorem linearIndexF_inj {q : Nat × Nat} (hp : p ∈ positions rows cols)
    (hq : q ∈ positions rows cols)
    (h : linearIndexF rows cols p.1 p.2 = linearIndexF rows cols q.1 q.2) : p = q := by
  obtain ⟨hcol, hrow⟩ := mul_add_inj (mem_positions.mp hp).1 (mem_positions.mp hq).1 h
  exact Prod.ext hrow hcol

theorem linearIndexF_lt {r c : Nat} (hr : r < rows) (hc : c < cols) :
    linearIndexF rows cols r c < rows * cols := by
  calc c * rows + r < c * rows + rows := Nat.add_lt_add_left hr _
    _ = rows * (c + 1) := by ring
    _ ≤ rows * cols := Nat.mul_le_mul_left _ hc

/-- Every cell of a dense matrix is that of a position. -/
theorem exists_linearIndexF {i : Nat} (hi : i < rows * cols) :
    ∃ r < rows, ∃ c < cols, i = linearIndexF rows cols r c := by
  have hrows : 0 < rows := Nat.pos_of_mul_pos_right (Nat.zero_lt_of_lt hi)
  refine ⟨i % rows, Nat.mod_lt i hrows, i / rows, Nat.div_lt_of_lt_mul hi, ?_⟩
  rw [linearIndexF, Nat.div_add_mod']

theorem nodup_positions (rows cols : Nat) : (positions rows cols).Nodup := by
  rw [positions, List.nodup_flatMap]
  constructor
  · intro r _
    exact List.nodup_range.map fun c c' h => (Prod.mk.inj h).2
  · refine List.nodup_range.imp fun {r r'} hne => ?_
    intro p hp hp'
    obtain ⟨c, -, rfl⟩ := List.mem_map.mp hp
    obtain ⟨c', -, heq⟩ := List.mem_map.mp hp'
    exact hne (Prod.mk.inj heq).1.symm

/-! ## What the routines leave -/

section Results

variable {T : Type} {r c M N : Nat}

/-- A transposed array holds the elements of its source. -/
theorem transpose_apply (orderSource orderTarget : StorageOrder) {rows cols : Nat} (hr : r < rows)
    (hc : c < cols) (source ret : Int → T) :
    transpose orderSource orderTarget rows cols source ret
        (if orderTarget = .rowMajor then linearIndexC rows cols r c
          else linearIndexF rows cols r c : Nat) =
      source (if orderSource = .colMajor then linearIndexF rows cols r c
        else linearIndexC rows cols r c : Nat) := by
  have hmem : (r, c) ∈ positions rows cols := mem_positions.mpr ⟨hr, hc⟩
  refine Stores.storeAll_of_agree ⟨(r, c), hmem, rfl⟩ (fun q hq hcell _ => ?_) ret
  have hsame : q = (r, c) := by
    have hcell := Int.ofNat.inj hcell
    cases orderTarget with
    | rowMajor => exact linearIndexC_inj hq hmem hcell
    | colMajor => exact linearIndexF_inj hq hmem hcell
  rw [hsame]

/-- The cell of an element of the first factor of `gemm`. -/
def cellA (transA : TransposeFlag) (M K r k : Nat) : Nat :=
  if transA ≠ .trans then linearIndexF M K r k else linearIndexC M K r k

/-- The cell of an element of the second factor of `gemm`. -/
def cellB (transB : TransposeFlag) (K N k c : Nat) : Nat :=
  if transB = .trans then linearIndexC K N k c else linearIndexF K N k c

/-- The rows of the first factor, brought in row-major order. -/
theorem firstFactor_apply (transA : TransposeFlag) {K k : Nat} (hr : r < M) (hk : k < K)
    (A newA : Int → T) :
    (if transA ≠ .trans then transpose .colMajor .rowMajor M K A newA else A)
        (linearIndexC M K r 0 + k : Int) = A (cellA transA M K r k) := by
  have hindex : ((linearIndexC M K r 0 : Nat) + k : Int) = (linearIndexC M K r k : Nat) := by
    simp [linearIndexC]
  rw [hindex]
  by_cases htrans : transA = .trans
  · rw [if_neg (by simp [htrans]), cellA, if_neg (by simp [htrans])]
  · rw [if_pos htrans, cellA, if_pos htrans]
    exact transpose_apply .colMajor .rowMajor hr hk A newA

/-- The columns of the second factor, brought in column-major order. -/
theorem secondFactor_apply (transB : TransposeFlag) {K k : Nat} (hk : k < K) (hc : c < N)
    (B newB : Int → T) :
    (if transB = .trans then transpose .rowMajor .colMajor K N B newB else B)
        (linearIndexF K N 0 c + k : Int) = B (cellB transB K N k c) := by
  have hindex : ((linearIndexF K N 0 c : Nat) + k : Int) = (linearIndexF K N k c : Nat) := by
    simp [linearIndexF]
  rw [hindex]
  by_cases htrans : transB = .trans
  · rw [if_pos htrans, cellB, if_pos htrans]
    exact transpose_apply .rowMajor .colMajor hk hc B newB
  · rw [if_neg htrans, cellB, if_neg htrans]

variable [CommRing T]

/-- The inner product is a sum over pairs of cells. -/
theorem dot_eq_pairSum (x y : Int → T) (n : Nat) :
    dot x y n = pairSum x y (fun k => ((k : Int), (k : Int))) n := by
  have hfold : ∀ m, (List.range m).foldl (fun acc (e : Nat) => acc + x e * y e) 0 =
      ∑ k ∈ Finset.range m, x k * y k := by
    intro m
    induction m with
    | zero => rfl
    | succ m ih =>
        rw [List.range_succ, List.foldl_append, ih, List.foldl_cons, List.foldl_nil,
          Finset.sum_range_succ]
  exact hfold n

variable [DecidableEq T]

/-- The cells of the result after `gemm`. -/
theorem gemm_apply (transA transB : TransposeFlag) (K : Nat) (alpha : T) (A B : Int → T) (beta : T)
    (C newA newB : Int → T) (hr : r < M) (hc : c < N) :
    gemm transA transB M N K alpha A B beta C newA newB (linearIndexF M N r c) =
      alpha * pairSum A B (fun k => ((cellA transA M K r k : Int), (cellB transB K N k c : Int))) K +
        beta * C (linearIndexF M N r c) := by
  have hmem : (r, c) ∈ positions M N := mem_positions.mpr ⟨hr, hc⟩
  have hcells : ((positions M N).map fun p : Nat × Nat =>
      (linearIndexF M N p.1 p.2 : Int)).Nodup := by
    apply List.Nodup.map_on _ (nodup_positions M N)
    intro p hp q hq heq
    exact linearIndexF_inj hp hq (Int.ofNat.inj heq)
  have hdot : dot (fun i => (if transA ≠ .trans then transpose .colMajor .rowMajor M K A newA
        else A) (linearIndexC M K r 0 + i))
      (fun i => (if transB = .trans then transpose .rowMajor .colMajor K N B newB else B)
        (linearIndexF K N 0 c + i)) K =
      pairSum A B (fun k => ((cellA transA M K r k : Int), (cellB transB K N k c : Int))) K := by
    rw [dot_eq_pairSum]
    apply Finset.sum_congr rfl
    intro k hk
    have hk := Finset.mem_range.mp hk
    simp only
    rw [firstFactor_apply transA hr hk, secondFactor_apply transB hk hc]
  unfold gemm
  rw [Stores.storeAll_of_independent hcells _ _ hmem]
  · simp only [hdot]
    by_cases halpha : alpha = 0
    · by_cases hbeta : beta = 0
      · simp [halpha, hbeta]
      · simp [halpha, hbeta]
    · by_cases hbeta : beta = 0
      · simp [halpha, hbeta, mul_comm]
      · simp [halpha, hbeta, mul_comm]
  · intro p _ q _ hne memory b
    simp only [Function.update_of_ne hne]

/-- All other cells stay as they are. -/
theorem gemm_apply_of_outside (transA transB : TransposeFlag) (K : Nat) (alpha : T) (A B : Int → T)
    (beta : T) (C newA newB : Int → T) {i : Int} (hi : ¬ (0 ≤ i ∧ i < (M * N : Nat))) :
    gemm transA transB M N K alpha A B beta C newA newB i = C i := by
  unfold gemm
  rw [Stores.storeAll_of_not_written]
  · split
    · apply Stores.storeAll_of_not_written
      rintro r hr rfl
      have hr := List.mem_range.mp hr
      exact hi ⟨Int.natCast_nonneg r, by exact_mod_cast hr⟩
    · rfl
  · rintro p hp rfl
    obtain ⟨hr, hc⟩ := mem_positions.mp hp
    exact hi ⟨Int.natCast_nonneg _, by exact_mod_cast linearIndexF_lt hr hc⟩

/-- The cells of the result after `gemv`. -/
theorem gemv_apply (transA : TransposeFlag) (alpha : T) (A X : Int → T) (beta : T)
    (Y newA : Int → T) (hr : r < M) :
    gemv transA M N alpha A N X beta Y newA r =
      alpha * pairSum A X (fun k => (((if transA = .trans then linearIndexF M N r k
        else linearIndexC M N r k : Nat) : Int), (k : Int))) N + beta * Y r := by
  have hmem : r ∈ List.range M := List.mem_range.mpr hr
  have hcells : ((List.range M).map fun r : Nat => (r : Int)).Nodup :=
    List.nodup_range.map fun r r' h => Int.ofNat.inj h
  have hdot : dot (fun i => (if transA = .trans then transpose .colMajor .rowMajor M N A newA
        else A) (linearIndexC M N r 0 + i)) X N =
      pairSum A X (fun k => (((if transA = .trans then linearIndexF M N r k
        else linearIndexC M N r k : Nat) : Int), (k : Int))) N := by
    rw [dot_eq_pairSum]
    apply Finset.sum_congr rfl
    intro k hk
    have hk := Finset.mem_range.mp hk
    have hindex : ((linearIndexC M N r 0 : Nat) + k : Int) = (linearIndexC M N r k : Nat) := by
      simp [linearIndexC]
    simp only [hindex]
    by_cases htrans : transA = .trans
    · have happly : transpose .colMajor .rowMajor M N A newA (linearIndexC M N r k : Nat) =
          A (linearIndexF M N r k : Nat) := transpose_apply .colMajor .rowMajor hr hk A newA
      rw [if_pos htrans, if_pos htrans, happly]
    · rw [if_neg htrans, if_neg htrans]
  unfold gemv
  rw [Stores.storeAll_of_independent hcells _ _ hmem]
  · simp only [hdot]
    by_cases hbeta : beta = 0
    · simp [hbeta, mul_comm]
    · simp [hbeta, mul_comm]
  · intro p _ q _ hne memory b
    simp only [Function.update_of_ne hne]

end Results

/-! ## Every schedule -/

/-- The orders in which the threads do the steps of the loops of `GEMM::op`: those of the two
transpositions, of the zeroing and of the product. -/
structure GemmSchedule (M N K : Nat) where
  stepsA : List (Nat × Nat)
  stepsB : List (Nat × Nat)
  zeros : List Nat
  steps : List (Nat × Nat)
  stepsA_perm : stepsA.Perm (positions M K)
  stepsB_perm : stepsB.Perm (positions K N)
  zeros_perm : zeros.Perm (List.range (M * N))
  steps_perm : steps.Perm (positions M N)

section Schedules

variable {T : Type}

/-- `GEMM::transpose`, with its steps in some order. -/
def transposeBy (steps : List (Nat × Nat)) (orderSource orderTarget : StorageOrder)
    (rows cols : Nat) (source ret : Int → T) : Int → T :=
  Stores.storeAll
    (fun p : Nat × Nat =>
      ((if orderTarget = .rowMajor then linearIndexC rows cols p.1 p.2
        else linearIndexF rows cols p.1 p.2 : Nat) : Int))
    (fun p _ => source (if orderSource = .colMajor then linearIndexF rows cols p.1 p.2
      else linearIndexC rows cols p.1 p.2 : Nat))
    steps ret

variable [CommRing T] [DecidableEq T]

/-- `GEMM::op`, with the steps of its loops in some order. -/
def gemmBy {M N K : Nat} (schedule : GemmSchedule M N K) (transA transB : TransposeFlag) (alpha : T)
    (A B : Int → T) (beta : T) (C newA newB : Int → T) : Int → T :=
  let aT := if transA ≠ .trans then
      transposeBy schedule.stepsA .colMajor .rowMajor M K A newA
    else A
  let bT := if transB = .trans then
      transposeBy schedule.stepsB .rowMajor .colMajor K N B newB
    else B
  let C := if beta = 0 then
      Stores.storeAll (fun r : Nat => (r : Int)) (fun _ _ => 0) schedule.zeros C
    else C
  Stores.storeAll (fun p : Nat × Nat => (linearIndexF M N p.1 p.2 : Int))
    (fun p C =>
      let dotted := if alpha ≠ 0 then
          dot (fun i => aT (linearIndexC M K p.1 0 + i)) (fun i => bT (linearIndexF K N 0 p.2 + i))
            K * alpha
        else 0
      if beta ≠ 0 then dotted + beta * C (linearIndexF M N p.1 p.2) else dotted)
    schedule.steps C

omit [CommRing T] [DecidableEq T] in
theorem transposeBy_eq {steps : List (Nat × Nat)} {rows cols : Nat}
    (hsteps : steps.Perm (positions rows cols)) (orderSource orderTarget : StorageOrder)
    (source ret : Int → T) :
    transposeBy steps orderSource orderTarget rows cols source ret =
      transpose orderSource orderTarget rows cols source ret := by
  have hcells : ((positions rows cols).map fun p : Nat × Nat =>
      ((if orderTarget = .rowMajor then linearIndexC rows cols p.1 p.2
        else linearIndexF rows cols p.1 p.2 : Nat) : Int)).Nodup := by
    apply List.Nodup.map_on _ (nodup_positions rows cols)
    intro p hp q hq heq
    have heq := Int.ofNat.inj heq
    cases orderTarget with
    | rowMajor => exact linearIndexC_inj hp hq heq
    | colMajor => exact linearIndexF_inj hp hq heq
  exact Stores.storeAll_perm hsteps hcells (fun _ _ _ _ _ _ _ => rfl) ret

/-- The order of the steps does not matter. -/
theorem gemmBy_eq {M N K : Nat} (schedule : GemmSchedule M N K) (transA transB : TransposeFlag)
    (alpha : T) (A B : Int → T) (beta : T) (C newA newB : Int → T) :
    gemmBy schedule transA transB alpha A B beta C newA newB =
      gemm transA transB M N K alpha A B beta C newA newB := by
  have hzeros : Stores.storeAll (fun r : Nat => (r : Int)) (fun _ _ => (0 : T)) schedule.zeros C =
      Stores.storeAll (fun r : Nat => (r : Int)) (fun _ _ => 0) (List.range (M * N)) C := by
    apply Stores.storeAll_perm schedule.zeros_perm
    · exact List.nodup_range.map Int.ofNat_injective
    · exact fun _ _ _ _ _ _ _ => rfl
  have hcells : ((positions M N).map fun p : Nat × Nat =>
      (linearIndexF M N p.1 p.2 : Int)).Nodup := by
    apply List.Nodup.map_on _ (nodup_positions M N)
    intro p hp q hq heq
    exact linearIndexF_inj hp hq (Int.ofNat.inj heq)
  unfold gemmBy gemm
  rw [transposeBy_eq schedule.stepsA_perm, transposeBy_eq schedule.stepsB_perm, hzeros]
  apply Stores.storeAll_perm schedule.steps_perm hcells
  intro p _ q _ hne memory b
  simp only [Function.update_of_ne hne]

/-- An entry of `op` of a matrix that lies densely in column-major order. -/
def opEntry (flag : TransposeFlag) (rows cols : Nat) (A : Int → T) (r c : Nat) : T :=
  match flag with
  | .noTrans => A (linearIndexF rows cols r c)
  | .trans => A (linearIndexF cols rows c r)

omit [CommRing T] [DecidableEq T] in
theorem opEntry_eq_cellA (flag : TransposeFlag) (rows cols : Nat) (A : Int → T) (r c : Nat) :
    opEntry flag rows cols A r c = A (cellA flag rows cols r c) := by
  cases flag with
  | noTrans => rfl
  | trans => rfl

omit [CommRing T] [DecidableEq T] in
theorem opEntry_eq_cellB (flag : TransposeFlag) (rows cols : Nat) (A : Int → T) (r c : Nat) :
    opEntry flag rows cols A r c = A (cellB flag rows cols r c) := by
  cases flag with
  | noTrans => rfl
  | trans => rfl

/-- With either flag for each factor, every entry of the result is that of
`alpha * op(A) * op(B) + beta * C`, and no other cell changes. -/
theorem gemm_computes {M N K : Nat} (schedule : GemmSchedule M N K) (transA transB : TransposeFlag)
    (alpha : T) (A B : Int → T) (beta : T) (C newA newB : Int → T) :
    (∀ r < M, ∀ c < N,
      gemmBy schedule transA transB alpha A B beta C newA newB (linearIndexF M N r c) =
        alpha * ∑ k ∈ Finset.range K, opEntry transA M K A r k * opEntry transB K N B k c +
          beta * C (linearIndexF M N r c)) ∧
      ∀ i : Int, ¬ (0 ≤ i ∧ i < (M * N : Nat)) →
        gemmBy schedule transA transB alpha A B beta C newA newB i = C i := by
  rw [gemmBy_eq]
  refine ⟨fun r hr c hc => ?_, fun i hi => ?_⟩
  · rw [gemm_apply transA transB K alpha A B beta C newA newB hr hc]
    congr 2
    refine Finset.sum_congr rfl fun k _ => ?_
    rw [opEntry_eq_cellA, opEntry_eq_cellB]
  · exact gemm_apply_of_outside transA transB K alpha A B beta C newA newB hi

end Schedules

end Blas
end LibND4J
