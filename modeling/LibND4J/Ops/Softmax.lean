import LibND4J.Arrays.ChannelStatistics
import LibND4J.Library.Levels
import LibND4J.Ops.SoftmaxBp

/-!
# Softmax

`SoftMax`, `LogSoftMax` and `SoftMaxDerivative` subtract the maxima of the rows of a
matrix, take exponentials and divide by the sums of the rows; a vector is walked by its element-wise
stride instead.  The last two look for a matrix in the first slots of the shape information, which
hold the rank and the first extent.  The last one reads its result for its input.

Main results:

- Theorem `share_sub`: what is subtracted from a row does not matter.
- Theorem `softMaxRows_spec`: the rows of a matrix, for a result of any layout.
- Theorem `softMaxLoops_spec`: the loops over a vector.
- Theorem `normalisesRows_iff`: the layouts for which the operations are right.
-/

namespace LibND4J
namespace Ops

open Strided Shape Loops Arrays Stores

/-! ## The operations -/

/-- `exp`, and `log`, its inverse on the positive numbers. -/
structure Exponential (T : Type) [Field T] [LinearOrder T] where
  exp : T → T
  log : T → T
  exp_pos : ∀ a, 0 < exp a
  exp_sub : ∀ a b, exp (a - b) = exp a / exp b
  log_exp : ∀ a, log (exp a) = a
  exp_log : ∀ a, 0 < a → exp (log a) = a

section Operations

variable {T : Type} [Field T] [LinearOrder T]

/-- The operation `Max`. -/
def maxOf (T : Type) [LinearOrder T] : ReduceOp T Unit where
  startingValue := fun x => x 0
  update := fun old opOutput _ => max opOutput old
  op := fun d1 _ => d1
  postProcess := fun reduction _ _ => reduction

/-- `ReduceFunction::exec` along the second axis, into a column. -/
def reduceRows (opType : ReduceOp T Unit) (run : Runtime T) (array : NDArray T) :
    Except Failure (NDArray T) :=
  NDArray.reduced (opType.reduceAlongDimension array.shapeInfo.length run.settings array.buffer
    array.shapeInfo () [1])

/-- The first axis of a matrix. -/
def rowsAxis {rank : Nat} (hrank : rank = 2) : AxisList rank where
  toList := [0]
  nodup := List.nodup_singleton 0
  lt_rank := (firstAxis hrank).lt_rank

/-- `Broadcast::exec` along the first axis, with the tensors of the first array for all. -/
def broadcastRows (op : T → T → T) (run : Runtime T) (inPlace : Bool)
    (array column target : NDArray T) : Except Failure (NDArray T) :=
  if hrank : array.shapeInfo.rank = 2 then
    match applyBroadcast array.shapeInfo (rowsAxis hrank) column.shapeInfo with
    | .ok (some work) => .ok ⟨target.shapeInfo,
        runBroadcast op inPlace array.buffer column.buffer (run.schedule work) target.buffer⟩
    | _ => .error .undefined
  else .error .undefined

/-- `Transform::exec` of an array into itself. -/
def transformInto (op : T → T) (run : Runtime T) (array : NDArray T) :
    Except Failure (NDArray T) :=
  match transformExec run.settings array.shapeInfo array.shapeInfo 0 0 with
  | none => .error .undefined
  | some work => .ok ⟨array.shapeInfo, runPairs op true array.buffer (run.schedule work)
      array.buffer⟩

/-- The five steps for a matrix: the maxima of `x` are subtracted from another array. -/
def softMaxRows (E : Exponential T) (run : Runtime T) (inPlace : Bool)
    (x array result : NDArray T) : Except Failure (NDArray T) := do
  let maxResult ← reduceRows (maxOf T) run x
  let result ← broadcastRows (fun d1 d2 => d1 - d2) run inPlace array maxResult result
  let result ← transformInto E.exp run result
  let maxResult ← reduceRows (sumAll T) run result
  broadcastRows (fun d1 d2 => d1 / d2) run true result maxResult result

/-- The cells that a loop walks. -/
def strideCells (length : Nat) (elementWiseStride : Int) : List Int :=
  (List.range length).map fun i : Nat => i * elementWiseStride

/-- The loop for the maximum of a vector. -/
def maxLoop (floatMax : T) (x : Int → T) (cells : List Int) : T :=
  cells.foldl (fun m cell => max m (x cell)) (-floatMax)

/-- The loops over a vector: exponentials, their sum, and the division. -/
def softMaxLoops (E : Exponential T) (max : T) (length : Nat) (stride resultStride : Int)
    (inPlace : Bool) (dx result : Int → T) : Int → T :=
  let result := storeAll (fun i : Nat => i * resultStride)
    (fun i m => E.exp ((if inPlace then m else dx) (i * stride) - max)) (List.range length) result
  let sum := (strideCells length resultStride).foldl (fun sum cell => sum + result cell) 0
  storeAll id (fun cell m => m cell / sum) (strideCells length resultStride) result

/-- A loop over cells that changes each of them. -/
def mapCells (op : T → T) (cells : List Int) (result : Int → T) : Int → T :=
  storeAll id (fun cell m => op (m cell)) cells result

/-- The cells that the derivative of a matrix walks. -/
def derivativeCells (z : ShapeInfo) (length : Nat) : List Int :=
  if z.elementWiseStride ≥ 1 then strideCells length z.elementWiseStride
  else (List.range length).map fun i => getOffset 0 z.shape z.stride (ind2subC z.shape i)

/-- `isMatrix` of shape information in place of a shape. -/
def slotsAreMatrix (info : ShapeInfo) : Bool :=
  ¬ (info.rank = 1 ∨ info.shape.getD 0 0 = 1)

/-- `SoftMax::execSpecial`. -/
def SoftMax.execSpecial (E : Exponential T) (floatMax : T) (run : Runtime T) (inPlace : Bool)
    (x result : NDArray T) : Except Failure (NDArray T) :=
  if isMatrix x.shapeInfo then softMaxRows E run inPlace x x result
  else if isVector x.shapeInfo then
    let length := x.shapeInfo.length
    let elementWiseStride := x.shapeInfo.elementWiseStride
    let resultElementWiseStride := result.shapeInfo.elementWiseStride
    if elementWiseStride ≥ 1 ∧ resultElementWiseStride ≥ 1 then
      let max := maxLoop floatMax x.buffer (strideCells length elementWiseStride)
      .ok ⟨result.shapeInfo, softMaxLoops E max length elementWiseStride resultElementWiseStride
        inPlace x.buffer result.buffer⟩
    else .ok result
  else .ok result

/-- `LogSoftMax::execSpecial`; what is not a matrix by its slots is a vector by them. -/
def LogSoftMax.execSpecial (E : Exponential T) (floatMax : T) (run : Runtime T) (inPlace : Bool)
    (x result : NDArray T) : Except Failure (NDArray T) :=
  if slotsAreMatrix x.shapeInfo then
    softMaxRows E run inPlace x x result >>= transformInto E.log run
  else
    let length := x.shapeInfo.length
    let elementWiseStride := x.shapeInfo.elementWiseStride
    if elementWiseStride ≥ 1 then
      let cells := strideCells length elementWiseStride
      let max := maxLoop floatMax result.buffer cells
      .ok ⟨result.shapeInfo, mapCells E.log cells (softMaxLoops E max length elementWiseStride
        elementWiseStride inPlace x.buffer result.buffer)⟩
    else .ok result

/-- `SoftMaxDerivative::execSpecial`. -/
def SoftMaxDerivative.execSpecial (E : Exponential T) (floatMax : T) (run : Runtime T)
    (x result : NDArray T) : Except Failure (NDArray T) :=
  let length := x.shapeInfo.length
  let derivative : T → T := fun s => s * (1 - s)
  if slotsAreMatrix x.shapeInfo then do
    let result ← softMaxRows E run true x result result
    .ok ⟨result.shapeInfo,
      mapCells derivative (derivativeCells result.shapeInfo length) result.buffer⟩
  else
    let elementWiseStride := x.shapeInfo.elementWiseStride
    if elementWiseStride ≥ 1 then
      let cells := strideCells length elementWiseStride
      let max := maxLoop floatMax result.buffer cells
      .ok ⟨result.shapeInfo, mapCells derivative cells (softMaxLoops E max length
        elementWiseStride elementWiseStride true result.buffer result.buffer)⟩
    else .ok result

/-- The three operations. -/
inductive SoftmaxOp
  | softMax
  | logSoftMax
  | softMaxDerivative
deriving DecidableEq, Repr

/-- What becomes of a share. -/
def SoftmaxOp.finish (E : Exponential T) : SoftmaxOp → T → T
  | .softMax, s => s
  | .logSoftMax, s => E.log s
  | .softMaxDerivative, s => s * (1 - s)

/-- `execSpecial` of the operations. -/
def SoftmaxOp.execSpecial (E : Exponential T) (floatMax : T) (run : Runtime T) (inPlace : Bool)
    (x result : NDArray T) : SoftmaxOp → Except Failure (NDArray T)
  | .softMax => SoftMax.execSpecial E floatMax run inPlace x result
  | .logSoftMax => LogSoftMax.execSpecial E floatMax run inPlace x result
  | .softMaxDerivative => SoftMaxDerivative.execSpecial E floatMax run x result

end Operations

/-! ## Shares -/

section Shares

variable {T : Type} [Field T] [LinearOrder T] [IsStrictOrderedRing T] (E : Exponential T)

/-- The share of an entry in the exponentials of a row. -/
def share (w : Nat → T) (n j : Nat) : T :=
  E.exp (w j) / ∑ k ∈ Finset.range n, E.exp (w k)

omit [IsStrictOrderedRing T] in
theorem Exponential.exp_zero : E.exp 0 = 1 := by
  have hzero := E.exp_sub 0 0
  rwa [sub_zero, div_self (E.exp_pos 0).ne'] at hzero

omit [IsStrictOrderedRing T] in
theorem Exponential.exp_injective : Function.Injective E.exp :=
  Function.LeftInverse.injective E.log_exp

variable {n l : Nat}

theorem sum_exp_pos (w : Nat → T) (hn : 0 < n) : 0 < ∑ k ∈ Finset.range n, E.exp (w k) :=
  Finset.sum_pos (fun k _ => E.exp_pos (w k)) ⟨0, Finset.mem_range.mpr hn⟩

theorem share_pos (w : Nat → T) (hn : 0 < n) (j : Nat) : 0 < share E w n j :=
  div_pos (E.exp_pos (w j)) (sum_exp_pos E w hn)

omit [IsStrictOrderedRing T] in
/-- What is subtracted from all entries does not matter. -/
theorem share_sub (w : Nat → T) (c : T) (n j : Nat) :
    share E (fun k => w k - c) n j = share E w n j := by
  simp only [share, E.exp_sub]
  rw [← Finset.sum_div, div_div_div_cancel_right₀ (E.exp_pos c).ne']

omit [IsStrictOrderedRing T] in
theorem share_congr {w w' : Nat → T} {j : Nat} (hj : j < n) (h : ∀ k < n, w k = w' k) :
    share E w n j = share E w' n j := by
  rw [share, share, h j hj]
  congr 1
  exact Finset.sum_congr rfl fun k hk => by rw [h k (Finset.mem_range.mp hk)]

omit [IsStrictOrderedRing T] in
/-- Equal entries have equal shares. -/
theorem share_const (v : T) (n j : Nat) : share E (fun _ => v) n j = 1 / n := by
  rw [share, Finset.sum_const, Finset.card_range, nsmul_eq_mul,
    div_mul_cancel_right₀ (E.exp_pos v).ne', one_div]

/-- Zeros, but for one entry. -/
def singleEntry (v : T) (l k : Nat) : T :=
  if k = l then v else 0

omit [IsStrictOrderedRing T] in
theorem sum_exp_single (v : T) (hl : l < n) :
    ∑ k ∈ Finset.range n, E.exp (singleEntry v l k) = E.exp v + (n - 1) := by
  have hterm : ∀ k, E.exp (singleEntry v l k) = (if k = l then E.exp v - 1 else 0) + 1 := by
    intro k
    rw [singleEntry]
    split
    · rw [sub_add_cancel]
    · rw [E.exp_zero, zero_add]
  simp only [hterm, Finset.sum_add_distrib, Finset.sum_ite_eq', Finset.mem_range, if_pos hl,
    Finset.sum_const, Finset.card_range, nsmul_eq_mul, mul_one]
  ring

omit [IsStrictOrderedRing T] in
theorem share_single (v : T) (hl : l < n) (j : Nat) :
    share E (singleEntry v l) n j = E.exp (singleEntry v l j) / (E.exp v + (n - 1)) := by
  rw [share, sum_exp_single E v hl]

theorem sum_single_pos (v : T) (hn : 0 < n) : 0 < E.exp v + ((n : T) - 1) := by
  rw [← sum_exp_single E v hn]
  exact sum_exp_pos E (singleEntry v 0) hn

/-- The share of the entry is not that of a zero. -/
theorem share_single_ne {v : T} (hv : v ≠ 0) {l' j : Nat} (hl : l < n) (hl' : l' < n)
    (hne : j ≠ l') : share E (singleEntry v l) n l ≠ share E (singleEntry v l') n j := by
  intro heq
  rw [share_single E v hl, share_single E v hl',
    div_left_inj' (sum_single_pos E v (by omega)).ne', singleEntry, singleEntry, if_pos rfl,
    if_neg hne] at heq
  exact hv (E.exp_injective heq)

/-- The share of the entry is not that of equal entries. -/
theorem share_single_ne_const {v : T} (hv : v ≠ 0) (hl : l < n) (hn : 2 ≤ n) :
    share E (singleEntry v l) n l ≠ 1 / n := by
  intro heq
  have hcast : (2 : T) ≤ n := by exact_mod_cast hn
  rw [share_single E v hl, singleEntry, if_pos rfl,
    div_eq_div_iff (sum_single_pos E v (by omega)).ne' (by linarith)] at heq
  have hproduct : (E.exp v - 1) * ((n : T) - 1) = 0 := by linear_combination heq
  rcases mul_eq_zero.mp hproduct with hone | hone
  · exact hv (E.exp_injective ((sub_eq_zero.mp hone).trans E.exp_zero.symm))
  · linarith

/-- The derivative at the share of one of two entries is not that at equal ones. -/
theorem exists_derivative_ne (hn : 2 ≤ n) : ∃ v : T,
    share E (singleEntry v 0) n 0 * (1 - share E (singleEntry v 0) n 0) ≠ 1 / n * (1 - 1 / n) := by
  by_contra hall
  push Not at hall
  have hother : ∀ v : T, v ≠ 0 → share E (singleEntry v 0) n 0 = 1 - 1 / n := by
    intro v hv
    have hne := share_single_ne_const E hv (show 0 < n by omega) hn
    have hproduct : (share E (singleEntry v 0) n 0 - 1 / n) *
        (1 - 1 / n - share E (singleEntry v 0) n 0) = 0 := by linear_combination hall v
    rcases mul_eq_zero.mp hproduct with hzero | hzero
    · exact absurd (sub_eq_zero.mp hzero) hne
    · exact (sub_eq_zero.mp hzero).symm
  have hboth := (hother 1 one_ne_zero).trans (hother (-1) (by norm_num)).symm
  have hcast : (2 : T) ≤ n := by exact_mod_cast hn
  rw [share_single E 1 (by omega), share_single E (-1) (by omega), singleEntry, singleEntry,
    if_pos rfl, if_pos rfl, div_eq_div_iff (sum_single_pos E 1 (by omega)).ne'
      (sum_single_pos E (-1) (by omega)).ne'] at hboth
  have hproduct : (E.exp 1 - E.exp (-1)) * ((n : T) - 1) = 0 := by linear_combination hboth
  rcases mul_eq_zero.mp hproduct with hsame | hone
  · have := E.exp_injective (sub_eq_zero.mp hsame)
    linarith
  · linarith

omit [IsStrictOrderedRing T] in
theorem share_one (w : Nat → T) : share E w 1 0 = 1 := by
  rw [share, Finset.sum_range_one, div_self (E.exp_pos _).ne']

end Shares

/-! ## The steps -/

section Steps

variable {T : Type} {array column target x result : NDArray T} {m n : Nat}
    {info : ShapeInfo} {i j : Nat} {cell : Int}

variable (h : MatrixLayout info m n)

include h

theorem MatrixLayout.inBox (hi : i < m) (hj : j < n) : InBox info.shape [i, j] := by
  rw [h.shape_eq]
  exact inBox_pair.mpr ⟨hi, hj⟩

theorem MatrixLayout.positive (hm : 0 < m) (hn : 0 < n) : info.Positive := by
  rw [ShapeInfo.Positive, h.shape_eq]
  simp [hm, hn]

/-- Different places have different cells. -/
theorem MatrixLayout.cell_ne {i' j' : Nat} (hi : i < m) (hj : j < n) (hi' : i' < m) (hj' : j' < n)
    (hne : [i, j] ≠ [i', j']) :
    Strided.dot [i, j] info.stride ≠ Strided.dot [i', j'] info.stride := fun heq =>
  hne (h.cellsApart _ _ (h.inBox hi hj) (h.inBox hi' hj') heq)

theorem element_cell (buffer : Int → T) (hi : i < m) (hj : j < n) :
    (NDArray.mk info buffer).element [i, j] = buffer (Strided.dot [i, j] info.stride) :=
  element_eq (h.inBox hi hj)

/-- A vector with an element-wise stride lies in even steps. -/
theorem MatrixLayout.line_cell (hline : m = 1 ∨ n = 1) (hews : 1 ≤ info.elementWiseStride)
    (hi : i < m) (hj : j < n) :
    Strided.dot [i, j] info.stride = (i + j : Nat) * info.elementWiseStride := by
  have hpos := h.positive (Nat.zero_lt_of_lt hi) (Nat.zero_lt_of_lt hj)
  have hplace : decode info.shape (i + j) = [i, j] ∧ i + j < info.shape.prod ∧
      IsLine info.shape := by
    rw [h.shape_eq]
    rcases hline with rfl | rfl
    · obtain rfl : i = 0 := by omega
      exact ⟨by simp [decode, Nat.div_eq_of_lt hj, Nat.mod_eq_of_lt hj], by simpa using hj,
        isLine_row n⟩
    · obtain rfl : j = 0 := by omega
      exact ⟨by simp [decode, Nat.mod_one], by simpa using hi,
        isLine_column m⟩
  obtain ⟨hdecode, hindex, hone⟩ := hplace
  have hsame := (forall_coordinateOf_iff hpos).mpr hone _ hindex
  rw [← h.honest hews _ hindex, elementOffset_eq_dot, ← hdecode]
  cases info.isFOrder with
  | false => rfl
  | true => rw [← hsame]; rfl

omit h

/-- A column is combined with all columns, in the cells of the first array. -/
theorem broadcastRows_spec (op : T → T → T) (run : Runtime T) {inPlace : Bool} (hm : 0 < m)
    (hn : 0 < n) (harray : MatrixLayout array.shapeInfo m n)
    (hcolumn : column.shapeInfo.shape = [m, 1]) (hews : column.shapeInfo.HonestEws)
    (hplace : inPlace = true → target.buffer = array.buffer) :
    ∃ buffer, broadcastRows op run inPlace array column target = .ok ⟨target.shapeInfo, buffer⟩ ∧
      (∀ i < m, ∀ j < n, buffer (Strided.dot [i, j] array.shapeInfo.stride) =
        op (array.element [i, j]) (column.element [i, 0])) ∧
      ∀ cell, (∀ i < m, ∀ j < n, cell ≠ Strided.dot [i, j] array.shapeInfo.stride) →
        buffer cell = target.buffer cell := by
  have hrank : array.shapeInfo.rank = 2 := by rw [ShapeInfo.rank, harray.shape_eq]; rfl
  have hlength : column.shapeInfo.length = m := by simp [ShapeInfo.length, hcolumn]
  have hcolumnLayout : ∀ {i}, i < m → InBox column.shapeInfo.shape [i, 0] := fun hi => by
    rw [hcolumn]
    exact inBox_pair.mpr ⟨hi, Nat.one_pos⟩
  obtain ⟨work, hwork, hwrites⟩ := @applyBroadcast_line array.shapeInfo column.shapeInfo
    (rowsAxis hrank) rfl (by omega) (by rw [hrank]; decide) (harray.positive hm hn) harray.honest
    harray.cellsApart (by rw [ShapeInfo.Positive, hcolumn]; simp [hm])
    (by rw [hcolumn]; exact isLine_column m) hews (by rw [harray.shape_eq, hlength]; rfl)
  obtain ⟨hvalue, hframe⟩ := hwrites T op inPlace _ (run.schedule_perm work) array.buffer
    column.buffer target.buffer hplace
  refine ⟨_, by rw [broadcastRows, dif_pos hrank, hwork], fun i hi j hj => ?_, fun cell hcell =>
    hframe cell fun c hc => ?_⟩
  · have hkept : (rowsAxis hrank).kept [i, j] = [i] := rfl
    have hshape : (rowsAxis hrank).kept array.shapeInfo.shape = [m] := by rw [harray.shape_eq]; rfl
    have hindex : encode [m] [i] = i := by simp [encode]
    have hplace : decode [m, 1] i = [i, 0] := by simp [decode, Nat.mod_one]
    rw [hvalue _ (harray.inBox hi hj), element_eq (harray.inBox hi hj),
      element_eq (hcolumnLayout hi), broadcastOffset, hkept, hshape, hindex, offsetAt_eq_dot,
      ShapeInfo.dims_axes, ShapeInfo.map_snd_axes, hcolumn, hplace]
  · obtain ⟨i, hi, j, hj, rfl⟩ := exists_pair (harray.shape_eq ▸ hc)
    exact hcell i hi j hj

/-- A transform of a matrix into itself. -/
theorem transformInto_spec (op : T → T) (run : Runtime T) (hm : 0 < m) (hn : 0 < n)
    (harray : MatrixLayout array.shapeInfo m n) (hspan : SpanFits run.settings (m * n)) :
    ∃ buffer, transformInto op run array = .ok ⟨array.shapeInfo, buffer⟩ ∧
      ∀ i < m, ∀ j < n,
        (NDArray.mk array.shapeInfo buffer).element [i, j] = op (array.element [i, j]) := by
  have hlength : array.shapeInfo.length = m * n := length_of_shape harray.shape_eq
  obtain ⟨work, hwork, hperm⟩ := @transformExec_visits array.shapeInfo array.shapeInfo 0 0
    run.settings rfl (harray.positive hm hn) harray.honest harray.honest (hlength ▸ hspan)
  refine ⟨_, by rw [transformInto, hwork], fun i hi j hj => ?_⟩
  exact elements_of_pairs op true run rfl (harray.positive hm hn) harray.cellsApart hperm
    (fun _ => rfl) (harray.inBox hi hj)

/-- The maximum is lawful on all values. -/
theorem maxOf_lawful [LinearOrder T] (elements : Set T) :
    (maxOf T).Lawful () elements Set.univ where
  start := fun _ _ h => h
  op_mem := fun _ _ => Set.mem_univ _
  regular := fun _ _ =>
    { start_mem := Set.mem_univ _
      closed := fun _ _ _ _ => Set.mem_univ _
      comm := fun a _ b _ => max_comm b a
      assoc := fun a _ b _ c _ => by
        show max c (max b a) = max (max c b) a
        exact (max_assoc c b a).symm
      absorb := fun a _ => by
        show max (max a _) _ = max a _
        rw [max_assoc, max_self] }

variable [Field T]

theorem reduceRows_spec {opType : ReduceOp T Unit}
    (hlaw : ∀ elements, opType.Lawful () elements Set.univ) (run : Runtime T) (hm : 0 < m)
    (hn : 0 < n) (harray : MatrixLayout array.shapeInfo m n) :
    ∃ column, reduceRows opType run array = .ok column ∧ column.shapeInfo.shape = [m, 1] ∧
      column.shapeInfo.HonestEws ∧ ∀ i < m, column.element [i, 0] =
        opType.reduceValues () (fun j => array.element [i, j]) n := by
  have hdimensions : ∀ {rank : Nat} (hrank : rank = 2),
      checkDimensions rank [1] = .ok (Arrays.lastAxis hrank) := by
    rintro _ rfl
    rfl
  obtain ⟨column, hcolumn, hshape, hhonest, helement⟩ := reduceAlong_columns hlaw run array
    hdimensions harray.shape_eq hm hn harray.honest
  refine ⟨NDArray.ofReduced column, by rw [reduceRows, hcolumn]; rfl, hshape, hhonest,
    fun i hi => ?_⟩
  have hplace : decode [m, 1] i = [i, 0] := by simp [decode, Nat.mod_one]
  rw [← helement i hi, hplace]
  rfl

variable [LinearOrder T]

/-- The maximum of a row. -/
def rowMax (array : NDArray T) (n i : Nat) : T :=
  (maxOf T).reduceValues () (fun j => array.element [i, j]) n

/-- The first two steps leave differences in the cells of the array. -/
structure ShiftsRows (x array target : NDArray T) (m n : Nat) (shifted : Int → T) : Prop where
  value : ∀ i < m, ∀ j < n, shifted (Strided.dot [i, j] array.shapeInfo.stride) =
    array.element [i, j] - rowMax x n i
  frame : ∀ cell, (∀ i < m, ∀ j < n, cell ≠ Strided.dot [i, j] array.shapeInfo.stride) →
    shifted cell = target.buffer cell

/-- The rows of a matrix, for a result of any layout. -/
theorem softMaxRows_spec (E : Exponential T) (run : Runtime T) {inPlace : Bool} (hm : 0 < m)
    (hn : 0 < n) (hx : MatrixLayout x.shapeInfo m n) (harray : MatrixLayout array.shapeInfo m n)
    (htarget : MatrixLayout target.shapeInfo m n) (hspan : SpanFits run.settings (m * n))
    (hplace : inPlace = true → target.buffer = array.buffer) :
    ∃ buffer shifted, softMaxRows E run inPlace x array target = .ok ⟨target.shapeInfo, buffer⟩ ∧
      ShiftsRows x array target m n shifted ∧ ∀ i < m, ∀ j < n,
        buffer (Strided.dot [i, j] target.shapeInfo.stride) =
          share E (fun k => shifted (Strided.dot [i, k] target.shapeInfo.stride)) n j := by
  obtain ⟨maxima, hmaxima, hmaxShape, hmaxEws, hmax⟩ := reduceRows_spec maxOf_lawful run hm hn hx
  obtain ⟨shifted, hshifted, hvalue, hframe⟩ := broadcastRows_spec (fun d1 d2 => d1 - d2) run
    hm hn harray hmaxShape hmaxEws hplace
  obtain ⟨powers, hpowers, hpower⟩ := @transformInto_spec T ⟨target.shapeInfo, shifted⟩ m n E.exp
    run hm hn htarget hspan
  obtain ⟨sums, hsums, hsumShape, hsumEws, hsum⟩ := @reduceRows_spec T ⟨target.shapeInfo, powers⟩
    m n _ (sumAll T) sumAll_lawful run hm hn htarget
  obtain ⟨buffer, hbuffer, hquotient, -⟩ := @broadcastRows_spec T ⟨target.shapeInfo, powers⟩ sums
    ⟨target.shapeInfo, powers⟩ m n (fun d1 d2 => d1 / d2) run true hm hn htarget hsumShape hsumEws
    fun _ => rfl
  refine ⟨buffer, shifted, ?_, ⟨fun i hi j hj => ?_, hframe⟩, fun i hi j hj => ?_⟩
  · rw [softMaxRows, hmaxima]
    show (broadcastRows _ run inPlace array maxima target >>= _) = _
    rw [hshifted]
    show (transformInto E.exp run _ >>= _) = _
    rw [hpowers]
    show (reduceRows _ run _ >>= _) = _
    rw [hsums]
    exact hbuffer
  · rw [hvalue i hi j hj, hmax i hi, rowMax]
  · have hpower' : ∀ k < n, (NDArray.mk target.shapeInfo powers).element [i, k] =
        E.exp (shifted (Strided.dot [i, k] target.shapeInfo.stride)) := fun k hk => by
      rw [hpower i hi k hk, element_cell htarget shifted hi hk]
    rw [hquotient i hi j hj, hsum i hi, reduceValues_sumAll, hpower' j hj, share]
    congr 1
    exact Finset.sum_congr rfl fun k hk => hpower' k (Finset.mem_range.mp hk)

omit [Field T] [LinearOrder T] in
theorem mapCells_of_mem (op : T → T) {cells : List Int} (hcells : cells.Nodup) (buffer : Int → T)
    (hcell : cell ∈ cells) : mapCells op cells buffer cell = op (buffer cell) :=
  foldl_update_of_nodup (fun _ b => op b) hcells buffer hcell

omit [Field T] [LinearOrder T] in
theorem mapCells_of_not_mem (op : T → T) {cells : List Int} (buffer : Int → T)
    (hcell : cell ∉ cells) : mapCells op cells buffer cell = buffer cell :=
  storeAll_of_not_written (fun v hv (heq : v = cell) => hcell (heq ▸ hv)) buffer

theorem mem_strideCells {length : Nat} {stride : Int} :
    cell ∈ strideCells length stride ↔ ∃ k < length, (k : Int) * stride = cell := by
  simp [strideCells]

theorem nodup_strideCells (length : Nat) {stride : Int} (hstride : 1 ≤ stride) :
    (strideCells length stride).Nodup :=
  List.nodup_range.map fun _ _ heq => Int.ofNat_injective (mul_right_cancel₀ (by omega) heq)

/-- The loops over a vector leave shares; in place they read what they write. -/
theorem softMaxLoops_spec (E : Exponential T) (max : T) (length : Nat) (stride resultStride : Int)
    (inPlace : Bool) (hstride : 1 ≤ resultStride) (hplace : inPlace = true → stride = resultStride)
    (dx buffer : Int → T) :
    (∀ i < length, softMaxLoops E max length stride resultStride inPlace dx buffer
        (i * resultStride) =
      share E (fun k => (if inPlace then buffer else dx) (k * stride)) length i) ∧
    ∀ cell ∉ strideCells length resultStride,
      softMaxLoops E max length stride resultStride inPlace dx buffer cell = buffer cell := by
  have hcells := nodup_strideCells length hstride
  have hmem : ∀ i < length, (i : Int) * resultStride ∈ strideCells length resultStride :=
    fun i hi => mem_strideCells.mpr ⟨i, hi, rfl⟩
  obtain ⟨powers, hpowers⟩ : ∃ powers, powers = storeAll (fun i : Nat => (i : Int) * resultStride)
      (fun i m => E.exp ((if inPlace then m else dx) (i * stride) - max)) (List.range length)
      buffer := ⟨_, rfl⟩
  have hpower : ∀ i < length, powers (i * resultStride) =
      E.exp ((if inPlace then buffer else dx) (i * stride) - max) := by
    intro i hi
    rw [hpowers]
    refine storeAll_of_independent hcells (fun v _ w _ hne memory value => ?_) buffer
      (List.mem_range.mpr hi)
    cases inPlace with
    | false => rfl
    | true =>
        simp only [if_true]
        rw [Function.update_of_ne (by rwa [hplace rfl])]
  have hloops : softMaxLoops E max length stride resultStride inPlace dx buffer =
      mapCells (· / ∑ k ∈ Finset.range length, powers (k * resultStride))
        (strideCells length resultStride) powers := by
    have hsum : (strideCells length resultStride).foldl (fun sum cell => sum + powers cell) 0 =
        ∑ k ∈ Finset.range length, powers (k * resultStride) := by
      rw [Accumulation.foldl_add_eq, zero_add, strideCells, List.map_map]
      rfl
    rw [← hsum, hpowers]
    rfl
  rw [hloops]
  constructor
  · intro i hi
    have hall : ∑ k ∈ Finset.range length, powers (k * resultStride) =
        ∑ k ∈ Finset.range length,
          E.exp ((if inPlace then buffer else dx) (k * stride) - max) :=
      Finset.sum_congr rfl fun k hk => hpower k (Finset.mem_range.mp hk)
    rw [mapCells_of_mem _ hcells powers (hmem i hi), hpower i hi, hall]
    exact share_sub E (fun k => (if inPlace then buffer else dx) (k * stride)) max length i
  · intro cell hcell
    rw [mapCells_of_not_mem _ powers hcell, hpowers]
    exact storeAll_of_not_written (fun k hk heq =>
      hcell (mem_strideCells.mpr ⟨k, List.mem_range.mp hk, heq⟩)) buffer

end Steps

/-! ## When the operations are right -/

/-- An array and its result, which is the array itself in place. -/
structure SoftmaxLayouts {T : Type} (run : Runtime T) (inPlace : Bool) (x z : ShapeInfo)
    (m n : Nat) : Prop where
  rows_pos : 0 < m
  columns_pos : 0 < n
  array : MatrixLayout x m n
  result : MatrixLayout z m n
  same : inPlace = true → z = x
  span : SpanFits run.settings (m * n)

/-- The elements lie in the same cells. -/
def SameCells (x z : ShapeInfo) (m n : Nat) : Prop :=
  ∀ i < m, ∀ j < n, Strided.dot [i, j] z.stride = Strided.dot [i, j] x.stride

/-- The layouts for which an operation is right. -/
def NormalisesWhere (inPlace : Bool) (x z : ShapeInfo) (m n : Nat) : SoftmaxOp → Prop
  | .softMax => if 2 ≤ m ∧ 2 ≤ n then SameCells x z m n
      else 1 ≤ x.elementWiseStride ∧ 1 ≤ z.elementWiseStride
  | .logSoftMax => if 2 ≤ m then 2 ≤ n ∧ SameCells x z m n
      else 1 ≤ x.elementWiseStride ∧ SameCells x z m n
  | .softMaxDerivative => if 2 ≤ m then 2 ≤ n ∧ inPlace = true
      else 1 ≤ x.elementWiseStride ∧ (inPlace = true ∨ n = 1)

section Right

variable {T : Type} [Field T] [LinearOrder T] {E : Exponential T} {floatMax : T}
  {run : Runtime T} {inPlace : Bool} {x z : ShapeInfo} {m n : Nat} {op : SoftmaxOp}

/-- The share of an element: in its row, or in a column vector. -/
def wantedShare (E : Exponential T) (array : NDArray T) (m n i j : Nat) : T :=
  if n = 1 then share E (fun k => array.element [k, 0]) m i
  else share E (fun k => array.element [i, k]) n j

/-- An operation is right for all contents. -/
def NormalisesRows (E : Exponential T) (floatMax : T) (run : Runtime T) (inPlace : Bool)
    (x z : ShapeInfo) (m n : Nat) (op : SoftmaxOp) : Prop :=
  ∀ xs zs : Int → T, (inPlace = true → zs = xs) →
    ∃ buffer, op.execSpecial E floatMax run inPlace ⟨x, xs⟩ ⟨z, zs⟩ = .ok ⟨z, buffer⟩ ∧
      ∀ i < m, ∀ j < n, (NDArray.mk z buffer).element [i, j] =
        op.finish E (wantedShare E ⟨x, xs⟩ m n i j)

/-- The array that the differences are made of. -/
def SoftmaxOp.source {α : Type} (a b : α) : SoftmaxOp → α
  | .softMaxDerivative => b
  | _ => a

theorem slotsAreMatrix_iff (hx : MatrixLayout x m n) : slotsAreMatrix x = true ↔ m ≠ 1 := by
  simp [slotsAreMatrix, ShapeInfo.rank, hx.shape_eq]

variable {i j : Nat}

omit [Field T] [LinearOrder T] in
/-- The last loop of the derivative changes the elements. -/
theorem mapCells_derivative (op : T → T) (hz : MatrixLayout z m n) (hm : 0 < m) (hn : 0 < n)
    (buffer : Int → T) (hi : i < m) (hj : j < n) :
    mapCells op (derivativeCells z (m * n)) buffer (Strided.dot [i, j] z.stride) =
      op (buffer (Strided.dot [i, j] z.stride)) := by
  have hpos := hz.positive hm hn
  obtain ⟨flag, hcells⟩ : ∃ flag, derivativeCells z (m * n) =
      (List.range z.length).map (elementOffset flag z.axes) := by
    rw [derivativeCells, ← length_of_shape hz.shape_eq]
    split
    · rename_i hews
      exact ⟨z.isFOrder, List.map_congr_left fun k hk =>
        (hz.honest hews k (List.mem_range.mp hk)).symm⟩
    · refine ⟨false, List.map_congr_left fun k hk => ?_⟩
      have hk := List.mem_range.mp hk
      rw [getOffset_ind2subC hpos hk, zero_add, elementOffset_eq_ite _ _ (by rwa [z.volume_axes]),
        if_neg Bool.false_ne_true]
  rw [hcells]
  refine mapCells_of_mem op (List.nodup_range.map_on fun k hk k' hk' heq => ?_) buffer ?_
  · exact elementOffset_inj hpos hz.cellsApart flag (List.mem_range.mp hk) (List.mem_range.mp hk')
      heq
  · obtain ⟨k, hk, hplace⟩ := (bijOn_coordinateOf flag hpos).surjOn (hz.inBox hi hj)
    exact List.mem_map.mpr ⟨k, List.mem_range.mpr hk, by rw [elementOffset_eq_dot, hplace]⟩

/-- The branch for matrices. -/
theorem execSpecial_of_matrix (E : Exponential T) (floatMax : T) (op : SoftmaxOp)
    (h : SoftmaxLayouts run inPlace x z m n) (hm : 2 ≤ m) (hn : op = .softMax → 2 ≤ n)
    (xs zs : Int → T) (hplace : inPlace = true → zs = xs) :
    ∃ buffer shifted,
      op.execSpecial E floatMax run inPlace ⟨x, xs⟩ ⟨z, zs⟩ = .ok ⟨z, buffer⟩ ∧
      ShiftsRows ⟨x, xs⟩ (op.source ⟨x, xs⟩ ⟨z, zs⟩) ⟨z, zs⟩ m n shifted ∧
      ∀ i < m, ∀ j < n, buffer (Strided.dot [i, j] z.stride) =
        op.finish E (share E (fun k => shifted (Strided.dot [i, k] z.stride)) n j) := by
  have hslots : slotsAreMatrix x = true := (slotsAreMatrix_iff h.array).mpr (by omega)
  have hlength : x.length = m * n := length_of_shape h.array.shape_eq
  have hrows := @softMaxRows_spec T ⟨x, xs⟩ ⟨z, zs⟩ ⟨x, xs⟩ m n _ _ E run inPlace h.rows_pos
    h.columns_pos h.array h.array h.result h.span hplace
  cases op with
  | softMax =>
      obtain ⟨buffer, shifted, hrun, hshifts, hshares⟩ := hrows
      have hmatrix : isMatrix x = true := by
        have hn := hn rfl
        rw [isMatrix_of_shape h.array.shape_eq]
        exact decide_eq_true (by omega)
      exact ⟨buffer, shifted, by rw [SoftmaxOp.execSpecial, SoftMax.execSpecial, if_pos hmatrix,
        hrun], hshifts, hshares⟩
  | logSoftMax =>
      obtain ⟨buffer, shifted, hrun, hshifts, hshares⟩ := hrows
      obtain ⟨logs, hlogs, hlog⟩ := @transformInto_spec T ⟨z, buffer⟩ m n E.log run h.rows_pos
        h.columns_pos h.result h.span
      refine ⟨logs, shifted, ?_, hshifts, fun i hi j hj => ?_⟩
      · rw [SoftmaxOp.execSpecial, LogSoftMax.execSpecial, if_pos hslots, hrun]
        exact hlogs
      · rw [← element_cell h.result logs hi hj, hlog i hi j hj, element_cell h.result buffer hi hj,
          hshares i hi j hj]
        rfl
  | softMaxDerivative =>
      obtain ⟨buffer, shifted, hrun, hshifts, hshares⟩ := @softMaxRows_spec T ⟨z, zs⟩ ⟨z, zs⟩
        ⟨x, xs⟩ m n _ _ E run true h.rows_pos h.columns_pos h.array h.result h.result h.span
        fun _ => rfl
      refine ⟨mapCells (fun s => s * (1 - s)) (derivativeCells z (m * n)) buffer, shifted, ?_,
        hshifts, fun i hi j hj => ?_⟩
      · rw [SoftmaxOp.execSpecial, SoftMaxDerivative.execSpecial]
        simp only [hslots, if_true, hrun, hlength]
        rfl
      · refine (mapCells_derivative _ h.result h.rows_pos h.columns_pos buffer hi hj).trans ?_
        rw [hshares i hi j hj]
        rfl

/-- The vectors that an operation walks. -/
def SoftmaxOp.TakesVector (m n : Nat) : SoftmaxOp → Prop
  | .softMax => m = 1 ∨ n = 1
  | _ => m = 1

theorem SoftmaxOp.TakesVector.line : ∀ {op : SoftmaxOp}, op.TakesVector m n → m = 1 ∨ n = 1
  | .softMax, h => h
  | .logSoftMax, h => Or.inl h
  | .softMaxDerivative, h => Or.inl h

/-- The stride that an operation walks its result by. -/
def SoftmaxOp.resultStride (x z : ShapeInfo) : SoftmaxOp → Int
  | .softMax => z.elementWiseStride
  | _ => x.elementWiseStride

/-- The branch for vectors. -/
theorem execSpecial_of_vector (E : Exponential T) (floatMax : T) (op : SoftmaxOp)
    (h : SoftmaxLayouts run inPlace x z m n) (hvector : op.TakesVector m n) (xs zs : Int → T)
    (hplace : inPlace = true → zs = xs) :
    (1 ≤ x.elementWiseStride → 1 ≤ op.resultStride x z → ∃ buffer,
      op.execSpecial E floatMax run inPlace ⟨x, xs⟩ ⟨z, zs⟩ = .ok ⟨z, buffer⟩ ∧
      (∀ k < m * n, buffer (k * op.resultStride x z) = op.finish E
        (share E (fun k => op.source xs zs (k * x.elementWiseStride)) (m * n) k)) ∧
      ∀ cell ∉ strideCells (m * n) (op.resultStride x z), buffer cell = zs cell) ∧
    (¬ (1 ≤ x.elementWiseStride ∧ 1 ≤ op.resultStride x z) →
      op.execSpecial E floatMax run inPlace ⟨x, xs⟩ ⟨z, zs⟩ = .ok ⟨z, zs⟩) := by
  have hlength : x.length = m * n := length_of_shape h.array.shape_eq
  have hread : (if inPlace then zs else xs) = xs := by
    split
    · rename_i hin
      exact hplace hin
    · rfl
  have hmax : ∀ buffer : Int → T, ∃ max, max = maxLoop floatMax buffer
      (strideCells (m * n) x.elementWiseStride) := fun _ => ⟨_, rfl⟩
  cases op with
  | softMax =>
      have hmatrix : ¬ isMatrix x = true := by
        rw [isMatrix_of_shape h.array.shape_eq]
        simpa using fun hm => hvector.resolve_left hm
      have hline : isVector x = true := by
        rw [isVector_of_shape h.array.shape_eq]
        exact decide_eq_true hvector
      simp only [SoftmaxOp.execSpecial, SoftMax.execSpecial, if_neg hmatrix, hline, if_true,
        hlength]
      refine ⟨fun hx hb => ?_, fun hnot => if_neg hnot⟩
      obtain ⟨max, hmax⟩ := hmax xs
      obtain ⟨hvalue, hframe⟩ := softMaxLoops_spec E max (m * n) x.elementWiseStride
        z.elementWiseStride inPlace hb (fun hin => by rw [h.same hin]) xs zs
      rw [if_pos ⟨hx, hb⟩, ← hmax]
      rw [hread] at hvalue
      exact ⟨_, rfl, hvalue, hframe⟩
  | logSoftMax =>
      have hslots : ¬ slotsAreMatrix x = true := fun hslots =>
        (slotsAreMatrix_iff h.array).mp hslots hvector
      simp only [SoftmaxOp.execSpecial, LogSoftMax.execSpecial, if_neg hslots, hlength]
      refine ⟨fun hx hb => ?_, fun hnot => by rw [if_neg fun hx => hnot ⟨hx, hx⟩]⟩
      obtain ⟨max, hmax⟩ := hmax zs
      obtain ⟨hvalue, hframe⟩ := softMaxLoops_spec E max (m * n) x.elementWiseStride
        x.elementWiseStride inPlace hx (fun _ => rfl) xs zs
      rw [if_pos hx, ← hmax]
      rw [hread] at hvalue
      refine ⟨_, rfl, fun k hk => ?_, fun cell hcell =>
        (mapCells_of_not_mem _ _ hcell).trans (hframe cell hcell)⟩
      exact (mapCells_of_mem _ (nodup_strideCells _ hx) _ (mem_strideCells.mpr ⟨k, hk, rfl⟩)).trans
        (congrArg E.log (hvalue k hk))
  | softMaxDerivative =>
      have hslots : ¬ slotsAreMatrix x = true := fun hslots =>
        (slotsAreMatrix_iff h.array).mp hslots hvector
      simp only [SoftmaxOp.execSpecial, SoftMaxDerivative.execSpecial, if_neg hslots, hlength]
      refine ⟨fun hx hb => ?_, fun hnot => by rw [if_neg fun hx => hnot ⟨hx, hx⟩]⟩
      obtain ⟨max, hmax⟩ := hmax zs
      obtain ⟨hvalue, hframe⟩ := softMaxLoops_spec E max (m * n) x.elementWiseStride
        x.elementWiseStride true hx (fun _ => rfl) zs zs
      rw [if_pos hx, ← hmax]
      refine ⟨_, rfl, fun k hk => ?_, fun cell hcell =>
        (mapCells_of_not_mem _ _ hcell).trans (hframe cell hcell)⟩
      exact (mapCells_of_mem _ (nodup_strideCells _ hx) _ (mem_strideCells.mpr ⟨k, hk, rfl⟩)).trans
        (congrArg (fun s => s * (1 - s)) (hvalue k hk))

/-- A vector is read in even steps. -/
theorem wantedShare_line (hx : MatrixLayout x m n) (hline : m = 1 ∨ n = 1)
    (hews : 1 ≤ x.elementWiseStride) (xs : Int → T) (hi : i < m) (hj : j < n) :
    wantedShare E ⟨x, xs⟩ m n i j =
      share E (fun k => xs (k * x.elementWiseStride)) (m * n) (i + j) := by
  rw [wantedShare]
  split
  · rename_i hone
    subst hone
    obtain rfl : j = 0 := by omega
    rw [mul_one]
    exact share_congr E hi fun k hk => by
      rw [element_cell hx xs hk hj, hx.line_cell hline hews hk hj, Nat.add_zero]
  · obtain rfl : m = 1 := hline.resolve_right ‹_›
    obtain rfl : i = 0 := by omega
    rw [one_mul, Nat.zero_add]
    exact share_congr E hj fun k hk => by
      rw [element_cell hx xs hi hk, hx.line_cell hline hews hi hk, Nat.zero_add]

theorem wantedShare_matrix (hx : MatrixLayout x m n) (hn : 2 ≤ n) (xs : Int → T) (hi : i < m)
    (hj : j < n) :
    wantedShare E ⟨x, xs⟩ m n i j = share E (fun k => xs (Strided.dot [i, k] x.stride)) n j := by
  rw [wantedShare, if_neg (by omega)]
  exact share_congr E hj fun k hk => element_cell hx xs hi hk

omit [Field T] [LinearOrder T] in
/-- Vectors that an operation is right for. -/
theorem steps_of_where (h : SoftmaxLayouts run inPlace x z m n) (hmn : ¬ (2 ≤ m ∧ 2 ≤ n))
    (hwhere : NormalisesWhere inPlace x z m n op) {xs zs : Int → T}
    (hplace : inPlace = true → zs = xs) :
    op.TakesVector m n ∧ 1 ≤ x.elementWiseStride ∧ 1 ≤ op.resultStride x z ∧
      (∀ i < m, ∀ j < n, Strided.dot [i, j] z.stride = (i + j : Nat) * op.resultStride x z) ∧
      (op.source xs zs = xs ∨ m * n = 1) := by
  cases op with
  | softMax =>
      rw [NormalisesWhere, if_neg hmn] at hwhere
      have hline : m = 1 ∨ n = 1 := by
        have := h.rows_pos
        have := h.columns_pos
        omega
      exact ⟨hline, hwhere.1, hwhere.2, fun i hi j hj => h.result.line_cell hline hwhere.2 hi hj,
        Or.inl rfl⟩
  | logSoftMax =>
      by_cases hm : 2 ≤ m
      · rw [NormalisesWhere, if_pos hm] at hwhere
        exact absurd ⟨hm, hwhere.1⟩ hmn
      · rw [NormalisesWhere, if_neg hm] at hwhere
        have hone : m = 1 := by
          have := h.rows_pos
          omega
        exact ⟨hone, hwhere.1, hwhere.1, fun i hi j hj => (hwhere.2 i hi j hj).trans
          (h.array.line_cell (Or.inl hone) hwhere.1 hi hj), Or.inl rfl⟩
  | softMaxDerivative =>
      by_cases hm : 2 ≤ m
      · rw [NormalisesWhere, if_pos hm] at hwhere
        exact absurd ⟨hm, hwhere.1⟩ hmn
      · rw [NormalisesWhere, if_neg hm] at hwhere
        obtain rfl : m = 1 := by
          have := h.rows_pos
          omega
        obtain ⟨hx, hin | rfl⟩ := hwhere
        · have hsame := h.same hin
          subst hsame
          exact ⟨rfl, hx, hx, fun i hi j hj => h.array.line_cell (Or.inl rfl) hx hi hj,
            Or.inl (hplace hin)⟩
        · refine ⟨rfl, hx, hx, fun i hi j hj => ?_, Or.inr rfl⟩
          obtain rfl : i = 0 := by omega
          obtain rfl : j = 0 := by omega
          have hone : z.shape.prod = 1 := by rw [h.result.shape_eq]; rfl
          exact (dot_eq_zero_of_prod (h.result.inBox hi hj) hone _).trans (by simp)

/-- Matrices that an operation is right for. -/
theorem shifted_of_where (h : SoftmaxLayouts run inPlace x z m n) (hmn : 2 ≤ m ∧ 2 ≤ n)
    (hwhere : NormalisesWhere inPlace x z m n op) {xs zs shifted : Int → T}
    (hplace : inPlace = true → zs = xs)
    (hshifts : ShiftsRows ⟨x, xs⟩ (op.source ⟨x, xs⟩ ⟨z, zs⟩) ⟨z, zs⟩ m n shifted) (hi : i < m)
    (hj : j < n) : shifted (Strided.dot [i, j] z.stride) =
      xs (Strided.dot [i, j] x.stride) - rowMax ⟨x, xs⟩ n i := by
  have hread := hshifts.value i hi j hj
  cases op with
  | softMax =>
      rw [NormalisesWhere, if_pos hmn] at hwhere
      rw [hwhere i hi j hj, ← element_cell h.array xs hi hj]
      exact hread
  | logSoftMax =>
      rw [NormalisesWhere, if_pos hmn.1] at hwhere
      rw [hwhere.2 i hi j hj, ← element_cell h.array xs hi hj]
      exact hread
  | softMaxDerivative =>
      rw [NormalisesWhere, if_pos hmn.1] at hwhere
      have hsame := h.same hwhere.2
      subst hsame
      rwa [hplace hwhere.2, SoftmaxOp.source, element_cell h.array xs hi hj] at hread

/-- Where the layouts allow it, an operation is right. -/
theorem normalises_of_where (h : SoftmaxLayouts run inPlace x z m n)
    (hwhere : NormalisesWhere inPlace x z m n op) :
    NormalisesRows E floatMax run inPlace x z m n op := by
  intro xs zs hplace
  by_cases hmn : 2 ≤ m ∧ 2 ≤ n
  · obtain ⟨buffer, shifted, hrun, hshifts, hshare⟩ :=
      execSpecial_of_matrix E floatMax op h hmn.1 (fun _ => hmn.2) xs zs hplace
    refine ⟨buffer, hrun, fun i hi j hj => ?_⟩
    rw [element_cell h.result buffer hi hj, hshare i hi j hj,
      wantedShare_matrix h.array hmn.2 xs hi hj,
      share_congr E hj fun k hk => shifted_of_where h hmn hwhere hplace hshifts hi hk, share_sub]
  · obtain ⟨hvector, hx, hz, hcell, hsource⟩ := steps_of_where h hmn hwhere hplace
    have hline := hvector.line
    obtain ⟨buffer, hrun, hvalue, -⟩ :=
      (execSpecial_of_vector E floatMax op h hvector xs zs hplace).1 hx hz
    refine ⟨buffer, hrun, fun i hi j hj => ?_⟩
    have hindex : i + j < m * n := by
      rcases hline with rfl | rfl <;> omega
    rw [element_cell h.result buffer hi hj, hcell i hi j hj, hvalue _ hindex,
      wantedShare_line h.array hline hx xs hi hj]
    rcases hsource with hsource | hone
    · rw [hsource]
    · rw [hone, show i + j = 0 by omega, share_one, share_one]

end Right

section Wrong

variable {T : Type} [Field T] [LinearOrder T] [IsStrictOrderedRing T] {E : Exponential T}
  {floatMax : T} {run : Runtime T} {inPlace : Bool} {x z : ShapeInfo} {m n : Nat} {op : SoftmaxOp}

omit [IsStrictOrderedRing T] in
/-- The shares of equal elements. -/
theorem wantedShare_const (v : T) (i j : Nat) :
    wantedShare E ⟨x, fun _ => v⟩ m n i j = 1 / (if n = 1 then m else n : Nat) := by
  rw [wantedShare]
  split <;> exact share_const E v _ _

omit [IsStrictOrderedRing T] in
theorem finish_injective (op : SoftmaxOp) (hop : op ≠ .softMaxDerivative) {a b : T} (ha : 0 < a)
    (hb : 0 < b) (heq : op.finish E a = op.finish E b) : a = b := by
  cases op with
  | softMax => exact heq
  | logSoftMax => rw [← E.exp_log a ha, ← E.exp_log b hb]; exact congrArg E.exp heq
  | softMaxDerivative => exact absurd rfl hop

/-- An operation that is right writes every cell of its result. -/
theorem NormalisesRows.writes (hright : NormalisesRows E floatMax run inPlace x z m n op)
    (hz : MatrixLayout z m n) {i j : Nat} (hi : i < m) (hj : j < n) :
    ∃ (v : T) (buffer : Int → T), op.execSpecial E floatMax run inPlace ⟨x, fun _ => v⟩
      ⟨z, fun _ => v⟩ = .ok ⟨z, buffer⟩ ∧ buffer (Strided.dot [i, j] z.stride) ≠ v := by
  obtain ⟨v, hv⟩ : ∃ v : T, v = op.finish E (1 / (if n = 1 then m else n : Nat)) + 1 := ⟨_, rfl⟩
  obtain ⟨buffer, hrun, hvalue⟩ := hright (fun _ => v) (fun _ => v) fun _ => rfl
  refine ⟨v, buffer, hrun, fun heq => ?_⟩
  have hwanted := hvalue i hi j hj
  rw [element_cell hz buffer hi hj, wantedShare_const, heq, hv] at hwanted
  exact one_ne_zero (add_eq_left.mp hwanted)

/-- Without a stride a vector is left as it was. -/
theorem NormalisesRows.strides (h : SoftmaxLayouts run inPlace x z m n)
    (hvector : op.TakesVector m n) (hright : NormalisesRows E floatMax run inPlace x z m n op) :
    1 ≤ x.elementWiseStride ∧ 1 ≤ op.resultStride x z := by
  by_contra hnot
  obtain ⟨v, buffer, hrun, hne⟩ := hright.writes h.result h.rows_pos h.columns_pos
  rw [(execSpecial_of_vector E floatMax op h hvector _ _ fun _ => rfl).2 hnot] at hrun
  cases hrun
  exact hne rfl

/-- A column is no matrix. -/
theorem NormalisesRows.two_le (h : SoftmaxLayouts run inPlace x z m n) (hm : 2 ≤ m)
    (hop : op ≠ .softMax) (hright : NormalisesRows E floatMax run inPlace x z m n op) : 2 ≤ n := by
  by_contra hn
  obtain rfl : n = 1 := by
    have := h.columns_pos
    omega
  obtain ⟨buffer, shifted, hrun, -, hshare⟩ := execSpecial_of_matrix E floatMax op h hm
    (absurd · hop) (fun _ => 0) (fun _ => 0) fun _ => rfl
  obtain ⟨buffer', hrun', hvalue⟩ := hright (fun _ => 0) (fun _ => 0) fun _ => rfl
  rw [hrun] at hrun'
  cases hrun'
  have hboth := hvalue 0 h.rows_pos 0 Nat.one_pos
  rw [element_cell h.result buffer h.rows_pos Nat.one_pos, hshare 0 h.rows_pos 0 Nat.one_pos,
    share_one, wantedShare_const, if_pos rfl] at hboth
  have hcast : (2 : T) ≤ m := by exact_mod_cast hm
  cases op with
  | softMax => exact hop rfl
  | logSoftMax =>
      have hone := finish_injective .logSoftMax (by decide) one_pos
        (div_pos one_pos (by linarith)) hboth
      rw [eq_div_iff (by linarith)] at hone
      linarith
  | softMaxDerivative =>
      have hone : (1 : T) * (1 - 1) = 1 / m * (1 - 1 / m) := hboth
      field_simp at hone
      linarith

omit [IsStrictOrderedRing T] in
/-- The maxima of rows with a zero and no positive element. -/
theorem rowMax_eq_zero {array : NDArray T} {i l : Nat} (hle : ∀ k < n, array.element [i, k] ≤ 0)
    (hl : l < n) (hzero : array.element [i, l] = 0) : rowMax array n i = 0 := by
  have hfold : rowMax array n i = (List.range n).foldl (fun max k => Max.max max
      (array.element [i, k])) (array.element [i, 0]) := by
    simp only [max_comm _ (array.element _)]
    rfl
  obtain ⟨hmem, hupper⟩ := Levels.isGreatest_foldl_max (fun k => array.element [i, k])
    (List.range n) (array.element [i, 0])
  rw [← hfold] at hmem hupper
  have hlower : 0 ≤ rowMax array n i :=
    hzero ▸ hupper (Or.inr ⟨l, List.mem_range.mpr hl, rfl⟩)
  rcases hmem with hfirst | ⟨k, hk, hvalue⟩
  · exact le_antisymm (hfirst ▸ hle 0 (Nat.zero_lt_of_lt hl)) hlower
  · exact le_antisymm (hvalue ▸ hle k (List.mem_range.mp hk)) hlower

variable (h : SoftmaxLayouts run inPlace x z m n)

include h

/-- A matrix whose result has cells of its own: the broadcast misses one of them. -/
theorem NormalisesRows.sameCells (hm : 2 ≤ m) (hn : 2 ≤ n) (hop : op ≠ .softMaxDerivative)
    (hright : NormalisesRows E floatMax run inPlace x z m n op) : SameCells x z m n := by
  intro i hi j hj
  by_contra hne
  -- one cell of the result that holds less than all others, of the array as well
  obtain ⟨c, hc⟩ : ∃ c : Int → T, c = fun cell =>
      if cell = Strided.dot [i, j] z.stride then -1 else 0 := ⟨_, rfl⟩
  have hcell : ∀ {info : ShapeInfo} {i' l : Nat}, MatrixLayout info m n → i' < m → l < n →
      Strided.dot [i', l] info.stride = Strided.dot [i, j] z.stride →
      ∀ k < n, c (Strided.dot [i', k] info.stride) = singleEntry (-1) l k := by
    intro info i' l hinfo hi' hl heq k hk
    rw [hc, singleEntry, ← heq]
    by_cases hkl : k = l
    · simp [hkl]
    · simp only [if_neg hkl, if_neg (hinfo.cell_ne hi' hk hi' hl (by simpa using hkl))]
  have hmax : ∀ i' < m, rowMax ⟨x, c⟩ n i' = 0 := by
    intro i' hi'
    obtain ⟨l, hl, hzero⟩ : ∃ l < n, c (Strided.dot [i', l] x.stride) = 0 := by
      by_cases hfirst : Strided.dot [i', 0] x.stride = Strided.dot [i, j] z.stride
      · exact ⟨1, hn, hcell h.array hi' (by omega) hfirst 1 hn⟩
      · exact ⟨0, by omega, by rw [hc]; exact if_neg hfirst⟩
    have hzero : (NDArray.mk x c).element [i', l] = 0 := by
      rw [element_cell h.array c hi' hl, hzero]
    refine rowMax_eq_zero (fun k hk => ?_) hl hzero
    rw [element_cell h.array c hi' hk, hc]
    dsimp only
    split <;> simp
  obtain ⟨buffer, shifted, hrun, hshifts, hshare⟩ := execSpecial_of_matrix E floatMax op h hm
    (fun _ => hn) c c fun _ => rfl
  obtain ⟨buffer', hrun', hvalue⟩ := hright c c fun _ => rfl
  rw [hrun] at hrun'
  cases hrun'
  have hshifts : ShiftsRows ⟨x, c⟩ ⟨x, c⟩ ⟨z, c⟩ m n shifted := by
    cases op with
    | softMaxDerivative => exact absurd rfl hop
    | _ => exact hshifts
  have hsame : shifted = c := by
    funext cell
    by_cases hwritten : ∃ i' < m, ∃ l < n, cell = Strided.dot [i', l] x.stride
    · obtain ⟨i', hi', l, hl, rfl⟩ := hwritten
      rw [hshifts.value i' hi' l hl, hmax i' hi', sub_zero, element_cell h.array c hi' hl]
    · exact hshifts.frame cell fun i' hi' l hl heq => hwritten ⟨i', hi', l, hl, heq⟩
  have hboth := hvalue i hi j hj
  rw [element_cell h.result buffer hi hj, hshare i hi j hj, hsame,
    wantedShare_matrix h.array hn c hi hj] at hboth
  have hboth := finish_injective op hop (share_pos E _ (by omega) j) (share_pos E _ (by omega) j)
    hboth
  rw [share_congr E hj (hcell h.result hi hj rfl)] at hboth
  have hminus : (-1 : T) ≠ 0 := neg_ne_zero.mpr one_ne_zero
  by_cases hmet : ∃ l < n, Strided.dot [i, l] x.stride = Strided.dot [i, j] z.stride
  · obtain ⟨l, hl, heq⟩ := hmet
    rw [share_congr E hj (hcell h.array hi hl heq)] at hboth
    exact share_single_ne E hminus hj hl (fun hjl => hne (by rw [← heq, hjl])) hboth
  · have hzeros : ∀ k < n, c (Strided.dot [i, k] x.stride) = 0 := fun k hk => by
      rw [hc]
      exact if_neg fun heq => hmet ⟨k, hk, heq⟩
    rw [share_congr E hj hzeros, share_const] at hboth
    exact share_single_ne_const E hminus hj hn hboth

/-- A row whose result has cells of its own is walked by the stride of the array. -/
theorem NormalisesRows.sameCells_row (hm : m = 1)
    (hright : NormalisesRows E floatMax run inPlace x z m n .logSoftMax) : SameCells x z m n := by
  have hvector : SoftmaxOp.logSoftMax.TakesVector m n := hm
  have hx := (hright.strides h hvector).1
  intro i hi j hj
  by_contra hne
  by_cases hwalked : Strided.dot [i, j] z.stride ∈ strideCells (m * n) x.elementWiseStride
  · obtain ⟨k, hk, hcell⟩ := mem_strideCells.mp hwalked
    obtain ⟨c, hc⟩ : ∃ c : Int → T, c = fun cell =>
        if cell = Strided.dot [i, j] x.stride then 1 else 0 := ⟨_, rfl⟩
    obtain ⟨buffer, hrun, hshare, -⟩ := (execSpecial_of_vector E floatMax .logSoftMax h hvector
      c c fun _ => rfl).1 hx hx
    obtain ⟨buffer', hrun', hvalue⟩ := hright c c fun _ => rfl
    rw [hrun] at hrun'
    cases hrun'
    have hline : m = 1 ∨ n = 1 := Or.inl hm
    have hindex : i + j < m * n := by
      subst hm
      omega
    have hboth := hvalue i hi j hj
    rw [element_cell h.result buffer hi hj, ← hcell, wantedShare_line h.array hline hx c hi hj]
      at hboth
    have hboth := finish_injective .logSoftMax (by decide) (share_pos E _ (by omega) k)
      (share_pos E _ (by omega) (i + j)) ((hshare k hk).symm.trans hboth)
    have hsingle : ∀ k < m * n, c (k * x.elementWiseStride) = singleEntry 1 (i + j) k := by
      intro k _
      rw [hc, singleEntry, h.array.line_cell hline hx hi hj]
      refine if_congr ⟨fun heq => ?_, fun heq => by rw [heq]⟩ rfl rfl
      exact Int.ofNat_injective (mul_right_cancel₀ (by omega) heq)
    have hboth := (share_congr E hk hsingle).symm.trans (hboth.trans (share_congr E hindex hsingle))
    refine share_single_ne E one_ne_zero hindex hindex (fun hkij => hne ?_) hboth.symm
    rw [← hcell, hkij, h.array.line_cell hline hx hi hj]
  · obtain ⟨v, buffer, hrun, hne⟩ := hright.writes h.result hi hj
    obtain ⟨buffer', hrun', -, hframe⟩ := (execSpecial_of_vector E floatMax .logSoftMax h hvector
      (fun _ => v) (fun _ => v) fun _ => rfl).1 hx hx
    rw [hrun'] at hrun
    cases hrun
    exact hne (hframe _ hwalked)

/-- The derivative reads its result. -/
theorem NormalisesRows.inPlace_of_derivative (hmn : m = 1 ∨ 2 ≤ m) (hn : 2 ≤ n)
    (hright : NormalisesRows E floatMax run inPlace x z m n .softMaxDerivative) :
    inPlace = true := by
  by_contra hout
  obtain ⟨v, hv⟩ := exists_derivative_ne E hn
  have hj : 0 < n := by omega
  obtain ⟨c, hc⟩ : ∃ c : Int → T, c = fun cell => if cell = 0 then v else 0 := ⟨_, rfl⟩
  have horigin : ∀ info : ShapeInfo, Strided.dot [0, 0] info.stride = 0 := fun info => by
    rcases info.stride with - | ⟨s, - | ⟨s', ss⟩⟩ <;> simp
  have hplace : inPlace = true → c = fun _ => 0 := fun hin => absurd hin hout
  obtain ⟨buffer, hrun, hvalue⟩ := hright (fun _ => 0) c hplace
  have hwanted := hvalue 0 h.rows_pos 0 hj
  rw [element_cell h.result buffer h.rows_pos hj, wantedShare_const, if_neg (by omega)] at hwanted
  suffices hshare : buffer (Strided.dot [0, 0] z.stride) = SoftmaxOp.softMaxDerivative.finish E
      (share E (singleEntry v 0) n 0) from hv (hshare.symm.trans hwanted)
  rcases hmn with hm | hm
  · have hvector : SoftmaxOp.softMaxDerivative.TakesVector m n := hm
    have hx := (hright.strides h hvector).1
    obtain ⟨buffer', hrun', hshare, -⟩ := (execSpecial_of_vector E floatMax .softMaxDerivative h
      hvector _ _ hplace).1 hx hx
    rw [hrun] at hrun'
    cases hrun'
    have hlength : m * n = n := by rw [hm, one_mul]
    have hfirst := hshare 0 (by omega)
    rw [Nat.cast_zero, zero_mul, hlength] at hfirst
    rw [horigin, hfirst]
    refine congrArg _ (share_congr E hj fun k _ => ?_)
    show c (k * x.elementWiseStride) = _
    rw [hc, singleEntry]
    exact if_congr (by simp; omega) rfl rfl
  · obtain ⟨buffer', shifted, hrun', hshifts, hshare⟩ := execSpecial_of_matrix E floatMax
      .softMaxDerivative h hm (fun _ => hn) _ _ hplace
    rw [hrun] at hrun'
    cases hrun'
    rw [hshare 0 h.rows_pos 0 hj, ← share_sub E (singleEntry v 0) (rowMax ⟨x, fun _ => 0⟩ n 0)]
    refine congrArg _ (share_congr E hj fun k hk => ?_)
    refine (hshifts.value 0 h.rows_pos k hk).trans (congrArg (· - _) ?_)
    refine (element_cell h.result c h.rows_pos hk).trans ?_
    rw [hc, singleEntry, ← horigin z]
    by_cases hzero : k = 0
    · simp [hzero]
    · simp only [if_neg hzero, if_neg (h.result.cell_ne h.rows_pos hk h.rows_pos hj
        (by simpa using hzero))]

theorem where_of_normalises (hright : NormalisesRows E floatMax run inPlace x z m n op) :
    NormalisesWhere inPlace x z m n op := by
  have hm := h.rows_pos
  have hn := h.columns_pos
  cases op with
  | softMax =>
      rw [NormalisesWhere]
      split
      · rename_i hmn
        exact hright.sameCells h hmn.1 hmn.2 (by decide)
      · have hline : SoftmaxOp.softMax.TakesVector m n := show m = 1 ∨ n = 1 by omega
        exact hright.strides h hline
  | logSoftMax =>
      rw [NormalisesWhere]
      split
      · rename_i hrows
        have hcolumns := hright.two_le h hrows (by decide)
        exact ⟨hcolumns, hright.sameCells h hrows hcolumns (by decide)⟩
      · have hone : SoftmaxOp.logSoftMax.TakesVector m n := show m = 1 by omega
        exact ⟨(hright.strides h hone).1, hright.sameCells_row h hone⟩
  | softMaxDerivative =>
      rw [NormalisesWhere]
      split
      · rename_i hrows
        have hcolumns := hright.two_le h hrows (by decide)
        exact ⟨hcolumns, hright.inPlace_of_derivative h (Or.inr hrows) hcolumns⟩
      · have hone : SoftmaxOp.softMaxDerivative.TakesVector m n := show m = 1 by omega
        refine ⟨(hright.strides h hone).1, or_iff_not_imp_right.mpr fun hcolumns => ?_⟩
        exact hright.inPlace_of_derivative h (Or.inl hone) (by omega)

omit h

/-- The operations are right exactly where the cells they walk are those of the result. -/
theorem normalisesRows_iff (h : SoftmaxLayouts run inPlace x z m n) :
    NormalisesRows E floatMax run inPlace x z m n op ↔ NormalisesWhere inPlace x z m n op :=
  ⟨where_of_normalises h, normalises_of_where h⟩

end Wrong

/-! ## A square and a column -/

/-- The real functions. -/
noncomputable def realExponential : Exponential Real where
  exp := Real.exp
  log := Real.log
  exp_pos := Real.exp_pos
  exp_sub := Real.exp_sub
  log_exp := Real.log_exp
  exp_log := fun _ => Real.exp_log

theorem softmaxLayouts_fresh {m n : Nat} (hm : 0 < m) (hn : 0 < n)
    (hspan : SpanFits (oneThread fun _ => (0 : Real)).settings (m * n)) :
    SoftmaxLayouts (oneThread fun _ => (0 : Real)) false (newShapeInfo 'c' [m, n])
      (newShapeInfo 'c' [m, n]) m n := by
  have hpos : ∀ d ∈ [m, n], 0 < d := by simp [hm, hn]
  have hlayout : MatrixLayout (newShapeInfo 'c' [m, n]) m n :=
    { shape_eq := shape_newShapeInfo 'c' [m, n]
      honest := honestEws_newShapeInfo (Or.inl rfl) hpos
      cellsApart := cellsApart_newShapeInfo (Or.inl rfl) hpos }
  exact ⟨hm, hn, hlayout, hlayout, fun hin => absurd hin Bool.false_ne_true, hspan⟩

theorem normalisesRows_iff_square :
    NormalisesRows realExponential 0 (oneThread fun _ => 0) false (newShapeInfo 'c' [2, 2])
      (newShapeInfo 'c' [2, 2]) 2 2 .softMax :=
  (normalisesRows_iff (softmaxLayouts_fresh Nat.two_pos Nat.two_pos (by decide))).mpr
    fun _ _ _ _ => rfl

/-- The logarithms of the shares in a column are those of ones. -/
theorem not_normalisesRows_always :
    ¬ ∀ (E : Exponential Real) (floatMax : Real) (run : Runtime Real) (inPlace : Bool)
      (x z : ShapeInfo) (m n : Nat) (op : SoftmaxOp), SoftmaxLayouts run inPlace x z m n →
      NormalisesRows E floatMax run inPlace x z m n op := by
  intro h
  have hlayouts := softmaxLayouts_fresh Nat.two_pos Nat.one_pos (by decide)
  have hcolumns := (h realExponential 0 _ false _ _ 2 1 .logSoftMax hlayouts).two_le hlayouts
    le_rfl (by decide)
  omega

end Ops
end LibND4J
