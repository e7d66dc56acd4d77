import LibND4J.Library.Values
import Mathlib.Algebra.Order.BigOperators.Group.List
import Mathlib.Data.List.Induction

/-!
# Operations on pairs of elements

The reduce3 operations measure two arrays against each other: they fold a term for every pair of
elements into a result, some of them with norms of both arrays as a second accumulator, and finish
the result at the end.

Main results:

- Theorem `foldlM_accumulate`: the fold adds the terms to what the result held before.
- Theorem `outcome_eq_iff`: when what the result held before is of no effect.
- Theorem `perm_of_outcome_eq`: operations that agree for all contents of two memories read
  the same pairs of cells.
-/

namespace LibND4J
namespace Ops

open Values

/-- An operation on pairs of elements.  Extra parameters that the loops do not allocate are an
empty list, and `op` is `none` if it reads them. -/
structure Reduce3Op (T : Type) where
  extraParamsLen : Nat
  startingValue : (Int → T) → T
  op : T → T → List T → Option (T × List T)
  update : T → T → List T → T
  postProcess : T → Nat → List T → T

/-- `result = update(result, op(d1, d2, extraParams), extraParams)`. -/
def Reduce3Op.accumulate {T : Type} (opType : Reduce3Op T) (acc : T × List T) (d : T × T) :
    Option (T × List T) :=
  (opType.op d.1 d.2 acc.2).map fun out => (opType.update acc.1 out.1 out.2, out.2)

/-- Fold pairs of elements from a value and finish the result. -/
def Reduce3Op.reduceFrom {T : Type} (opType : Reduce3Op T) (startingVal start : T)
    (pairs : List (T × T)) : Option T :=
  (pairs.foldlM opType.accumulate (start, List.replicate opType.extraParamsLen startingVal)).map
    fun acc => opType.postProcess acc.1 pairs.length acc.2

/-! ## Sums over pairs -/

section Sums

variable {K : Type} [Field K]

/-- A sum over pairs of numbers. -/
def sumOver (f : K → K → K) (pairs : List (K × K)) : K :=
  (pairs.map fun p => f p.1 p.2).sum

variable (f : K → K → K)

@[simp]
theorem sumOver_nil : sumOver f [] = 0 :=
  rfl

theorem sumOver_cons (p : K × K) (pairs : List (K × K)) :
    sumOver f (p :: pairs) = f p.1 p.2 + sumOver f pairs := by
  simp [sumOver]

theorem sumOver_snoc (pairs : List (K × K)) (p : K × K) :
    sumOver f (pairs ++ [p]) = sumOver f pairs + f p.1 p.2 := by
  simp [sumOver]

variable {pairs : List (K × K)}

theorem sumOver_perm {pairs' : List (K × K)} (h : pairs.Perm pairs') :
    sumOver f pairs = sumOver f pairs' :=
  (h.map _).sum_eq

theorem sumOver_linear (u v w : K) (pairs : List (K × K)) :
    sumOver (fun a b => u * a + v * b + w * (a * b)) pairs =
      u * sumOver (fun a _ => a) pairs + v * sumOver (fun _ b => b) pairs +
        w * sumOver (fun a b => a * b) pairs := by
  induction pairs with
  | nil => simp
  | cons p pairs ih =>
      simp only [sumOver_cons, ih]
      ring

theorem sumOver_congr {f g : K → K → K} (h : ∀ p ∈ pairs, f p.1 p.2 = g p.1 p.2) :
    sumOver f pairs = sumOver g pairs :=
  congrArg List.sum (List.map_congr_left h)

/-- Pairs of zeros and ones. -/
def Bits (pairs : List (K × K)) : Prop :=
  ∀ p ∈ pairs, (p.1 = 0 ∨ p.1 = 1) ∧ (p.2 = 0 ∨ p.2 = 1)

/-- On zeros and ones every sum is a combination of three. -/
theorem Bits.sumOver_eq (h : Bits pairs) {f : K → K → K} {u v w : K} (h00 : f 0 0 = 0)
    (h10 : f 1 0 = u) (h01 : f 0 1 = v) (h11 : f 1 1 = u + v + w) :
    sumOver f pairs = u * sumOver (fun a _ => a) pairs + v * sumOver (fun _ b => b) pairs +
      w * sumOver (fun a b => a * b) pairs := by
  rw [← sumOver_linear]
  apply sumOver_congr
  intro p hp
  rcases h p hp with ⟨ha | ha, hb | hb⟩ <;> rw [ha, hb]
  · rw [h00]; ring
  · rw [h01]; ring
  · rw [h10]; ring
  · rw [h11]; ring

section Cells

variable {κ κ' : Type}

/-- The numbers in a pair of cells. -/
def readPair (xs : κ → K) (ys : κ' → K) (cells : κ × κ') : K × K :=
  (xs cells.1, ys cells.2)

variable [DecidableEq κ] [DecidableEq κ']

/-- On memories that are zero but for one cell, the pairs with a one on both sides are those of the
two cells. -/
theorem sumOver_single (a : κ) (b : κ') (pairs : List (κ × κ')) :
    sumOver (fun u v : K => u * v) (pairs.map (readPair (Pi.single a 1) (Pi.single b 1))) =
      (pairs.count (a, b) : K) := by
  induction pairs with
  | nil => simp
  | cons p pairs ih =>
      rw [List.map_cons, sumOver_cons, ih, List.count_cons, Nat.cast_add, add_comm]
      congr 1
      by_cases hfirst : p.1 = a
      · by_cases hsecond : p.2 = b
        · simp [readPair, show p = (a, b) from Prod.ext hfirst hsecond]
        · have hne : p ≠ (a, b) := fun heq => hsecond (congrArg Prod.snd heq)
          simp [readPair, hsecond, hne]
      · have hne : p ≠ (a, b) := fun heq => hfirst (congrArg Prod.fst heq)
        simp [readPair, hfirst, hne]

end Cells

end Sums

/-! ## The operations -/

section Operations

variable {K : Type} [Field K] [LinearOrder K]

/-- `nd4j_min`. -/
def nd4jMin (val1 val2 : Value K) : Value K :=
  if val1.less val2 then val1 else val2

/-- `nd4j_max`. -/
def nd4jMax (val1 val2 : Value K) : Value K :=
  if val2.less val1 then val1 else val2

/-- `ManhattanDistance`. -/
def manhattanDistance : Reduce3Op (Value K) where
  extraParamsLen := 0
  startingValue _ := 0
  op d1 d2 extraParams := some ((d1 - d2).abs, extraParams)
  update old opOutput _ := old + opOutput
  postProcess reduction _ _ := reduction

/-- `EuclideanDistance`. -/
def euclideanDistance (root : SquareRoot K) : Reduce3Op (Value K) where
  extraParamsLen := 0
  startingValue _ := 0
  op d1 d2 extraParams :=
    let ret := d1 - d2
    some (ret * ret, extraParams)
  update old opOutput _ := opOutput + old
  postProcess reduction _ _ := reduction.sqrt root

/-- `CosineSimilarity`. -/
def cosineSimilarity (root : SquareRoot K) : Reduce3Op (Value K) where
  extraParamsLen := 2
  startingValue _ := 0
  op d1 d2 extraParams :=
    match extraParams with
    | p0 :: p1 :: rest => some (d1 * d2, (p0 + d1 * d1) :: (p1 + d2 * d2) :: rest)
    | _ => none
  update old opOutput _ := old + opOutput
  postProcess reduction _ extraParams :=
    reduction / ((extraParams.getD 0 0).sqrt root * (extraParams.getD 1 0).sqrt root)

/-- `Dot`. -/
def dot : Reduce3Op (Value K) where
  extraParamsLen := 0
  startingValue _ := 0
  op d1 d2 extraParams := some (d1 * d2, extraParams)
  update old opOutput _ := opOutput + old
  postProcess reduction _ _ := reduction

/-- `FLOAT_MIN_NORMAL`. -/
def floatMinNormal : Value K :=
  .finite (117549435 / 10 ^ 46)

/-- `FLOAT_MAX_VALUE`. -/
def floatMaxValue : Value K :=
  .finite (34028235 * 10 ^ 31)

/-- `EqualsWithEps`: the threshold is the third extra parameter, of none. -/
def equalsWithEps : Reduce3Op (Value K) where
  extraParamsLen := 0
  startingValue _ := 0
  op d1 d2 extraParams :=
    extraParams[2]?.map fun eps =>
      let diff := (d1 - d2).abs
      let differs :=
        if d1.equal d2 then false
        else if d1.equal 0 ∨ d2.equal 0 ∨ diff.less floatMinNormal then ¬ diff.less eps
        else ¬ (diff / nd4jMin (d1.abs + d2.abs) floatMaxValue).less eps
      (if differs then 1 else 0, extraParams)
  update old opOutput _ := opOutput + old
  postProcess reduction _ _ := reduction

/-- `CosineDistance`. -/
def cosineDistance (root : SquareRoot K) : Reduce3Op (Value K) where
  extraParamsLen := 2
  startingValue _ := 0
  op d1 d2 extraParams :=
    match extraParams with
    | p0 :: p1 :: rest => some (d1 * d2, (p0 + d1.abs * d1.abs) :: (p1 + d2.abs * d2.abs) :: rest)
    | _ => none
  update old opOutput _ := old + opOutput
  postProcess reduction _ extraParams :=
    1 - reduction / ((extraParams.getD 0 0).sqrt root * (extraParams.getD 1 0).sqrt root)

/-- `JaccardDistance`: its result is made of the extra parameters alone. -/
def jaccardDistance : Reduce3Op (Value K) where
  extraParamsLen := 2
  startingValue _ := 0
  op d1 d2 extraParams :=
    match extraParams with
    | p0 :: p1 :: rest => some (0, (p0 + nd4jMin d1 d2) :: (p1 + nd4jMax d1 d2) :: rest)
    | _ => none
  update old opOutput _ := old + opOutput
  postProcess _ _ extraParams := 1 - extraParams.getD 0 0 / extraParams.getD 1 0

/-- `SimpleHammingDistance`. -/
def simpleHammingDistance : Reduce3Op (Value K) where
  extraParamsLen := 0
  startingValue _ := 0
  op d1 d2 extraParams := some (if d1.equal d2 then 0 else 1, extraParams)
  update old opOutput _ := old + opOutput
  postProcess reduction n _ := reduction / .finite n

/-- `REDUCE3_OPS`, in the order of their numbers. -/
inductive Reduce3Kind
  | manhattanDistance
  | euclideanDistance
  | cosineSimilarity
  | dot
  | equalsWithEps
  | cosineDistance
  | jaccardDistance
  | simpleHammingDistance
deriving DecidableEq

/-- The operation of a number. -/
def Reduce3Kind.opType (root : SquareRoot K) : Reduce3Kind → Reduce3Op (Value K)
  | manhattanDistance => Ops.manhattanDistance
  | euclideanDistance => Ops.euclideanDistance root
  | cosineSimilarity => Ops.cosineSimilarity root
  | dot => Ops.dot
  | equalsWithEps => Ops.equalsWithEps
  | cosineDistance => Ops.cosineDistance root
  | jaccardDistance => Ops.jaccardDistance
  | simpleHammingDistance => Ops.simpleHammingDistance

/-! ## The folds on numbers -/

/-- The term of a pair of numbers. -/
def Reduce3Kind.term (kind : Reduce3Kind) (a b : K) : K :=
  match kind with
  | manhattanDistance => |a - b|
  | euclideanDistance => (a - b) * (a - b)
  | cosineSimilarity | dot | cosineDistance => a * b
  | equalsWithEps | jaccardDistance => 0
  | simpleHammingDistance => if a = b then 0 else 1

/-- What a pair of numbers adds to the extra parameters. -/
def Reduce3Kind.norms (kind : Reduce3Kind) : List (K → K → K) :=
  match kind with
  | cosineSimilarity => [fun a _ => a * a, fun _ b => b * b]
  | cosineDistance => [fun a _ => |a| * |a|, fun _ b => |b| * |b|]
  | jaccardDistance => [fun a b => if a < b then a else b, fun a b => if b < a then a else b]
  | _ => []

/-- A pair of numbers as elements. -/
def elements (p : K × K) : Value K × Value K :=
  (.finite p.1, .finite p.2)

omit [Field K] in
theorem nd4jMin_finite (a b : K) :
    nd4jMin (.finite a) (.finite b) = .finite (if a < b then a else b) := by
  simp only [nd4jMin, Value.less_finite, decide_eq_true_eq]
  exact (apply_ite Value.finite _ _ _).symm

omit [Field K] in
theorem nd4jMax_finite (a b : K) :
    nd4jMax (.finite a) (.finite b) = .finite (if b < a then a else b) := by
  simp only [nd4jMax, Value.less_finite, decide_eq_true_eq]
  exact (apply_ite Value.finite _ _ _).symm

variable {root : SquareRoot K} {kind : Reduce3Kind}

/-- One pair adds its term and its norms. -/
theorem accumulate_finite (hkind : kind ≠ .equalsWithEps) (c : Value K) (s : K)
    (sums : (K → K → K) → K) (p : K × K) :
    (kind.opType root).accumulate (c + .finite s, kind.norms.map fun f => .finite (sums f))
        (elements p) =
      some (c + .finite (s + kind.term p.1 p.2),
        kind.norms.map fun f => .finite (sums f + f p.1 p.2)) := by
  cases kind with
  | equalsWithEps => exact absurd rfl hkind
  | manhattanDistance =>
      simp [Reduce3Kind.opType, manhattanDistance, Reduce3Op.accumulate, Reduce3Kind.term,
        Reduce3Kind.norms, elements, Value.add_finite_add]
  | euclideanDistance =>
      simp [Reduce3Kind.opType, euclideanDistance, Reduce3Op.accumulate, Reduce3Kind.term,
        Reduce3Kind.norms, elements, Value.add_finite_add, Value.finite_add_comm]
  | cosineSimilarity =>
      simp [Reduce3Kind.opType, cosineSimilarity, Reduce3Op.accumulate, Reduce3Kind.term,
        Reduce3Kind.norms, elements, Value.add_finite_add]
  | dot =>
      simp [Reduce3Kind.opType, dot, Reduce3Op.accumulate, Reduce3Kind.term,
        Reduce3Kind.norms, elements, Value.add_finite_add, Value.finite_add_comm]
  | cosineDistance =>
      simp [Reduce3Kind.opType, cosineDistance, Reduce3Op.accumulate, Reduce3Kind.term,
        Reduce3Kind.norms, elements, Value.add_finite_add]
  | jaccardDistance =>
      simp [Reduce3Kind.opType, jaccardDistance, Reduce3Op.accumulate, Reduce3Kind.term,
        Reduce3Kind.norms, elements, Value.add_finite_zero, Value.zero_eq, nd4jMin_finite,
        nd4jMax_finite]
  | simpleHammingDistance =>
      have hterm : (if p.1 = p.2 then (0 : Value K) else 1) =
          .finite (if p.1 = p.2 then 0 else 1) := (apply_ite Value.finite _ _ _).symm
      simp [Reduce3Kind.opType, simpleHammingDistance, Reduce3Op.accumulate, Reduce3Kind.term,
        Reduce3Kind.norms, elements, Value.add_finite_add, hterm]

/-- The fold adds the terms to what the result held before. -/
theorem foldlM_accumulate (hkind : kind ≠ .equalsWithEps) (c : Value K) (pairs : List (K × K)) :
    (pairs.map elements).foldlM (kind.opType root).accumulate
        (c, List.replicate (kind.opType root).extraParamsLen 0) =
      some (c + .finite (sumOver kind.term pairs),
        kind.norms.map fun f => .finite (sumOver f pairs)) := by
  induction pairs using List.reverseRecOn with
  | nil =>
      have hparams : List.replicate (kind.opType root).extraParamsLen (0 : Value K) =
          kind.norms.map fun f => .finite (sumOver f []) := by
        cases kind <;> rfl
      rw [hparams, sumOver_nil, Value.add_finite_zero]
      rfl
  | append_singleton pairs p ih =>
      rw [List.map_append, List.foldlM_append, ih]
      simp only [sumOver_snoc]
      exact (congrArg (fun o => o >>= pure) (accumulate_finite hkind c _ _ p)).trans (by rfl)

/-- What a fold over pairs of numbers leaves. -/
def outcome (root : SquareRoot K) (kind : Reduce3Kind) (c : Value K) (pairs : List (K × K)) :
    Value K :=
  (kind.opType root).postProcess (c + .finite (sumOver kind.term pairs)) pairs.length
    (kind.norms.map fun f => .finite (sumOver f pairs))

theorem reduceFrom_finite (hkind : kind ≠ .equalsWithEps) (c : Value K) (pairs : List (K × K)) :
    (kind.opType root).reduceFrom 0 c (pairs.map elements) = some (outcome root kind c pairs) := by
  rw [Reduce3Op.reduceFrom, foldlM_accumulate hkind, List.length_map]
  rfl

variable {pairs : List (K × K)}

/-- The order of the pairs is irrelevant. -/
theorem outcome_perm (c : Value K) {pairs' : List (K × K)} (h : pairs.Perm pairs') :
    outcome root kind c pairs = outcome root kind c pairs' := by
  simp only [outcome, sumOver_perm _ h, h.length_eq]

/-- Without extra parameters the comparison with a tolerance cannot be evaluated. -/
theorem reduceFrom_equalsWithEps (c : Value K) {pairs : List (Value K × Value K)}
    (hne : pairs ≠ []) :
    (Reduce3Kind.equalsWithEps.opType root).reduceFrom 0 c pairs = none := by
  obtain ⟨p, rest, rfl⟩ := List.exists_cons_of_ne_nil hne
  rfl

/-! ## What the result held before -/

variable [IsStrictOrderedRing K]

theorem sumOver_nonneg {f : K → K → K} (hf : ∀ a b, 0 ≤ f a b) (pairs : List (K × K)) :
    0 ≤ sumOver f pairs := by
  apply List.sum_nonneg
  intro v hv
  obtain ⟨p, -, rfl⟩ := List.mem_map.mp hv
  exact hf p.1 p.2

/-- A sum of terms that are not negative vanishes only if they all do. -/
theorem sumOver_eq_zero_iff {f : K → K → K} (hf : ∀ a b, 0 ≤ f a b) (pairs : List (K × K)) :
    sumOver f pairs = 0 ↔ ∀ p ∈ pairs, f p.1 p.2 = 0 := by
  induction pairs with
  | nil => simp
  | cons p pairs ih =>
      rw [sumOver_cons, add_eq_zero_iff_of_nonneg (hf p.1 p.2) (sumOver_nonneg hf pairs), ih,
        List.forall_mem_cons]

/-- A cosine of arrays one of which is zero. -/
def Unmeasured (kind : Reduce3Kind) (pairs : List (K × K)) : Prop :=
  (kind = .cosineSimilarity ∨ kind = .cosineDistance) ∧
    ((∀ p ∈ pairs, p.1 = 0) ∨ ∀ p ∈ pairs, p.2 = 0)

/-- The denominator of a cosine. -/
theorem norm_eq_zero_iff (root : SquareRoot K) (pairs : List (K × K)) :
    root.root (sumOver (fun a _ => a * a) pairs) * root.root (sumOver (fun _ b => b * b) pairs) =
        0 ↔ (∀ p ∈ pairs, p.1 = 0) ∨ ∀ p ∈ pairs, p.2 = 0 := by
  have hfirst :=
    sumOver_eq_zero_iff (f := fun a _ : K => a * a) (fun a _ => mul_self_nonneg a) pairs
  have hsecond :=
    sumOver_eq_zero_iff (f := fun _ b : K => b * b) (fun _ b => mul_self_nonneg b) pairs
  have hnonneg := sumOver_nonneg (f := fun a _ : K => a * a) (fun a _ => mul_self_nonneg a) pairs
  have hnonneg' := sumOver_nonneg (f := fun _ b : K => b * b) (fun _ b => mul_self_nonneg b) pairs
  simp only [mul_self_eq_zero] at hfirst hsecond
  rw [mul_eq_zero, root.root_eq_zero_iff hnonneg, root.root_eq_zero_iff hnonneg', hfirst, hsecond]

/-- What a cosine divides. -/
theorem cosine_eq (root : SquareRoot K) (c : Value K) (pairs : List (K × K)) :
    outcome root .cosineSimilarity c pairs = (c + .finite (sumOver (fun a b => a * b) pairs)) /
      .finite (root.root (sumOver (fun a _ => a * a) pairs) *
        root.root (sumOver (fun _ b => b * b) pairs)) := by
  have hnonneg := sumOver_nonneg (f := fun a _ : K => a * a) (fun a _ => mul_self_nonneg a) pairs
  have hnonneg' := sumOver_nonneg (f := fun _ b : K => b * b) (fun _ b => mul_self_nonneg b) pairs
  simp only [outcome, Reduce3Kind.opType, cosineSimilarity, Reduce3Kind.norms, List.map_cons,
    List.map_nil, List.getD_cons_zero, List.getD_cons_succ]
  rw [Value.sqrt_finite root hnonneg, Value.sqrt_finite root hnonneg', Value.finite_mul]
  rfl

omit [IsStrictOrderedRing K] in
/-- The distance is the similarity taken from one. -/
theorem cosineDistance_eq (root : SquareRoot K) (c : Value K) (pairs : List (K × K)) :
    outcome root .cosineDistance c pairs = 1 - outcome root .cosineSimilarity c pairs := by
  simp only [outcome, Reduce3Kind.opType, cosineDistance, cosineSimilarity, Reduce3Kind.norms,
    abs_mul_abs_self]
  rfl

/-- What the result held before is of no effect if it held zero, if the operation does not look
at it, or if it was invalid and the outcome is. -/
theorem outcome_eq_iff (hkind : kind ≠ .equalsWithEps) (c : Value K) (hne : pairs ≠ []) :
    outcome root kind c pairs = outcome root kind 0 pairs ↔
      kind = .jaccardDistance ∨ c = 0 ∨ (Unmeasured kind pairs ∧ c = .nan) := by
  have hcosine : outcome root .cosineSimilarity c pairs = outcome root .cosineSimilarity 0 pairs ↔
      c = 0 ∨ (((∀ p ∈ pairs, p.1 = 0) ∨ ∀ p ∈ pairs, p.2 = 0) ∧ c = .nan) := by
    rw [cosine_eq, cosine_eq, Value.zero_add_finite, Value.div_finite_eq_iff, norm_eq_zero_iff]
    intro h
    have hterms : ∀ p ∈ pairs, p.1 * p.2 = 0 := by
      intro p hp
      rcases (norm_eq_zero_iff root pairs).mp h with h | h
      · rw [h p hp, zero_mul]
      · rw [h p hp, mul_zero]
    exact List.sum_eq_zero fun v hv => by
      obtain ⟨p, hp, rfl⟩ := List.mem_map.mp hv
      exact hterms p hp
  cases kind with
  | equalsWithEps => exact absurd rfl hkind
  | manhattanDistance =>
      simp [outcome, Reduce3Kind.opType, manhattanDistance, Value.zero_add_finite,
        Value.add_finite_eq_iff, Unmeasured]
  | euclideanDistance =>
      have hnonneg := sumOver_nonneg (f := fun a b : K => (a - b) * (a - b))
        (fun a b => mul_self_nonneg (a - b)) pairs
      have hroot : outcome root .euclideanDistance c pairs =
          outcome root .euclideanDistance 0 pairs ↔ c = 0 := by
        simp only [outcome, Reduce3Kind.opType, euclideanDistance, Value.zero_add_finite]
        exact Value.sqrt_add_eq_iff root c hnonneg
      rw [hroot]
      simp [Unmeasured]
  | cosineSimilarity =>
      rw [hcosine]
      simp [Unmeasured]
  | dot =>
      simp [outcome, Reduce3Kind.opType, dot, Value.zero_add_finite, Value.add_finite_eq_iff,
        Unmeasured]
  | cosineDistance =>
      rw [cosineDistance_eq, cosineDistance_eq, Value.one_sub_inj, hcosine]
      simp [Unmeasured]
  | jaccardDistance => simp [outcome, Reduce3Kind.opType, jaccardDistance]
  | simpleHammingDistance =>
      have hlength : (pairs.length : K) ≠ 0 := by
        rw [Nat.cast_ne_zero]
        exact List.length_pos_of_ne_nil hne |>.ne'
      simp only [outcome, Reduce3Kind.opType, simpleHammingDistance, Value.zero_add_finite]
      rw [Value.div_finite_eq_iff c fun h => absurd h hlength]
      simp [Unmeasured, hlength]

/-! ## Pairs of zeros and ones -/

/-- Pairs with a one on both sides are among those with a one on either side. -/
theorem Bits.bounds (h : Bits pairs) :
    0 ≤ sumOver (fun a b => a * b) pairs ∧
      sumOver (fun a b => a * b) pairs ≤ sumOver (fun a _ => a) pairs ∧
      sumOver (fun a b => a * b) pairs ≤ sumOver (fun _ b => b) pairs := by
  refine ⟨List.sum_nonneg fun v hv => ?_, List.sum_le_sum fun p hp => ?_,
    List.sum_le_sum fun p hp => ?_⟩
  · obtain ⟨p, hp, rfl⟩ := List.mem_map.mp hv
    rcases h p hp with ⟨ha | ha, hb | hb⟩ <;> simp [ha, hb]
  · rcases h p hp with ⟨ha | ha, hb | hb⟩ <;> simp [ha, hb]
  · rcases h p hp with ⟨ha | ha, hb | hb⟩ <;> simp [ha, hb]

/-- The outcome for `n` pairs of zeros and ones, of which `ones` have a one on the left, `ones'` on
the right and `both` on both sides. -/
def counted (root : SquareRoot K) (kind : Reduce3Kind) (n ones ones' both : K) : Value K :=
  match kind with
  | .manhattanDistance => .finite (ones + ones' - 2 * both)
  | .euclideanDistance => (Value.finite (ones + ones' - 2 * both)).sqrt root
  | .cosineSimilarity => .finite both / .finite (root.root ones * root.root ones')
  | .dot => .finite both
  | .equalsWithEps => .nan
  | .cosineDistance => 1 - .finite both / .finite (root.root ones * root.root ones')
  | .jaccardDistance => 1 - .finite both / .finite (ones + ones' - both)
  | .simpleHammingDistance => .finite (ones + ones' - 2 * both) / .finite n

variable (hkind : kind ≠ .equalsWithEps)

include hkind

/-- The outcome for zeros and ones. -/
theorem outcome_bits (hbits : Bits pairs) :
    outcome root kind 0 pairs =
      counted root kind pairs.length (sumOver (fun a _ => a) pairs)
        (sumOver (fun _ b => b) pairs) (sumOver (fun a b => a * b) pairs) := by
  have hfirst : sumOver (fun a _ : K => a * a) pairs = sumOver (fun a _ => a) pairs := by
    rw [hbits.sumOver_eq (u := 1) (v := 0) (w := 0)] <;> simp
  have hsecond : sumOver (fun _ b : K => b * b) pairs = sumOver (fun _ b => b) pairs := by
    rw [hbits.sumOver_eq (u := 0) (v := 1) (w := 0)] <;> simp
  have hdiffer : ∀ f : K → K → K, f 0 0 = 0 → f 1 0 = 1 → f 0 1 = 1 → f 1 1 = 0 →
      sumOver f pairs = sumOver (fun a _ => a) pairs + sumOver (fun _ b => b) pairs -
        2 * sumOver (fun a b => a * b) pairs := by
    intro f h00 h10 h01 h11
    rw [hbits.sumOver_eq h00 h10 h01 (w := -2) (by rw [h11]; ring)]
    ring
  cases kind with
  | equalsWithEps => exact absurd rfl hkind
  | manhattanDistance =>
      simp only [outcome, Reduce3Kind.opType, manhattanDistance, Value.zero_add_finite, counted]
      rw [hdiffer] <;> simp [Reduce3Kind.term]
  | euclideanDistance =>
      simp only [outcome, Reduce3Kind.opType, euclideanDistance, Value.zero_add_finite, counted]
      rw [hdiffer] <;> simp [Reduce3Kind.term]
  | cosineSimilarity => rw [cosine_eq, Value.zero_add_finite, hfirst, hsecond, counted]
  | dot =>
      simp only [outcome, Reduce3Kind.opType, dot, Value.zero_add_finite, counted]
      rfl
  | cosineDistance =>
      rw [cosineDistance_eq, cosine_eq, Value.zero_add_finite, hfirst, hsecond, counted]
  | jaccardDistance =>
      have hmin : sumOver (fun a b : K => if a < b then a else b) pairs =
          sumOver (fun a b => a * b) pairs := by
        rw [hbits.sumOver_eq (u := 0) (v := 0) (w := 1)] <;> simp
      have hmax : sumOver (fun a b : K => if b < a then a else b) pairs =
          sumOver (fun a _ => a) pairs + sumOver (fun _ b => b) pairs -
            sumOver (fun a b => a * b) pairs := by
        rw [hbits.sumOver_eq (u := 1) (v := 1) (w := -1)] <;> simp
        ring
      simp only [outcome, Reduce3Kind.opType, jaccardDistance, counted, Reduce3Kind.norms,
        List.map_cons, List.map_nil, List.getD_cons_zero, List.getD_cons_succ, hmin, hmax]
  | simpleHammingDistance =>
      simp only [outcome, Reduce3Kind.opType, simpleHammingDistance, Value.zero_add_finite, counted]
      rw [hdiffer] <;> simp [Reduce3Kind.term]

/-- How many pairs have a one on both sides determines the outcome. -/
theorem both_of_counted {n ones ones' both both' : K} (hn : 0 < n) (hones : 0 < ones)
    (hones' : 0 < ones') (hleft : both ≤ ones) (hright : both ≤ ones') (hleft' : both' ≤ ones)
    (hright' : both' ≤ ones')
    (h : counted root kind n ones ones' both = counted root kind n ones ones' both') :
    both = both' := by
  have hlinear : ones + ones' - 2 * both = ones + ones' - 2 * both' → both = both' := by
    intro heq
    linarith
  have hnorm : root.root ones * root.root ones' ≠ 0 :=
    mul_ne_zero (fun h => hones.ne' ((root.root_eq_zero_iff hones.le).mp h))
      fun h => hones'.ne' ((root.root_eq_zero_iff hones'.le).mp h)
  have hcosine : Value.finite both / .finite (root.root ones * root.root ones') =
      Value.finite both' / .finite (root.root ones * root.root ones') → both = both' := by
    rw [Value.finite_div_of_ne hnorm, Value.finite_div_of_ne hnorm, Value.finite.injEq]
    exact fun heq => (div_left_inj' hnorm).mp heq
  cases kind with
  | equalsWithEps => exact absurd rfl hkind
  | manhattanDistance => exact hlinear (Value.finite.inj h)
  | euclideanDistance =>
      have hnonneg : 0 ≤ ones + ones' - 2 * both := by linarith
      have hnonneg' : 0 ≤ ones + ones' - 2 * both' := by linarith
      rw [counted, counted, Value.sqrt_finite root hnonneg, Value.sqrt_finite root hnonneg'] at h
      exact hlinear (root.root_inj hnonneg hnonneg' (Value.finite.inj h))
  | cosineSimilarity => exact hcosine h
  | dot => exact Value.finite.inj h
  | cosineDistance => exact hcosine ((Value.one_sub_inj _ _).mp h)
  | jaccardDistance =>
      have hpos : ones + ones' - both ≠ 0 := by linarith
      have hpos' : ones + ones' - both' ≠ 0 := by linarith
      have heq := (Value.one_sub_inj _ _).mp h
      rw [Value.finite_div_of_ne hpos, Value.finite_div_of_ne hpos', Value.finite.injEq,
        div_eq_div_iff hpos hpos'] at heq
      have hsum : ones + ones' ≠ 0 := by linarith
      exact mul_right_cancel₀ hsum (by linarith)
  | simpleHammingDistance =>
      rw [counted, counted, Value.finite_div_of_ne hn.ne', Value.finite_div_of_ne hn.ne',
        Value.finite.injEq] at h
      exact hlinear ((div_left_inj' hn.ne').mp h)

/-- Against ones, the number of ones determines the outcome. -/
theorem ones_of_counted {n ones ones' : K} (hn : 0 < n) (hnonneg : 0 ≤ ones) (hnonneg' : 0 ≤ ones')
    (hle : ones ≤ n) (hle' : ones' ≤ n)
    (h : counted root kind n n ones ones = counted root kind n n ones' ones') : ones = ones' := by
  have hlinear : n + ones - 2 * ones = n + ones' - 2 * ones' → ones = ones' := by
    intro heq
    linarith
  have hroot : root.root n ≠ 0 := fun h => hn.ne' ((root.root_eq_zero_iff hn.le).mp h)
  -- a cosine of no ones is invalid, another one is a multiple of the square root
  have hquotient : ∀ v, 0 ≤ v → Value.finite v / .finite (root.root n * root.root v) =
      if v = 0 then .nan else .finite (root.root v / root.root n) := by
    intro v hv
    by_cases hzero : v = 0
    · rw [if_pos hzero, hzero, (root.root_eq_zero_iff le_rfl).mpr rfl, mul_zero, Value.finite_div,
        if_pos rfl, if_pos rfl]
    · have hv0 : root.root v ≠ 0 := fun h => hzero ((root.root_eq_zero_iff hv).mp h)
      rw [if_neg hzero, Value.finite_div_of_ne (mul_ne_zero hroot hv0), Value.finite.injEq]
      nth_rewrite 1 [← root.mul_self_root v hv]
      exact mul_div_mul_right _ _ hv0
  have hcosine : Value.finite ones / .finite (root.root n * root.root ones) =
      Value.finite ones' / .finite (root.root n * root.root ones') → ones = ones' := by
    rw [hquotient ones hnonneg, hquotient ones' hnonneg']
    by_cases hzero : ones = 0
    · by_cases hzero' : ones' = 0
      · exact fun _ => hzero.trans hzero'.symm
      · simp [hzero, hzero']
    · by_cases hzero' : ones' = 0
      · simp [hzero, hzero']
      · rw [if_neg hzero, if_neg hzero', Value.finite.injEq]
        exact fun heq => root.root_inj hnonneg hnonneg' ((div_left_inj' hroot).mp heq)
  cases kind with
  | equalsWithEps => exact absurd rfl hkind
  | manhattanDistance => exact hlinear (Value.finite.inj h)
  | euclideanDistance =>
      have hroom : 0 ≤ n + ones - 2 * ones := by linarith
      have hroom' : 0 ≤ n + ones' - 2 * ones' := by linarith
      rw [counted, counted, Value.sqrt_finite root hroom, Value.sqrt_finite root hroom'] at h
      exact hlinear (root.root_inj hroom hroom' (Value.finite.inj h))
  | cosineSimilarity => exact hcosine h
  | dot => exact Value.finite.inj h
  | cosineDistance => exact hcosine ((Value.one_sub_inj _ _).mp h)
  | jaccardDistance =>
      have heq := (Value.one_sub_inj _ _).mp h
      rw [add_sub_cancel_right, add_sub_cancel_right, Value.finite_div_of_ne hn.ne',
        Value.finite_div_of_ne hn.ne', Value.finite.injEq] at heq
      exact (div_left_inj' hn.ne').mp heq
  | simpleHammingDistance =>
      rw [counted, counted, Value.finite_div_of_ne hn.ne', Value.finite_div_of_ne hn.ne',
        Value.finite.injEq] at h
      exact hlinear ((div_left_inj' hn.ne').mp h)

omit hkind

/-! ## Reading the same cells -/

section Cells

variable {κ κ' : Type} [DecidableEq κ] [DecidableEq κ']

omit [DecidableEq κ] [LinearOrder K] [IsStrictOrderedRing K] in
/-- Zeros and ones on the left, read against a single one. -/
theorem bits_single {xs : κ → K} (hxs : ∀ k, xs k = 0 ∨ xs k = 1) (b : κ')
    (cells : List (κ × κ')) : Bits (cells.map (readPair xs (Pi.single b 1))) := by
  intro p hp
  obtain ⟨cell, -, rfl⟩ := List.mem_map.mp hp
  refine ⟨hxs cell.1, ?_⟩
  by_cases hcell : cell.2 = b
  · exact Or.inr (by simp [readPair, hcell])
  · exact Or.inl (by simp [readPair, hcell])

section Agreement

variable {pairs pairs' : List (κ × κ')}

omit [DecidableEq κ] in
/-- Operations that agree for all contents read every cell of the second memory equally often. -/
theorem sumOver_snd_of_outcome_eq (hkind : kind ≠ .equalsWithEps)
    (hlen : pairs.length = pairs'.length) (hne : pairs ≠ [])
    (h : ∀ (xs : κ → K) (ys : κ' → K), outcome root kind 0 (pairs.map (readPair xs ys)) =
      outcome root kind 0 (pairs'.map (readPair xs ys))) (xs : κ → K) (b : κ') :
    sumOver (fun _ v => v) (pairs.map (readPair xs (Pi.single b 1))) =
      sumOver (fun _ v => v) (pairs'.map (readPair xs (Pi.single b 1))) := by
  have hn : (0 : K) < pairs.length := Nat.cast_pos.mpr (List.length_pos_of_ne_nil hne)
  -- read against ones
  have hone : ∀ k : κ, (1 : K) = 0 ∨ (1 : K) = 1 := fun _ => Or.inr rfl
  have hagree := h (fun _ => 1) (Pi.single b 1)
  have hboth : ∀ cells : List (κ × κ'),
      sumOver (fun u v => u * v) (cells.map (readPair (fun _ => (1 : K)) (Pi.single b 1))) =
        sumOver (fun _ v => v) (cells.map (readPair xs (Pi.single b 1))) := by
    intro cells
    simp [sumOver, readPair, Function.comp_def]
  have hsnd : ∀ cells : List (κ × κ'),
      sumOver (fun _ v => v) (cells.map (readPair (fun _ => (1 : K)) (Pi.single b 1))) =
        sumOver (fun _ v => v) (cells.map (readPair xs (Pi.single b 1))) := by
    intro cells
    simp [sumOver, readPair, Function.comp_def]
  have hall : ∀ cells : List (κ × κ'),
      sumOver (fun u _ => u) (cells.map (readPair (fun _ => (1 : K)) (Pi.single b 1))) =
        cells.length := by
    intro cells
    simp [sumOver, readPair, Function.comp_def]
  have hbounds := (bits_single hone b pairs).bounds
  have hbounds' := (bits_single hone b pairs').bounds
  rw [hboth, hsnd, hall] at hbounds hbounds'
  rw [outcome_bits hkind (bits_single hone b pairs),
    outcome_bits hkind (bits_single hone b pairs'), hboth, hboth, hsnd, hsnd, hall, hall,
    List.length_map, List.length_map, ← hlen] at hagree
  rw [← hlen] at hbounds'
  exact ones_of_counted hkind hn hbounds.1 hbounds'.1 hbounds.2.1 hbounds'.2.1 hagree

/-- Operations that agree for all contents, and read the same cells of the first memory, read every
pair of cells equally often. -/
theorem sumOver_mul_of_outcome_eq (hkind : kind ≠ .equalsWithEps)
    (hfst : (pairs.map Prod.fst).Perm (pairs'.map Prod.fst)) (hne : pairs ≠ [])
    (h : ∀ (xs : κ → K) (ys : κ' → K), outcome root kind 0 (pairs.map (readPair xs ys)) =
      outcome root kind 0 (pairs'.map (readPair xs ys))) (a : κ) (b : κ') :
    sumOver (fun u v => u * v) (pairs.map (readPair (Pi.single a (1 : K)) (Pi.single b 1))) =
      sumOver (fun u v => u * v) (pairs'.map (readPair (Pi.single a 1) (Pi.single b 1))) := by
  have hlen : pairs.length = pairs'.length := by simpa using hfst.length_eq
  have hn : (0 : K) < pairs.length := Nat.cast_pos.mpr (List.length_pos_of_ne_nil hne)
  have hsingle : ∀ k : κ, (Pi.single a 1 : κ → K) k = 0 ∨ (Pi.single a 1 : κ → K) k = 1 := by
    intro k
    by_cases hk : k = a
    · exact Or.inr (by simp [hk])
    · exact Or.inl (by simp [hk])
  have hones : sumOver (fun u _ => u) (pairs.map (readPair (Pi.single a (1 : K)) (Pi.single b 1))) =
      sumOver (fun u _ => u) (pairs'.map (readPair (Pi.single a 1) (Pi.single b 1))) := by
    have hsum := (hfst.map (Pi.single a (1 : K))).sum_eq
    simpa [sumOver, readPair, Function.comp_def] using hsum
  have hones' := sumOver_snd_of_outcome_eq hkind hlen hne h (Pi.single a 1) b
  obtain ⟨hnonneg, hleft, hright⟩ := (bits_single hsingle b pairs).bounds
  obtain ⟨hnonneg', hleft', hright'⟩ := (bits_single hsingle b pairs').bounds
  have hagree := h (Pi.single a 1) (Pi.single b 1)
  rw [outcome_bits hkind (bits_single hsingle b pairs),
    outcome_bits hkind (bits_single hsingle b pairs'), List.length_map, List.length_map, ← hlen,
    ← hones, ← hones'] at hagree
  rw [← hones] at hleft'
  rw [← hones'] at hright'
  -- without ones on a side there are none on both
  rcases (hnonneg.trans hleft).eq_or_lt with hzero | hpos
  · exact (le_antisymm (hleft.trans hzero.ge) hnonneg).trans
      (le_antisymm (hleft'.trans hzero.ge) hnonneg').symm
  rcases (hnonneg.trans hright).eq_or_lt with hzero | hpos'
  · exact (le_antisymm (hright.trans hzero.ge) hnonneg).trans
      (le_antisymm (hright'.trans hzero.ge) hnonneg').symm
  exact both_of_counted hkind hn hpos hpos' hleft hright hleft' hright' hagree

/-- Operations that agree for all contents of two memories, and read the same cells of the one, read
the same pairs of cells. -/
theorem perm_of_outcome_eq (hkind : kind ≠ .equalsWithEps)
    (hfst : (pairs.map Prod.fst).Perm (pairs'.map Prod.fst))
    (h : ∀ (xs : κ → K) (ys : κ' → K), outcome root kind 0 (pairs.map (readPair xs ys)) =
      outcome root kind 0 (pairs'.map (readPair xs ys))) : pairs.Perm pairs' := by
  by_cases hnil : pairs = []
  · rw [hnil] at hfst ⊢
    have hlen := hfst.length_eq
    rw [List.length_map, List.length_map, List.length_nil] at hlen
    rw [List.eq_nil_of_length_eq_zero hlen.symm]
  rw [List.perm_iff_count]
  rintro ⟨a, b⟩
  have hboth := sumOver_mul_of_outcome_eq hkind hfst hnil h a b
  rw [sumOver_single, sumOver_single] at hboth
  exact_mod_cast hboth

end Agreement

end Cells

end Operations

end Ops
end LibND4J
