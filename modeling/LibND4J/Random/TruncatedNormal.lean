import Mathlib.Analysis.Complex.ExponentialBounds
import Mathlib.Analysis.Real.Pi.Bounds
import LibND4J.Arrays.Cells
import LibND4J.Library.Retries
import LibND4J.Random.RandomBuffer

/-!
# The truncated normal distribution

The operation turns two uniform draws into two normal candidates, and retries with draws one
length of the output ahead until both pass a test.  The first candidate is an output of the first
half, the second one the output as far into the second half.

Main results:

- Theorem `inside_of_not_rejected`: what passes the test lies within two deviations of its
  mean.
- Theorem `indexes_perm`: every output index is stored once, in any number of threads.
- Theorem `exists_boxMuller`: draws whose candidates are two deviations off.
- Theorem `truncates_iff`: the test rejects only what lies outside exactly for means of zero;
  the means of an array are read inside it exactly for an even length.
-/

namespace LibND4J
namespace Random

open Arrays Loops Retries Shape

/-- `relativeT` between two bounds. -/
def RandomBuffer.relativeTBetween {T : Type*} [Field T] (rb : RandomBuffer) (index : Nat)
    (lower upper : T) : T :=
  lower + rb.relativeT index * (upper - lower)

/-- The functions of the C library. -/
structure Elementary (T : Type*) where
  sqrt : T → T
  log : T → T
  cos : T → T
  sin : T → T

namespace TruncatedNormal

theorem atLeastTwo_two : Nat.AtLeastTwo 2 :=
  ⟨by decide⟩

attribute [local instance] atLeastTwo_two

/-- The arguments: the shape information of the output, the means, if they are an array, with
their element-wise stride, and the two extra arguments. -/
structure Arguments (T : Type*) where
  zShapeBuffer : ShapeInfo
  y : Option (Int → T)
  yEWS : Int
  mean : T
  stddev : T

/-- What the loops leave: the output, and the indices that were stored with the values. -/
structure Outcome (T : Type*) where
  z : Int → T
  stores : List (Nat × T)

section Operation

variable {T : Type*} [Field T] [LinearOrder T]

def middle (zLength : Nat) : Nat :=
  if zLength % 2 = 0 then zLength / 2 else zLength / 2 + 1

/-- The number of pairs that a thread is given; the chunks are even. -/
def spanSize (settings : Settings) (middle : Nat) : Nat :=
  let threads := numThreads middle settings.tadThreshold settings.maxThreads
  let span := middle / threads + 8
  span - span % 2

/-- The pairs in the order of the threads. -/
def pairsOf (settings : Settings) (middle : Nat) : List Nat :=
  let threads := numThreads middle settings.tadThreshold settings.maxThreads
  (List.range threads).flatMap (spanOf (spanSize settings middle) middle)

/-- The mean of an output. -/
def realMean (args : Arguments T) (index : Nat) : T :=
  match args.y with
  | some y => y (index * args.yEWS)
  | none => args.mean

/-- The elements of the means that are read, before the attempts of every pair. -/
def yReads (settings : Settings) (args : Arguments T) : List Nat :=
  let middle := middle args.zShapeBuffer.length
  match args.y with
  | some _ => (pairsOf settings middle).flatMap fun e => [e, e + middle]
  | none => []

/-- Two uniform draws as two normal ones. -/
def boxMuller (f : Elementary T) (u0 u1 : T) : T × T :=
  let two_pi := 2 * 3.14159265358979323846
  let lnu0 := f.sqrt (-2 * f.log u0)
  (lnu0 * f.cos (two_pi * u1), lnu0 * f.sin (two_pi * u1))

/-- The candidates of a pair. -/
def candidates (f : Elementary T) (draws : Nat → T) (args : Arguments T)
    (e generation0 : Nat) : T × T :=
  let middle := middle args.zShapeBuffer.length
  let z := boxMuller f (draws (e + generation0)) (draws (e + middle + generation0))
  (z.1 * args.stddev + realMean args e, z.2 * args.stddev + realMean args (e + middle))

/-- The test that sends the loop into its next round. -/
def Rejected (args : Arguments T) (e : Nat) (result : T × T) : Prop :=
  let ds := |args.stddev| * 2
  let middle := middle args.zShapeBuffer.length
  |realMean args e| + |result.1| > ds ∨ |realMean args (e + middle)| + |result.2| > ds

instance (args : Arguments T) (e : Nat) : DecidablePred (Rejected args e) :=
  fun _ => inferInstanceAs (Decidable (_ ∨ _))

/-- The stores of a pair: the second one only inside the output. -/
def storesOf (zLength e : Nat) (result : T × T) : List (Nat × T) :=
  if e + middle zLength < zLength then
    [(e, result.1), (e + middle zLength, result.2)]
  else
    [(e, result.1)]

/-- The loops of the threads on a stream of draws. -/
def run (f : Elementary T) (draws : Nat → T) (settings : Settings) (args : Arguments T)
    (fuel : Nat) (z : Int → T) : Option (Outcome T) :=
  let zLength := args.zShapeBuffer.length
  let pairs := pairsOf settings (middle zLength)
  (pairs.mapM fun e =>
      retry (candidates f draws args e) (Rejected args e) (· + zLength) fuel 0).map fun results =>
    let stores := (pairs.zip results).flatMap fun pair => storesOf zLength pair.1 pair.2
    { z := Stores.storeAll (fun store : Nat × T => store.1 * args.zShapeBuffer.elementWiseStride)
        (fun store _ => store.2) stores z
      stores }

/-- `TruncatedNormalDistribution::specialOp`. -/
def specialOp (f : Elementary T) (state : RandomBuffer) (settings : Settings)
    (args : Arguments T) (fuel : Nat) (z : Int → T) : Option ((Int → T) × RandomBuffer) :=
  (run f (fun index => state.relativeTBetween index 1e-6 1) settings args fuel z).map
    fun outcome => (outcome.z, state.rewindH args.zShapeBuffer.length)

end Operation

/-! ## The pairs -/

theorem pairsOf_eq (settings : Settings) (middle : Nat) :
    pairsOf settings middle = List.range middle := by
  have hthreads := numThreads_pos middle settings.tadThreshold settings.maxThreads_pos
  apply spanOf_flatMap
  rw [spanSize]
  generalize numThreads middle settings.tadThreshold settings.maxThreads = threads at hthreads ⊢
  show middle ≤ (middle / threads + 8 - (middle / threads + 8) % 2) * threads
  rw [Nat.add_sub_assoc (by omega)]
  exact le_span_mul hthreads (by omega)

theorem middle_le (zLength : Nat) :
    zLength ≤ 2 * middle zLength ∧ 2 * middle zLength ≤ zLength + 1 := by
  rw [middle]
  split <;> omega

/-- The indices that a pair stores. -/
def indexesOf (zLength e : Nat) : List Nat :=
  if e + middle zLength < zLength then [e, e + middle zLength] else [e]

theorem map_fst_storesOf {T : Type*} (zLength e : Nat) (result : T × T) :
    (storesOf zLength e result).map Prod.fst = indexesOf zLength e := by
  rw [storesOf, indexesOf]
  split <;> rfl

theorem mem_indexesOf {zLength e k : Nat} :
    k ∈ indexesOf zLength e ↔ k = e ∨ k = e + middle zLength ∧ k < zLength := by
  rw [indexesOf]
  split <;> simp <;> omega

/-- The pairs store every index once. -/
theorem indexes_perm (zLength : Nat) :
    ((List.range (middle zLength)).flatMap (indexesOf zLength)).Perm (List.range zLength) := by
  have hmiddle := middle_le zLength
  refine (List.perm_ext_iff_of_nodup ?_ List.nodup_range).mpr fun k => ?_
  · rw [List.nodup_flatMap]
    constructor
    · intro e he
      rw [List.mem_range] at he
      rw [indexesOf]
      split
      · simp
        omega
      · exact List.nodup_singleton e
    · refine List.nodup_range.imp_of_mem fun {e e'} he he' hne => ?_
      rw [List.mem_range] at he he'
      rw [Function.onFun, List.disjoint_left]
      intro k hk hk'
      rw [mem_indexesOf] at hk hk'
      omega
  · rw [List.mem_flatMap, List.mem_range]
    constructor
    · rintro ⟨e, he, hk⟩
      rw [List.mem_range] at he
      rw [mem_indexesOf] at hk
      omega
    · intro hk
      rcases Nat.lt_or_ge k (middle zLength) with hlt | hge
      · exact ⟨k, List.mem_range.mpr hlt, mem_indexesOf.mpr (.inl rfl)⟩
      · exact ⟨k - middle zLength, List.mem_range.mpr (by omega),
          mem_indexesOf.mpr (.inr ⟨by omega, hk⟩)⟩

/-! ## The test -/

section Test

variable {T : Type*} [Field T] [LinearOrder T] [IsStrictOrderedRing T]

/-- A value lies within two deviations of the mean of an output. -/
def Inside (args : Arguments T) (index : Nat) (value : T) : Prop :=
  realMean args index - 2 * |args.stddev| ≤ value ∧
    value ≤ realMean args index + 2 * |args.stddev|

variable {args : Arguments T}

theorem inside_iff {index : Nat} {value : T} :
    Inside args index value ↔ |value - realMean args index| ≤ 2 * |args.stddev| := by
  rw [Inside, abs_le]
  constructor
  · rintro ⟨hlow, hhigh⟩
    exact ⟨by linarith, by linarith⟩
  · rintro ⟨hlow, hhigh⟩
    exact ⟨by linarith, by linarith⟩

/-- What passes the test lies within two deviations of its mean. -/
theorem inside_of_not_rejected {e : Nat} {result : T × T} (h : ¬ Rejected args e result) :
    Inside args e result.1 ∧ Inside args (e + middle args.zShapeBuffer.length) result.2 := by
  rw [Rejected, not_or] at h
  obtain ⟨hfirst, hsecond⟩ := h
  have hclose : ∀ {index : Nat} {value : T},
      ¬ |realMean args index| + |value| > |args.stddev| * 2 → Inside args index value := by
    intro index value hle
    rw [inside_iff]
    calc |value - realMean args index| ≤ |value| + |realMean args index| := abs_sub _ _
      _ ≤ 2 * |args.stddev| := by linarith [not_lt.mp hle]
  exact ⟨hclose hfirst, hclose hsecond⟩

/-- With means of zero only what lies outside is rejected. -/
theorem not_rejected_of_inside {e : Nat} {result : T × T} (hfirst : realMean args e = 0)
    (hsecond : realMean args (e + middle args.zShapeBuffer.length) = 0)
    (h : Inside args e result.1 ∧ Inside args (e + middle args.zShapeBuffer.length) result.2) :
    ¬ Rejected args e result := by
  rw [inside_iff, inside_iff, hfirst, hsecond, sub_zero, sub_zero] at h
  rw [Rejected, hfirst, hsecond, abs_zero, zero_add, zero_add, mul_comm]
  exact not_or.mpr ⟨not_lt.mpr h.1, not_lt.mpr h.2⟩

/-- Two deviations off, on the side of the mean, lies the candidate that is rejected although it
is not outside. -/
theorem exists_side (mean stddev : T) :
    ∃ a : T, (a = 2 ∨ a = -2) ∧ |a * stddev + mean| = 2 * |stddev| + |mean| := by
  have htwo : |(2 : T)| = 2 := abs_two
  rcases le_total 0 mean with hmean | hmean <;> rcases le_total 0 stddev with hstddev | hstddev
  · refine ⟨2, .inl rfl, ?_⟩
    rw [abs_of_nonneg (by positivity), abs_of_nonneg hmean, abs_of_nonneg hstddev]
  · refine ⟨-2, .inr rfl, ?_⟩
    rw [abs_of_nonneg (by linarith), abs_of_nonneg hmean, abs_of_nonpos hstddev]
    ring
  · refine ⟨-2, .inr rfl, ?_⟩
    rw [abs_of_nonpos (by linarith), abs_of_nonpos hmean, abs_of_nonneg hstddev]
    ring
  · refine ⟨2, .inl rfl, ?_⟩
    rw [abs_of_nonpos (by linarith), abs_of_nonpos hmean, abs_of_nonpos hstddev]
    ring

theorem inside_two {index : Nat} {a : T} (ha : a = 2 ∨ a = -2) :
    Inside args index (a * args.stddev + realMean args index) := by
  have habs : |a| = 2 := by
    rcases ha with rfl | rfl
    · exact abs_two
    · rw [abs_neg, abs_two]
  rw [inside_iff, add_sub_cancel_right, abs_mul, habs]

end Test

/-! ## Draws -/

section Draws

open Real

/-- The functions on the real numbers. -/
noncomputable def realFunctions : Elementary ℝ where
  sqrt := Real.sqrt
  log := Real.log
  cos := Real.cos
  sin := Real.sin

/-- A stream of draws between the bounds that the operation passes. -/
def InRange (draws : Nat → ℝ) : Prop :=
  ∀ index, 1e-6 ≤ draws index ∧ draws index ≤ 1

theorem cos_sin_corner {a b : ℝ} (ha : a = 2 ∨ a = -2) (hb : b = 2 ∨ b = -2) :
    ∃ θ, π / 4 ≤ θ ∧ θ ≤ 7 * π / 4 ∧ √8 * cos θ = a ∧ √8 * sin θ = b := by
  have hroot : √8 * (√2 / 2) = 2 := by
    rw [← mul_div_assoc, ← Real.sqrt_mul (by norm_num), show (8 : ℝ) * 2 = 4 ^ 2 by norm_num,
      Real.sqrt_sq (by norm_num)]
    norm_num
  have hpi := pi_pos
  rcases ha with rfl | rfl <;> rcases hb with rfl | rfl
  · refine ⟨π / 4, le_rfl, by linarith, ?_, ?_⟩
    · rw [cos_pi_div_four, hroot]
    · rw [sin_pi_div_four, hroot]
  · refine ⟨2 * π - π / 4, by linarith, by linarith, ?_, ?_⟩
    · rw [cos_two_pi_sub, cos_pi_div_four, hroot]
    · rw [sin_two_pi_sub, sin_pi_div_four, mul_neg, hroot]
  · refine ⟨π - π / 4, by linarith, by linarith, ?_, ?_⟩
    · rw [cos_pi_sub, cos_pi_div_four, mul_neg, hroot]
    · rw [sin_pi_sub, sin_pi_div_four, hroot]
  · refine ⟨π / 4 + π, by linarith, by linarith, ?_, ?_⟩
    · rw [cos_add_pi, cos_pi_div_four, mul_neg, hroot]
    · rw [sin_add_pi, sin_pi_div_four, mul_neg, hroot]

/-- Some draws have both candidates two deviations off, each on the side that is asked for. -/
theorem exists_boxMuller {a b : ℝ} (ha : a = 2 ∨ a = -2) (hb : b = 2 ∨ b = -2) :
    ∃ u0 u1 : ℝ, (1e-6 ≤ u0 ∧ u0 ≤ 1) ∧ (1e-6 ≤ u1 ∧ u1 ≤ 1) ∧
      boxMuller realFunctions u0 u1 = (a, b) := by
  obtain ⟨θ, hlow, hhigh, hcos, hsin⟩ := cos_sin_corner ha hb
  have hpi := pi_gt_d2
  have hpi' := pi_lt_d2
  have hlog : Real.sqrt (-2 * Real.log (exp (-4))) = √8 := by
    rw [log_exp]
    norm_num
  have hturn : (2 * 3.14159265358979323846 : ℝ) * (θ / (2 * 3.14159265358979323846)) = θ := by
    rw [mul_div_cancel₀]
    norm_num
  refine ⟨exp (-4), θ / (2 * 3.14159265358979323846), ⟨?_, ?_⟩, ⟨?_, ?_⟩, ?_⟩
  · have hexp : exp 4 ≤ 1000000 := by
      calc exp 4 = exp 1 ^ 4 := by rw [← exp_nat_mul]; norm_num
        _ ≤ 3 ^ 4 := pow_le_pow_left₀ (exp_pos 1).le exp_one_lt_three.le 4
        _ ≤ 1000000 := by norm_num
    rw [exp_neg, le_inv_comm₀ (by norm_num) (exp_pos 4)]
    exact hexp.trans (by norm_num)
  · exact exp_le_one_iff.mpr (by norm_num)
  · rw [le_div_iff₀ (by norm_num)]
    linarith
  · rw [div_le_one (by norm_num)]
    linarith
  · simp only [boxMuller, realFunctions, hlog, hturn, hcos, hsin]

end Draws

/-! ## Calls -/

section Calls

variable {settings : Settings} {args : Arguments ℝ}

/-- Both candidates of a pair lie within two deviations of their means. -/
def BothInside (args : Arguments ℝ) (e : Nat) (result : ℝ × ℝ) : Prop :=
  Inside args e result.1 ∧ Inside args (e + middle args.zShapeBuffer.length) result.2

/-- Stepping through the output by its element-wise stride meets the cell of every element
once. -/
def SteppedThrough (z : ShapeInfo) : Prop :=
  ∀ k < z.length, ∃! j, j < z.length ∧
    (j : Int) * z.elementWiseStride = elementOffset z.isFOrder z.axes k

/-- The calls do what they are for, on every stream of draws. -/
structure Truncates (settings : Settings) (args : Arguments ℝ) : Prop where
  /-- Every stored sample lies within two deviations of its mean. -/
  stores_inside : ∀ draws, InRange draws → ∀ fuel z outcome,
    run realFunctions draws settings args fuel z = some outcome →
      ∀ store ∈ outcome.stores, Inside args store.1 store.2
  /-- A pair is rejected only if one of its candidates lies outside. -/
  rejects_outside : ∀ draws, InRange draws → ∀ e < middle args.zShapeBuffer.length,
    ∀ generation0, Rejected args e (candidates realFunctions draws args e generation0) →
      ¬ BothInside args e (candidates realFunctions draws args e generation0)
  /-- The loops end on every stream that has a good pair for each of them. -/
  ends : ∀ draws, InRange draws → (∀ e < middle args.zShapeBuffer.length, ∃ k,
      BothInside args e
        (candidates realFunctions draws args e (k * args.zShapeBuffer.length))) →
    ∀ z, ∃ fuel outcome, run realFunctions draws settings args fuel z = some outcome
  /-- Every element of the output is stored once. -/
  stored_once : ∀ draws, InRange draws → ∀ fuel z outcome,
    run realFunctions draws settings args fuel z = some outcome →
      ∀ k < args.zShapeBuffer.length,
        (outcome.stores.map fun store =>
            (store.1 : Int) * args.zShapeBuffer.elementWiseStride).count
          (elementOffset args.zShapeBuffer.isFOrder args.zShapeBuffer.axes k) = 1
  /-- The means are read inside their array. -/
  reads_inside : ∀ index ∈ yReads settings args, index < args.zShapeBuffer.length

/-! ### What a call stores -/

variable {outcome : Outcome ℝ} {f : Elementary ℝ} {z : Int → ℝ} {fuel : Nat}

theorem run_eq_some {draws : Nat → ℝ} (h : run f draws settings args fuel z = some outcome) :
    ∃ results, List.Forall₂
        (fun e result => retry (candidates f draws args e) (Rejected args e)
          (· + args.zShapeBuffer.length) fuel 0 = some result)
        (List.range (middle args.zShapeBuffer.length)) results ∧
      outcome.stores = ((List.range (middle args.zShapeBuffer.length)).zip results).flatMap
        fun pair => storesOf args.zShapeBuffer.length pair.1 pair.2 := by
  rw [run, Option.map_eq_some_iff] at h
  obtain ⟨results, hresults, rfl⟩ := h
  rw [pairsOf_eq] at hresults
  exact ⟨results, mapM_eq_some_iff.mp hresults, by rw [pairsOf_eq]⟩

/-- The indices that a call stores. -/
theorem stores_perm {draws : Nat → ℝ} (h : run f draws settings args fuel z = some outcome) :
    (outcome.stores.map Prod.fst).Perm (List.range args.zShapeBuffer.length) := by
  obtain ⟨results, hresults, hstores⟩ := run_eq_some h
  have hfirst : ((List.range (middle args.zShapeBuffer.length)).zip results).map Prod.fst =
      List.range (middle args.zShapeBuffer.length) :=
    List.map_fst_zip hresults.length_eq.le
  have hindexes : outcome.stores.map Prod.fst =
      (((List.range (middle args.zShapeBuffer.length)).zip results).map Prod.fst).flatMap
        (indexesOf args.zShapeBuffer.length) := by
    rw [hstores, List.map_flatMap, List.flatMap_map]
    exact List.flatMap_congr fun pair _ => map_fst_storesOf _ _ _
  rw [hindexes, hfirst]
  exact indexes_perm _

theorem run_stores_inside {draws : Nat → ℝ} (h : run f draws settings args fuel z = some outcome) :
    ∀ store ∈ outcome.stores, Inside args store.1 store.2 := by
  obtain ⟨results, hresults, hstores⟩ := run_eq_some h
  intro store hstore
  rw [hstores, List.mem_flatMap] at hstore
  obtain ⟨⟨e, result⟩, hpair, hstore⟩ := hstore
  have hretry := (List.forall₂_iff_zip.mp hresults).2 hpair
  obtain ⟨k, -, -, haccepted, hresult⟩ := retry_eq_some_iff.mp hretry
  obtain ⟨hfirst, hsecond⟩ := inside_of_not_rejected (hresult ▸ haccepted)
  rw [storesOf] at hstore
  split at hstore
  · simp only [List.mem_cons, List.not_mem_nil, or_false] at hstore
    rcases hstore with rfl | rfl
    · exact hfirst
    · exact hsecond
  · rw [List.mem_singleton] at hstore
    exact hstore ▸ hfirst

/-- A value is taken once on a range exactly if it is taken at one place. -/
theorem count_map_range_eq_one_iff {α : Type*} [DecidableEq α] (f : Nat → α) (n : Nat) (a : α) :
    ((List.range n).map f).count a = 1 ↔ ∃! j, j < n ∧ f j = a := by
  have hcount : ((List.range n).map f).count a = ((List.range n).filter (f · = a)).length := by
    rw [List.count, List.countP_map, List.countP_eq_length_filter]
    rfl
  have hmem : ∀ j, j ∈ (List.range n).filter (f · = a) ↔ j < n ∧ f j = a := by
    intro j
    rw [List.mem_filter, List.mem_range, decide_eq_true_iff]
  rw [hcount]
  constructor
  · intro hone
    obtain ⟨j, hj⟩ := List.length_eq_one_iff.mp hone
    refine ⟨j, (hmem j).mp (hj ▸ List.mem_singleton_self j), fun i hi => ?_⟩
    exact List.mem_singleton.mp (hj ▸ (hmem i).mpr hi)
  · rintro ⟨j, hj, hunique⟩
    have hperm : ((List.range n).filter (f · = a)).Perm [j] := by
      refine (List.perm_ext_iff_of_nodup (List.nodup_range.filter _)
        (List.nodup_singleton j)).mpr fun i => ?_
      rw [hmem, List.mem_singleton]
      exact ⟨hunique i, fun heq => heq ▸ hj⟩
    exact hperm.length_eq

/-- Every element is stored once exactly if the steps meet its cell once. -/
theorem stored_once_iff {draws : Nat → ℝ} (h : run f draws settings args fuel z = some outcome) :
    (∀ k < args.zShapeBuffer.length,
      (outcome.stores.map fun store =>
          (store.1 : Int) * args.zShapeBuffer.elementWiseStride).count
        (elementOffset args.zShapeBuffer.isFOrder args.zShapeBuffer.axes k) = 1) ↔
      SteppedThrough args.zShapeBuffer := by
  refine forall₂_congr fun k hk => ?_
  have hcells : (outcome.stores.map fun store =>
        (store.1 : Int) * args.zShapeBuffer.elementWiseStride).Perm
      ((List.range args.zShapeBuffer.length).map fun (j : Nat) =>
        (j : Int) * args.zShapeBuffer.elementWiseStride) := by
    have hmap := (stores_perm h).map fun (j : Nat) =>
      (j : Int) * args.zShapeBuffer.elementWiseStride
    rwa [List.map_map] at hmap
  rw [hcells.count_eq]
  exact count_map_range_eq_one_iff _ _ _

/-! ### Means of zero -/

/-- If only what lies outside is rejected, the means are zero. -/
theorem realMean_eq_zero (h : Truncates settings args) :
    ∀ k < args.zShapeBuffer.length, realMean args k = 0 := by
  intro k hk
  set m := middle args.zShapeBuffer.length with hm
  have hmiddle := middle_le args.zShapeBuffer.length
  rw [← hm] at hmiddle
  -- the pair that the output belongs to
  obtain ⟨e, he, hpair⟩ : ∃ e < m, k = e ∨ k = e + m := by
    rcases Nat.lt_or_ge k m with hlt | hge
    · exact ⟨k, hlt, .inl rfl⟩
    · exact ⟨k - m, by omega, .inr (by omega)⟩
  obtain ⟨a, ha, habs⟩ := exists_side (realMean args e) args.stddev
  obtain ⟨b, hb, hbbs⟩ := exists_side (realMean args (e + m)) args.stddev
  obtain ⟨u0, u1, hu0, hu1, hnormals⟩ := exists_boxMuller ha hb
  set draws : Nat → ℝ := fun index => if index = e then u0 else u1 with hdraws
  have hrange : InRange draws := by
    intro index
    rw [hdraws]
    dsimp only
    split
    · exact hu0
    · exact hu1
  have hfirst : draws (e + 0) = u0 := if_pos rfl
  have hsecond : draws (e + m + 0) = u1 := if_neg (by omega)
  have hcandidates : candidates realFunctions draws args e 0 =
      (a * args.stddev + realMean args e, b * args.stddev + realMean args (e + m)) := by
    rw [candidates, ← hm, hfirst, hsecond, hnormals]
  have hinside : BothInside args e (candidates realFunctions draws args e 0) := by
    rw [hcandidates]
    exact ⟨inside_two ha, inside_two hb⟩
  have haccepted : ¬ Rejected args e (candidates realFunctions draws args e 0) :=
    fun hrejected => h.rejects_outside draws hrange e he 0 hrejected hinside
  rw [hcandidates, Rejected, not_or, ← hm, habs, hbbs] at haccepted
  have hzero : ∀ {mean : ℝ}, ¬ |mean| + (2 * |args.stddev| + |mean|) > |args.stddev| * 2 →
      mean = 0 := by
    intro mean hle
    have hnonneg := abs_nonneg mean
    exact abs_eq_zero.mp (by linarith [not_lt.mp hle])
  rcases hpair with rfl | rfl
  · exact hzero haccepted.1
  · exact hzero haccepted.2

/-- With means of zero the pairs of an even length, or of one mean for all outputs, have zero
means. -/
theorem realMean_of_pair (hzero : ∀ k < args.zShapeBuffer.length, realMean args k = 0)
    (heven : args.y.isSome → args.zShapeBuffer.length % 2 = 0) {e : Nat}
    (he : e < middle args.zShapeBuffer.length) :
    realMean args e = 0 ∧ realMean args (e + middle args.zShapeBuffer.length) = 0 := by
  have hmiddle := middle_le args.zShapeBuffer.length
  have hlt : e < args.zShapeBuffer.length := by
    rcases Nat.eq_zero_or_pos e with rfl | hpos
    · omega
    · omega
  refine ⟨hzero e hlt, ?_⟩
  cases hy : args.y with
  | none =>
      have hmean := hzero e hlt
      rw [realMean, hy] at hmean ⊢
      exact hmean
  | some y =>
      have hlength := heven (by rw [hy]; rfl)
      apply hzero
      rw [middle, if_pos hlength] at he ⊢
      omega

/-- The means are read inside their array exactly for an even length. -/
theorem reads_inside_iff :
    (∀ index ∈ yReads settings args, index < args.zShapeBuffer.length) ↔
      (args.y.isSome → args.zShapeBuffer.length % 2 = 0) := by
  have hmiddle := middle_le args.zShapeBuffer.length
  rw [yReads, pairsOf_eq]
  cases hy : args.y with
  | none => simp
  | some y =>
      simp only [Option.isSome_some, true_implies]
      constructor
      · intro h
        by_contra hodd
        -- the last pair has no second output
        have hlength : middle args.zShapeBuffer.length = args.zShapeBuffer.length / 2 + 1 :=
          if_neg hodd
        have hlast := h (args.zShapeBuffer.length) (by
          rw [List.mem_flatMap]
          refine ⟨args.zShapeBuffer.length / 2, List.mem_range.mpr (by omega), ?_⟩
          rw [hlength]
          simp
          omega)
        exact Nat.lt_irrefl _ hlast
      · intro heven index hindex
        rw [List.mem_flatMap] at hindex
        obtain ⟨e, he, hmem⟩ := hindex
        rw [List.mem_range, middle, if_pos heven] at he
        rw [middle, if_pos heven] at hmem
        simp only [List.mem_cons, List.not_mem_nil, or_false] at hmem
        omega

/-- With means of zero every call on the draws of one returns. -/
theorem exists_run (hzero : ∀ k < args.zShapeBuffer.length, realMean args k = 0)
    (heven : args.y.isSome → args.zShapeBuffer.length % 2 = 0) {draws : Nat → ℝ}
    (h : ∀ e < middle args.zShapeBuffer.length, ∃ k,
      BothInside args e (candidates realFunctions draws args e (k * args.zShapeBuffer.length)))
    (z : Int → ℝ) :
    ∃ fuel outcome, run realFunctions draws settings args fuel z = some outcome := by
  have hloops := @exists_mapM_retry Nat (ℝ × ℝ) Nat (· + args.zShapeBuffer.length)
    (candidates realFunctions draws args) (Rejected args) _
    (List.range (middle args.zShapeBuffer.length)) (fun _ => 0) (fun e he => by
      rw [List.mem_range] at he
      obtain ⟨k, hk⟩ := h e he
      obtain ⟨hfirst, hsecond⟩ := realMean_of_pair hzero heven he
      refine ⟨k, ?_⟩
      rw [add_right_iterate_apply, Nat.zero_add, smul_eq_mul]
      exact not_rejected_of_inside hfirst hsecond hk)
  obtain ⟨fuel, results, hresults⟩ := hloops
  rw [← pairsOf_eq settings] at hresults
  exact ⟨fuel, _, by rw [run, hresults]; rfl⟩

/-- Draws of one give candidates at the means. -/
theorem bothInside_ones (args : Arguments ℝ) (e generation0 : Nat) :
    BothInside args e (candidates realFunctions (fun _ => 1) args e generation0) := by
  have hzero : boxMuller realFunctions 1 1 = (0, 0) := by
    simp [boxMuller, realFunctions]
  rw [candidates, hzero, BothInside, inside_iff, inside_iff]
  simp only [zero_mul, zero_add, sub_self, abs_zero]
  constructor <;> positivity

theorem truncates_of_zero (hzero : ∀ k < args.zShapeBuffer.length, realMean args k = 0)
    (heven : args.y.isSome → args.zShapeBuffer.length % 2 = 0)
    (hstepped : SteppedThrough args.zShapeBuffer) : Truncates settings args where
  stores_inside _ _ _ _ _ h := run_stores_inside h
  rejects_outside _ _ e he _ hrejected hinside := by
    obtain ⟨hfirst, hsecond⟩ := realMean_of_pair hzero heven he
    exact not_rejected_of_inside hfirst hsecond hinside hrejected
  ends _ _ h z := exists_run hzero heven h z
  stored_once _ _ _ _ _ h := (stored_once_iff h).mpr hstepped
  reads_inside := reads_inside_iff.mpr heven

/-- The operation does what it is for exactly if all means are zero, an array of means has an even
length, and the output is stepped through by its element-wise stride. -/
theorem truncates_iff (settings : Settings) (args : Arguments ℝ) :
    Truncates settings args ↔
      (∀ k < args.zShapeBuffer.length, realMean args k = 0) ∧
      (args.y.isSome → args.zShapeBuffer.length % 2 = 0) ∧
      SteppedThrough args.zShapeBuffer := by
  constructor
  · intro h
    have hzero := realMean_eq_zero h
    have heven := reads_inside_iff.mp h.reads_inside
    refine ⟨hzero, heven, ?_⟩
    obtain ⟨fuel, outcome, hrun⟩ := @exists_run settings args hzero heven (fun _ => 1)
      (fun e _ => ⟨0, bothInside_ones args e _⟩) (fun _ => 0)
    exact (stored_once_iff hrun).mp
      (h.stored_once _ (fun _ => ⟨by norm_num, le_rfl⟩) fuel _ outcome hrun)
  · rintro ⟨hzero, heven, hstepped⟩
    exact truncates_of_zero hzero heven hstepped

end Calls

/-- One output with the mean one and no deviation: every candidate is the mean, and every one is
rejected. -/
theorem not_truncates_always :
    ¬ ∀ (settings : Settings) (args : Arguments ℝ), Truncates settings args := by
  intro h
  have hzero := realMean_eq_zero (h (Settings.initial 1 (by decide))
    { zShapeBuffer := ShapeInfo.ofAxes [(1, 1)] 0 1 'c', y := none, yEWS := 1, mean := 1
      stddev := 0 }) 0 (by decide)
  exact one_ne_zero hzero

end TruncatedNormal

end Random
end LibND4J
