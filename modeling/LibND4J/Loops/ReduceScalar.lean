import Mathlib.Tactic.Ring
import LibND4J.Loops.BlockInformation

/-!
# Reducing a strided buffer to one number

This module models the strided overload of `ReduceFunction::execScalar`: a plain
loop below the element threshold, and above it a chunked loop whose threads leave
their partial results in `blocks`, which the master folds in turn.

Main results:

- Theorem `execScalar_regular`: under the regularity of the update both paths
  are the sequential fold.
- Theorem `execScalar_sequential_fold`: the result, together with the exact
  coverage of the range by the chunks of the threads.
-/

namespace LibND4J
namespace Loops

variable {T E : Type*}

/-- A reduce operation without special accumulation.  The starting value may look at
the memory seen from the input pointer. -/
structure ReduceOp (T E : Type*) where
  startingValue : (Int → T) → T
  update : T → T → E → T
  op : T → E → T
  postProcess : T → Nat → E → T

/-- The laws asked of an operation on a set of values that contains all values met. -/
structure ReduceOp.Unital (opType : ReduceOp T E) (extraParams : E) (start : T) (met : Set T) :
    Prop where
  start_mem : start ∈ met
  closed : ∀ a ∈ met, ∀ b ∈ met, opType.update a b extraParams ∈ met
  comm : ∀ a ∈ met, ∀ b ∈ met, opType.update a b extraParams = opType.update b a extraParams
  assoc : ∀ a ∈ met, ∀ b ∈ met, ∀ c ∈ met,
    opType.update (opType.update a b extraParams) c extraParams =
      opType.update a (opType.update b c extraParams) extraParams
  identity : ∀ a ∈ met, opType.update start a extraParams = a

/-- Fold one more element of the input into an accumulator. -/
def ReduceOp.accumulate (opType : ReduceOp T E) (extraParams : E) (acc value : T) : T :=
  opType.update acc (opType.op value extraParams) extraParams

/-! ## The loops -/

/-- The two loops of `execScalar`, reading the element `j` places after the start of a
chunk through `elem`. -/
def ReduceOp.scalarLoops (opType : ReduceOp T E) (settings : Settings) (x : Int → T)
    (elem : Nat → Nat → T) (clip : Bool) (length : Nat) (extraParams : E) : T :=
  let startingVal := opType.startingValue x
  if length < settings.elementThreshold then
    let acc := (List.range length).foldl
      (fun acc i => opType.accumulate extraParams acc (elem 0 i)) startingVal
    opType.postProcess acc length extraParams
  else
    let info := blockInformation length settings.elementThreshold settings.maxThreads
      settings.maxThreads_pos
    let blocks := (List.range info.threads).map fun thread =>
      threadLoop info length clip
        (fun acc base j => opType.accumulate extraParams acc (elem base j)) thread startingVal
    let finalVal := blocks.foldl (fun acc block => opType.update acc block extraParams) startingVal
    opType.postProcess finalVal length extraParams

/-- Reduce `length` elements that lie `xElementWiseStride` apart. -/
def ReduceOp.execScalar (opType : ReduceOp T E) (settings : Settings) (x : Int → T)
    (xElementWiseStride : Int) (length : Nat) (extraParams : E) : T :=
  if xElementWiseStride = 1 then
    opType.scalarLoops settings x (fun base j => x (base + j)) true length extraParams
  else
    opType.scalarLoops settings x
      (fun base j => x (base * xElementWiseStride + j * xElementWiseStride)) false length
      extraParams

/-- The sequential fold of the first `length` elements at a stride. -/
def ReduceOp.sequentialFold (opType : ReduceOp T E) (x : Int → T) (stride : Int) (length : Nat)
    (extraParams : E) : T :=
  (List.range length).foldl
    (fun acc (k : Nat) => opType.accumulate extraParams acc (x (k * stride)))
    (opType.startingValue x)

/-! ## Correctness -/

variable {met : Set T}

/-- Operations with a unit are regular in the sense of the folding library. -/
theorem ReduceOp.Unital.regular {opType : ReduceOp T E} {extraParams : E} {start : T}
    (h : opType.Unital extraParams start met) :
    Folds.Regular (fun a b => opType.update a b extraParams) start met :=
  Folds.Regular.of_identity h.start_mem h.closed h.comm h.assoc h.identity

/-- Both loops are the sequential fold, whatever the chunking. -/
theorem scalarLoops_regular (opType : ReduceOp T E) (settings : Settings) (x : Int → T)
    {elem : Nat → Nat → T} {v : Nat → T} (helem : ∀ base j, elem base j = v (base + j))
    (clip : Bool) {length : Nat} (hlength : 1 ≤ length) (extraParams : E)
    (hreg : Folds.Regular (fun a b => opType.update a b extraParams) (opType.startingValue x) met)
    (hmet : ∀ k < length, opType.op (v k) extraParams ∈ met) :
    opType.scalarLoops settings x elem clip length extraParams =
      opType.postProcess
        ((List.range length).foldl
          (fun acc k => opType.accumulate extraParams acc (v k)) (opType.startingValue x))
        length extraParams := by
  unfold ReduceOp.scalarLoops
  split
  · simp [helem]
  · have hcov := covers_blockInformation length settings.elementThreshold settings.maxThreads
      settings.maxThreads_pos
    generalize blockInformation length settings.elementThreshold settings.maxThreads
      settings.maxThreads_pos = info at hcov ⊢
    -- what a thread folds, as values rather than indices
    set share : Nat → List T := fun thread =>
      (indicesFrom info length thread).map fun k => opType.op (v k) extraParams with hshare
    have hthread : ∀ thread, threadLoop info length clip
        (fun acc base j => opType.accumulate extraParams acc (elem base j)) thread
          (opType.startingValue x) =
        (share thread).foldl (fun a b => opType.update a b extraParams)
          (opType.startingValue x) := by
      intro thread
      rw [threadLoop_eq_foldl (g := fun acc k => opType.accumulate extraParams acc (v k))
        hcov clip (fun acc base j => by rw [helem]), hshare, List.foldl_map]
      rfl
    have hperm : (((List.range info.threads).map share).flatten).Perm
        ((List.range length).map fun k => opType.op (v k) extraParams) := by
      have hall := (indicesFrom_perm info length).map fun k => opType.op (v k) extraParams
      rwa [List.map_flatMap, List.flatMap_def] at hall
    have hne : ((List.range length).map fun k => opType.op (v k) extraParams) ≠ [] := by
      simp only [ne_eq, List.map_eq_nil_iff, List.range_eq_nil]
      omega
    have hmem : ∀ r ∈ (List.range length).map (fun k => opType.op (v k) extraParams),
        r ∈ met := by
      intro r hr
      obtain ⟨k, hk, rfl⟩ := List.mem_map.mp hr
      exact hmet k (List.mem_range.mp hk)
    have hfold := hreg.foldl_blocks_perm hperm hne hmem
    rw [List.map_map, List.foldl_map (l := List.range length)] at hfold
    simp only [hthread]
    exact congrArg (fun r => opType.postProcess r length extraParams) hfold

/-- The strided reduction is the sequential fold when the update is regular. -/
theorem execScalar_regular (opType : ReduceOp T E) (settings : Settings) (x : Int → T)
    (xElementWiseStride : Int) {length : Nat} (hlength : 1 ≤ length) (extraParams : E)
    (hreg : Folds.Regular (fun a b => opType.update a b extraParams) (opType.startingValue x) met)
    (hmet : ∀ k < length, opType.op (x (k * xElementWiseStride)) extraParams ∈ met) :
    opType.execScalar settings x xElementWiseStride length extraParams =
      opType.postProcess (opType.sequentialFold x xElementWiseStride length extraParams) length
        extraParams := by
  unfold ReduceOp.execScalar ReduceOp.sequentialFold
  split
  · rename_i hone
    subst hone
    exact scalarLoops_regular opType settings x (v := fun k => x (k * 1))
      (fun base j => by simp) true hlength extraParams hreg hmet
  · exact scalarLoops_regular opType settings x (v := fun k => x (k * xElementWiseStride))
      (fun base j => by rw [← add_mul, Nat.cast_add]) false hlength extraParams hreg hmet

/-- The strided reduction returns the post-processed sequential fold.  On the way the
threads visit every index exactly once and none beyond the range, and no chunk starts
past the end, so the early break of the thread loop is never taken. -/
theorem execScalar_sequential_fold (opType : ReduceOp T E) (settings : Settings) (x : Int → T)
    (xElementWiseStride : Int) {length : Nat} (hlength : 1 ≤ length) (extraParams : E)
    {met : Set T} (hop : opType.Unital extraParams (opType.startingValue x) met)
    (hmet : ∀ k < length, opType.op (x (k * xElementWiseStride)) extraParams ∈ met) :
    let info := blockInformation length settings.elementThreshold settings.maxThreads
      settings.maxThreads_pos
    opType.execScalar settings x xElementWiseStride length extraParams =
        opType.postProcess (opType.sequentialFold x xElementWiseStride length extraParams) length
          extraParams ∧
      (∀ clip, ((List.range info.threads).flatMap (threadVisits info length clip)).Perm
        (List.range length)) ∧
      ∀ i < info.chunks, i * info.items < length := by
  intro info
  have hcov : info.Covers length :=
    covers_blockInformation length settings.elementThreshold settings.maxThreads
      settings.maxThreads_pos
  refine ⟨execScalar_regular opType settings x xElementWiseStride hlength extraParams hop.regular
    hmet, fun clip => ?_, hcov.start_lt⟩
  rw [List.flatMap_congr fun thread _ => threadVisits_eq hcov clip thread]
  exact indicesFrom_perm info length

/-- The operation `Sum`. -/
def sumOp : ReduceOp Int Unit where
  startingValue := fun _ => 0
  update := fun old opOutput _ => opOutput + old
  op := fun d1 _ => d1
  postProcess := fun reduction _ _ => reduction

theorem sumOp_unital : sumOp.Unital () 0 Set.univ where
  start_mem := Set.mem_univ _
  closed := fun _ _ _ _ => Set.mem_univ _
  comm := fun a _ b _ => Int.add_comm b a
  assoc := fun a _ b _ c _ => by simp only [sumOp]; omega
  identity := fun a _ => Int.add_zero a

/-- A hundred elements two apart, reduced by three threads. -/
theorem execScalar_sum_hundred :
    sumOp.execScalar (Settings.initial 4 (by decide)) (fun i => i) 2 100 () = 9900 := by
  have h := execScalar_sequential_fold sumOp (Settings.initial 4 (by decide)) (fun i => i) 2
    (by decide : 1 ≤ 100) () sumOp_unital fun _ _ => Set.mem_univ _
  exact h.1.trans (by decide +kernel)

end Loops
end LibND4J
