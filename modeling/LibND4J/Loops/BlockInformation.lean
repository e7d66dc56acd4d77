import Mathlib.Algebra.Group.Int.Defs
import Mathlib.Algebra.Group.Nat.Defs
import Mathlib.Data.Int.DivMod
import LibND4J.Library.Folds

/-!
# Splitting a loop over threads

The loops of the library divide a linear range between OpenMP threads.  The thread
count is clamped between one and the number of available threads, and a reduction
further cuts its range into chunks that the threads stride over.

Main results:

- Theorem `threadLoop_eq_foldl`: a thread runs its body on the indices of the
  chunks that are congruent to its own number, in increasing order.
- Theorem `threadVisits_perm`: the threads together visit every index of the
  range exactly once.
- Theorem `chunk_start_lt`: every chunk starts inside the range.
- Theorem `spanOf_flatMap`: consecutive spans walk a range that they cover once, in order.
-/

namespace LibND4J
namespace Loops

/-! ## Settings -/

/-- The tunable thresholds and the number of threads OpenMP may use. -/
structure Settings where
  elementThreshold : Nat
  tadThreshold : Nat
  maxThreads : Nat
  elementThreshold_pos : 0 < elementThreshold
  tadThreshold_pos : 0 < tadThreshold
  maxThreads_pos : 0 < maxThreads

/-- The thresholds as the library is loaded. -/
def Settings.initial (maxThreads : Nat) (h : 0 < maxThreads) : Settings where
  elementThreshold := 32
  tadThreshold := 1
  maxThreads := maxThreads
  elementThreshold_pos := by decide
  tadThreshold_pos := Nat.one_pos
  maxThreads_pos := h

/-- The threshold is only ever replaced by a positive one. -/
def setElementThreshold (settings : Settings) (num : Int) : Settings :=
  if h : num > 0 then
    { settings with elementThreshold := num.toNat, elementThreshold_pos := by omega }
  else
    settings

/-- The threshold is only ever replaced by a positive one. -/
def setTADThreshold (settings : Settings) (num : Int) : Settings :=
  if h : num > 0 then
    { settings with tadThreshold := num.toNat, tadThreshold_pos := by omega }
  else
    settings

/-- A 64-bit count stored in a 32-bit signed integer. -/
def toInt32 (n : Int) : Int :=
  n.bmod (2 ^ 32)

/-- Counts that fit are stored unchanged. -/
theorem toInt32_of_lt {n : Int} (hnonneg : 0 ≤ n) (hlt : n < 2 ^ 31) : toInt32 n = n := by
  simp only [toInt32, Int.bmod]
  omega

/-- Threads asked for: one per `threshold` elements, between one and the maximum. -/
def numThreads (length threshold maxThreads : Nat) : Nat :=
  (min (max 1 (toInt32 (length / threshold : Nat))) maxThreads).toNat

theorem numThreads_pos (length threshold : Nat) {maxThreads : Nat} (h : 0 < maxThreads) :
    0 < numThreads length threshold maxThreads := by
  unfold numThreads
  omega

/-! ## Chunks -/

/-- The chunks a reduction of a given length is cut into. -/
structure BlockInformation where
  items : Nat
  threads : Nat
  chunks : Nat
  modulo : Nat
  items_pos : 0 < items
  threads_pos : 0 < threads

/-- Chunk layout of a range of `length` elements. -/
def blockInformation (length threshold maxThreads : Nat) (hmax : 0 < maxThreads) :
    BlockInformation :=
  let threads := numThreads length threshold maxThreads
  let items := if length / threads < 1 then 1 else length / threads
  let modulo := length % items
  { items := items
    threads := threads
    chunks := if modulo > 0 then length / items + 1 else length / items
    modulo := modulo
    items_pos := by
      show 0 < if length / threads < 1 then 1 else length / threads
      split <;> omega
    threads_pos := numThreads_pos length threshold hmax }

/-- The chunks of a layout cover a range of the given length and none is empty. -/
structure BlockInformation.Covers (info : BlockInformation) (length : Nat) : Prop where
  start_lt : ∀ i < info.chunks, i * info.items < length
  length_le : length ≤ info.chunks * info.items

/-- The computed layout covers its range, each chunk starting inside it. -/
theorem covers_blockInformation (length threshold maxThreads : Nat) (hmax : 0 < maxThreads) :
    (blockInformation length threshold maxThreads hmax).Covers length := by
  set info := blockInformation length threshold maxThreads hmax with hinfo
  have hchunks : info.chunks =
      if length % info.items > 0 then length / info.items + 1 else length / info.items := rfl
  have hdm := Nat.div_add_mod length info.items
  have hmod := Nat.mod_lt length info.items_pos
  refine ⟨fun i hi => ?_, ?_⟩
  · rw [hchunks] at hi
    have hle : i ≤ length / info.items := by split at hi <;> omega
    have hmul : i * info.items ≤ info.items * (length / info.items) := by
      rw [Nat.mul_comm]
      exact Nat.mul_le_mul_left _ hle
    rcases Nat.eq_or_lt_of_le hle with heq | hlt
    · have hpos : length % info.items > 0 := by
        by_contra hzero
        rw [if_neg hzero] at hi
        omega
      omega
    · have hstep : (i + 1) * info.items ≤ info.items * (length / info.items) := by
        rw [Nat.mul_comm]
        exact Nat.mul_le_mul_left _ hlt
      rw [Nat.add_mul, Nat.one_mul] at hstep
      have := info.items_pos
      omega
  · rw [hchunks]
    split
    · rw [Nat.add_mul, Nat.one_mul, Nat.mul_comm]
      omega
    · rw [Nat.mul_comm]
      omega

/-! ## The loops -/

section LoopBodies

variable {σ : Type*}

/-- Inner loop over the elements of one chunk, under its two guards. -/
def chunkLoop (length base itemsToLoop : Nat) (body : σ → Nat → σ) (j : Nat) (acc : σ) : σ :=
  if j < itemsToLoop ∧ base + j < length then
    chunkLoop length base itemsToLoop body (j + 1) (body acc j)
  else
    acc
termination_by itemsToLoop - j

/-- Loop of one thread over its chunks; `clip` shortens the chunk that reaches the end. -/
def threadLoop (info : BlockInformation) (length : Nat) (clip : Bool)
    (body : σ → Nat → Nat → σ) (i : Nat) (acc : σ) : σ :=
  if i < info.chunks then
    let base := i * info.items
    if base ≥ length then
      acc  -- the early break
    else
      let itemsToLoop := if clip ∧ base + info.items ≥ length then length - base else info.items
      let acc' := chunkLoop length base itemsToLoop (fun a j => body a base j) 0 acc
      threadLoop info length clip body (i + info.threads) acc'
  else
    acc
termination_by info.chunks - i
decreasing_by
  have := info.threads_pos
  omega

/-- The inner loop runs over the part of the chunk that lies in the range. -/
theorem chunkLoop_eq_foldl (length base itemsToLoop : Nat) (body : σ → Nat → σ) (j : Nat)
    (acc : σ) :
    chunkLoop length base itemsToLoop body j acc =
      (List.range' j (min itemsToLoop (length - base) - j)).foldl body acc := by
  fun_induction chunkLoop length base itemsToLoop body j acc with
  | case1 j acc hguard ih =>
      obtain ⟨m, hm⟩ : ∃ m, min itemsToLoop (length - base) - j = m + 1 :=
        ⟨min itemsToLoop (length - base) - j - 1, by omega⟩
      have hrest : min itemsToLoop (length - base) - (j + 1) = m := by omega
      rw [ih, hrest, hm, List.range'_succ, List.foldl_cons]
  | case2 j acc hguard =>
      have hempty : min itemsToLoop (length - base) - j = 0 := by omega
      simp [hempty]

end LoopBodies

/-! ## Which indices a thread visits -/

/-- Among the indices from the start of chunk `i` on, those of chunks congruent to `i`. -/
def indicesFrom (info : BlockInformation) (length i : Nat) : List Nat :=
  (List.range' (i * info.items) (length - i * info.items)).filter fun k =>
    k / info.items % info.threads = i % info.threads

variable {length : Nat} {info : BlockInformation}

/-- The next chunk of a thread is the head of its remaining indices. -/
theorem indicesFrom_eq (info : BlockInformation) {i : Nat} (hi : i * info.items < length) :
    indicesFrom info length i =
      List.range' (i * info.items) (min info.items (length - i * info.items)) ++
        indicesFrom info length (i + info.threads) := by
  set base := i * info.items with hbase
  set here := min info.items (length - base) with hhere
  set next := (i + info.threads) * info.items with hnext
  have hitems := info.items_pos
  have hstep : next = base + info.threads * info.items := by rw [hnext, hbase, Nat.add_mul]
  have hone : info.items ≤ info.threads * info.items :=
    Nat.le_mul_of_pos_left _ info.threads_pos
  set gap := min (info.threads * info.items) (length - base) - here with hgap
  have hsplit : List.range' base (length - base) =
      List.range' base here ++ (List.range' (base + here) gap ++
        List.range' (base + here + gap) (length - base - here - gap)) := by
    rw [List.range'_append_1, List.range'_append_1]
    congr 1
    omega
  have hmine : (List.range' base here).filter
      (fun k => k / info.items % info.threads = i % info.threads) = List.range' base here := by
    refine List.filter_eq_self.mpr fun k hk => ?_
    rw [List.mem_range'_1] at hk
    have hdiv : k / info.items = i :=
      Nat.div_eq_of_lt_le (by omega) (by rw [Nat.add_mul, Nat.one_mul]; omega)
    simp [hdiv]
  -- between two chunks of a thread lie only chunks of the other threads
  have hother : (List.range' (base + here) gap).filter
      (fun k => k / info.items % info.threads = i % info.threads) = [] := by
    refine List.filter_eq_nil_iff.mpr fun k hk => ?_
    rw [List.mem_range'_1] at hk
    have hlow : i + 1 ≤ k / info.items := by
      rw [Nat.le_div_iff_mul_le hitems, Nat.add_mul, Nat.one_mul]
      omega
    have hhigh : k / info.items < i + info.threads := by
      rw [Nat.div_lt_iff_lt_mul hitems]
      omega
    have hne : (k / info.items) % info.threads ≠ i % info.threads := by
      intro heq
      have hdvd : info.threads ∣ k / info.items - i :=
        Nat.dvd_of_mod_eq_zero (Nat.sub_mod_eq_zero_of_mod_eq heq)
      have := Nat.le_of_dvd (by omega) hdvd
      omega
    simpa using hne
  have hrest : List.range' (base + here + gap) (length - base - here - gap) =
      List.range' next (length - next) := by
    rcases Nat.le_total (info.threads * info.items) (length - base) with hle | hle
    · congr 1 <;> omega
    · rw [show length - base - here - gap = 0 by omega, show length - next = 0 by omega]
      simp
  rw [indicesFrom, hsplit, List.filter_append, List.filter_append, hmine, hother, hrest,
    List.nil_append, indicesFrom, Nat.add_mod_right]

/-- A thread runs its body on its indices, in increasing order. -/
theorem threadLoop_eq_foldl {σ : Type*} (hcov : info.Covers length) (clip : Bool)
    {body : σ → Nat → Nat → σ} {g : σ → Nat → σ}
    (hbody : ∀ acc base j, body acc base j = g acc (base + j)) (i : Nat) (acc : σ) :
    threadLoop info length clip body i acc = (indicesFrom info length i).foldl g acc := by
  fun_induction threadLoop info length clip body i acc with
  | case1 i acc hi base hbreak =>
      have := hcov.start_lt i hi
      omega
  | case2 i acc hi base hbreak itemsToLoop acc' ih =>
      have hbound : min itemsToLoop (length - base) = min info.items (length - base) := by
        simp only [itemsToLoop]
        split <;> omega
      have hacc : acc' =
          (List.range' base (min info.items (length - base))).foldl g acc := by
        simp only [acc', chunkLoop_eq_foldl, hbound, hbody, Nat.sub_zero]
        rw [← List.range_eq_range', List.range'_eq_map_range, List.foldl_map]
      rw [ih, indicesFrom_eq info (Nat.lt_of_not_le hbreak), List.foldl_append, hacc]
  | case3 i acc hi =>
      have hle : length ≤ i * info.items :=
        hcov.length_le.trans (Nat.mul_le_mul_right _ (Nat.le_of_not_lt hi))
      simp [indicesFrom, Nat.sub_eq_zero_of_le hle]

/-- The indices a thread visits, in order. -/
def threadVisits (info : BlockInformation) (length : Nat) (clip : Bool) (thread : Nat) :
    List Nat :=
  threadLoop info length clip (fun acc base j => acc ++ [base + j]) thread []

theorem threadVisits_eq (hcov : info.Covers length) (clip : Bool) (thread : Nat) :
    threadVisits info length clip thread = indicesFrom info length thread := by
  rw [threadVisits, threadLoop_eq_foldl (g := fun acc k => acc ++ [k]) hcov clip
    (fun _ _ _ => rfl)]
  simp [← List.flatMap_def]

/-- A thread number selects its class of indices from the whole range. -/
theorem indicesFrom_of_lt (length : Nat) {thread : Nat} (h : thread < info.threads) :
    indicesFrom info length thread =
      (List.range length).filter fun k => k / info.items % info.threads = thread := by
  set base := thread * info.items with hbase
  have hsplit : List.range length =
      List.range' 0 (min base length) ++ List.range' (min base length) (length - base) := by
    have happ := @List.range'_append_1 0 (min base length) (length - base)
    rw [Nat.zero_add] at happ
    rw [happ, List.range_eq_range']
    congr 1
    omega
  have hbefore : (List.range' 0 (min base length)).filter
      (fun k => k / info.items % info.threads = thread) = [] := by
    refine List.filter_eq_nil_iff.mpr fun k hk => ?_
    rw [List.mem_range'_1] at hk
    have hlt : k / info.items < thread := by
      rw [Nat.div_lt_iff_lt_mul info.items_pos]
      omega
    simp [Nat.mod_eq_of_lt (hlt.trans h)]
    omega
  have hafter : List.range' (min base length) (length - base) =
      List.range' base (length - base) := by
    rcases Nat.le_total base length with hle | hle
    · rw [Nat.min_eq_left hle]
    · simp [Nat.sub_eq_zero_of_le hle]
  rw [hsplit, List.filter_append, hbefore, hafter, List.nil_append, indicesFrom,
    Nat.mod_eq_of_lt h]

/-- The threads together visit every index of the range exactly once. -/
theorem indicesFrom_perm (info : BlockInformation) (length : Nat) :
    ((List.range info.threads).flatMap (indicesFrom info length)).Perm (List.range length) := by
  have hclass : (List.range info.threads).flatMap (indicesFrom info length) =
      (List.range info.threads).flatMap fun t =>
        (List.range length).filter fun k => k / info.items % info.threads = t := by
    refine List.flatMap_congr fun t ht => ?_
    exact indicesFrom_of_lt length (List.mem_range.mp ht)
  rw [hclass]
  exact Folds.flatMap_classes_perm fun _ _ => Nat.mod_lt _ info.threads_pos

/-! ## Spans -/

/-- Consecutive spans tile a range that they cover. -/
theorem spans_flatMap (span n m : Nat) :
    (List.range m).flatMap
        (fun t => List.range' (span * t) (min (span * (t + 1)) n - span * t)) =
      List.range (min (span * m) n) := by
  induction m with
  | zero => simp
  | succ m ih =>
      rw [List.range_succ, List.flatMap_append, ih, List.flatMap_singleton]
      rcases Nat.le_total (span * m) n with hle | hle
      · have happ := @List.range'_append_1 0 (span * m) (min (span * (m + 1)) n - span * m)
        rw [Nat.zero_add] at happ
        rw [Nat.min_eq_left hle, List.range_eq_range', happ, List.range_eq_range']
        congr 1
        have hmono : span * m ≤ span * (m + 1) := Nat.mul_le_mul_left _ (Nat.le_succ m)
        omega
      · have hmono : span * m ≤ span * (m + 1) := Nat.mul_le_mul_left _ (Nat.le_succ m)
        rw [Nat.min_eq_right hle, Nat.min_eq_right (hle.trans hmono),
          Nat.sub_eq_zero_of_le hle]
        simp

/-- A span of a thread's share and some more covers the range. -/
theorem le_span_mul {n threads : Nat} (hthreads : 0 < threads) {extra : Nat} (hextra : 0 < extra) :
    n ≤ (n / threads + extra) * threads := by
  have hlt := Nat.lt_div_mul_add hthreads (a := n)
  have hle : 1 * threads ≤ extra * threads := Nat.mul_le_mul_right _ hextra
  rw [Nat.add_mul]
  omega

/-- The elements that thread `tid` walks: `span` of them from `span * tid` on, as far as the range
goes. -/
def spanOf (span n tid : Nat) : List Nat :=
  List.range' (span * tid) (min (span * (tid + 1)) n - span * tid)

theorem spanOf_flatMap {span n threads : Nat} (hcover : n ≤ span * threads) :
    (List.range threads).flatMap (spanOf span n) = List.range n := by
  show (List.range threads).flatMap (fun t => List.range' (span * t) _) = _
  rw [spans_flatMap, Nat.min_eq_right hcover]

end Loops
end LibND4J
