import LibND4J.Random.TruncatedNormal

/-!
# Normal distributions in threads

`GaussianDistribution` and `LogNormalDistribution` turn two uniform draws into two
outputs that follow one another.  The threads take spans of even size, and each of them keeps the
second output of a pair for its next step.  The bounds of a span are computed in `int`s.

Main results:

- Theorem `threadLoop_eq`: a thread that starts at an even position stores at each position
  its own branch of the pair that it belongs to.
- Theorem `covers_iff`: the spans cover all positions once exactly if the bounds of the last
  one fit an `int`.
- Theorem `sameInThreads_iff`: then, and with cells of their own for the outputs, the result is
  the same for every number of threads.
-/

namespace LibND4J
namespace Random

open Loops Shape TruncatedNormal

namespace Gaussian

/-! ## The operations -/

/-- The number of positions for a thread; the remainder is that of C. -/
def threadSpan (zLength threads : Nat) : Int :=
  let span := toInt32 (zLength / threads + 8 : Nat)
  -- we're enforcing even chunks, since it's mandatory for this algorithm
  span - span.tmod 2

/-- The first position of a thread. -/
def threadStart (zLength threads tid : Nat) : Int :=
  toInt32 (threadSpan zLength threads * tid)

/-- The position behind those of a thread. -/
def threadEnd (zLength threads tid : Nat) : Int :=
  min (toInt32 (threadSpan zLength threads * (tid + 1))) zLength

section Loop

variable {T : Type*} [Field T]

/-- The mean of an output. -/
def realMean (args : Arguments T) (e : Int) : T :=
  match args.y with
  | some y => y (e * args.yEWS)
  | none => args.mean

/-- Loop of a thread over `count` positions from `e` on: its stores.  The value that is passed on is
`z1`, as long as the flag `generated` is set. -/
def threadLoop (f : Elementary T) (draws : Int → T) (finish : T → T) (args : Arguments T) :
    Nat → Int → Option T → List (Int × T)
  | 0, _, _ => []
  | count + 1, e, none =>
      let z := boxMuller f (draws e) (draws (e + 1))
      (e, finish (z.1 * args.stddev + realMean args e)) ::
        threadLoop f draws finish args count (e + 1) (some z.2)
  | count + 1, e, some z1 =>
      (e, finish (z1 * args.stddev + realMean args e)) ::
        threadLoop f draws finish args count (e + 1) none

def threadStores (f : Elementary T) (draws : Int → T) (finish : T → T) (args : Arguments T)
    (threads tid : Nat) : List (Int × T) :=
  let zLength := args.zShapeBuffer.length
  let start := threadStart zLength threads tid
  threadLoop f draws finish args (threadEnd zLength threads tid - start).toNat start none

/-- The work of the threads. -/
def work (f : Elementary T) (draws : Int → T) (finish : T → T) (args : Arguments T)
    (threads : Nat) : List (List (Int × T)) :=
  (List.range threads).map (threadStores f draws finish args threads)

/-- `relativeT` with the boundaries that keep the logarithm away from zero. -/
def drawsOf (state : RandomBuffer) (index : Int) : T :=
  state.relativeTBetween index.toNat 1e-5 1

/-- The loops of both operations, and the update of the state behind them; `schedule` is the order
in which the stores of the threads are done. -/
def fill (state : RandomBuffer) (args : Arguments T) (schedule : List (Int × T)) (z : Int → T) :
    (Int → T) × RandomBuffer :=
  (Stores.storeAll (fun store : Int × T => store.1 * args.zShapeBuffer.elementWiseStride)
    (fun store _ => store.2) schedule z, state.rewindH args.zShapeBuffer.length)

/-- `GaussianDistribution::specialOp`: what it can leave. -/
def GaussianDistribution.Leaves (f : Elementary T) (state : RandomBuffer) (args : Arguments T)
    (threads : Nat) (z : Int → T) (out : (Int → T) × RandomBuffer) : Prop :=
  ∃ schedule, schedule.Perm (work f (drawsOf state) id args threads).flatten ∧
    out = fill state args schedule z

/-- `LogNormalDistribution::specialOp`: what it can leave. -/
def LogNormalDistribution.Leaves (f : Elementary T) (exp : T → T) (state : RandomBuffer)
    (args : Arguments T) (threads : Nat) (z : Int → T) (out : (Int → T) × RandomBuffer) : Prop :=
  ∃ schedule, schedule.Perm (work f (drawsOf state) exp args threads).flatten ∧
    out = fill state args schedule z

/-- The cosine branch at an even position and the sine branch at an odd one, of the pair that is
drawn at the even position and the one behind it. -/
def branch (f : Elementary T) (draws : Int → T) (finish : T → T) (args : Arguments T) (e : Int) :
    T :=
  let z := boxMuller f (draws (2 * (e / 2))) (draws (2 * (e / 2) + 1))
  finish ((if e % 2 = 0 then z.1 else z.2) * args.stddev + realMean args e)

end Loop

/-- The positions of a thread. -/
def positionsOf (zLength threads tid : Nat) : List Int :=
  (List.range (threadEnd zLength threads tid - threadStart zLength threads tid).toNat).map
    fun i : Nat => threadStart zLength threads tid + i

/-- The positions of the threads are those of the output, each of them once. -/
def Covers (zLength threads : Nat) : Prop :=
  ((List.range threads).flatMap (positionsOf zLength threads)).Perm
    ((List.range zLength).map Nat.cast)

/-- The operations leave the same in every number of threads. -/
structure SameInThreads (z : ShapeInfo) (threads : Nat) : Prop where
  covers : Covers z.length threads
  starts_even : ∀ tid, threadStart z.length threads tid % 2 = 0
  gaussian : ∀ {T : Type} [Field T] (f : Elementary T) (state : RandomBuffer) (args : Arguments T),
    args.zShapeBuffer = z → ∀ memory out,
      GaussianDistribution.Leaves f state args threads memory out →
        out.2 = state.rewindH z.length ∧ ∀ e < z.length,
          out.1 (e * z.elementWiseStride) = branch f (drawsOf state) id args e
  logNormal : ∀ {T : Type} [Field T] (f : Elementary T) (exp : T → T) (state : RandomBuffer)
    (args : Arguments T), args.zShapeBuffer = z → ∀ memory out,
      LogNormalDistribution.Leaves f exp state args threads memory out →
        out.2 = state.rewindH z.length ∧ ∀ e < z.length,
          out.1 (e * z.elementWiseStride) = branch f (drawsOf state) exp args e

/-! ## A thread -/

section Thread

variable {T : Type*} [Field T] {f : Elementary T} {draws : Int → T} {finish : T → T}
  {args : Arguments T}

/-- The saved value belongs to the pair of an odd position; at an even one there is none. -/
def Saved (f : Elementary T) (draws : Int → T) (e : Int) : Option T → Prop
  | none => e % 2 = 0
  | some z1 => e % 2 = 1 ∧ z1 = (boxMuller f (draws (e - 1)) (draws e)).2

/-- A thread stores at each position its own branch of the pair. -/
theorem threadLoop_eq {count : Nat} {e : Int} {saved : Option T} (h : Saved f draws e saved) :
    threadLoop f draws finish args count e saved =
      (List.range count).map fun i : Nat => (e + i, branch f draws finish args (e + i)) := by
  induction count generalizing e saved with
  | zero => rfl
  | succ count ih =>
      have hrest : ∀ saved', Saved f draws (e + 1) saved' →
          threadLoop f draws finish args count (e + 1) saved' =
            (List.range count).map fun i : Nat =>
              (e + (i + 1 : Nat), branch f draws finish args (e + (i + 1 : Nat))) := by
        intro saved' hsaved
        rw [ih hsaved]
        refine List.map_congr_left fun i _ => ?_
        rw [Nat.cast_succ, add_assoc, add_comm (1 : Int)]
      rw [List.range_succ_eq_map, List.map_cons, List.map_map, Nat.cast_zero, add_zero]
      cases saved with
      | none =>
          -- an even position draws a pair
          have heven : e % 2 = 0 := h
          have hfirst : 2 * (e / 2) = e := by omega
          have hsaved : Saved f draws (e + 1) (some (boxMuller f (draws e) (draws (e + 1))).2) :=
            ⟨by omega, by rw [add_sub_cancel_right]⟩
          rw [threadLoop, hrest _ hsaved, branch, hfirst, if_pos heven]
          rfl
      | some z1 =>
          -- an odd one takes what is left of it
          obtain ⟨hodd, rfl⟩ := h
          have hfirst : 2 * (e / 2) = e - 1 := by omega
          have hsecond : 2 * (e / 2) + 1 = e := by omega
          rw [threadLoop, hrest none (show (e + 1) % 2 = 0 by omega), branch, hsecond, hfirst,
            if_neg (by omega)]
          rfl

theorem threadSpan_even (zLength threads : Nat) : threadSpan zLength threads % 2 = 0 := by
  simp only [threadSpan]
  have h := Int.tmod_add_mul_tdiv (toInt32 (zLength / threads + 8 : Nat)) 2
  omega

theorem threadStart_even (zLength threads tid : Nat) : threadStart zLength threads tid % 2 = 0 := by
  have heven : (threadSpan zLength threads * tid) % 2 = 0 := by
    rw [Int.mul_emod, threadSpan_even, zero_mul, Int.zero_emod]
  rw [threadStart]
  generalize threadSpan zLength threads * tid = n at heven
  simp only [toInt32, Int.bmod]
  omega

/-- The stores of all threads. -/
theorem work_flatten (threads : Nat) :
    (work f draws finish args threads).flatten =
      ((List.range threads).flatMap (positionsOf args.zShapeBuffer.length threads)).map
        fun e => (e, branch f draws finish args e) := by
  rw [work, ← List.flatMap_def, List.map_flatMap]
  refine List.flatMap_congr fun tid _ => ?_
  have hsaved : Saved f draws (threadStart args.zShapeBuffer.length threads tid) none :=
    threadStart_even _ _ _
  rw [threadStores, threadLoop_eq hsaved, positionsOf, List.map_map]
  rfl

end Thread

/-! ## Spans -/

section Spans

variable {zLength threads : Nat}

/-- The size of a span as a natural number. -/
def evenSpan (zLength threads : Nat) : Nat :=
  zLength / threads + 8 - (zLength / threads + 8) % 2

/-- The bounds of the last span fit an `int`; its end has to only if the span is not empty. -/
def BoundsFit (zLength threads : Nat) : Prop :=
  evenSpan zLength threads * (threads - 1) < 2 ^ 31 ∧
    (evenSpan zLength threads * threads < 2 ^ 31 ∨
      zLength ≤ evenSpan zLength threads * (threads - 1))

instance (zLength threads : Nat) : Decidable (BoundsFit zLength threads) :=
  inferInstanceAs (Decidable (_ ∧ _))

theorem evenSpan_pos (zLength threads : Nat) : 0 < evenSpan zLength threads := by
  rw [evenSpan]
  generalize zLength / threads = q
  omega

theorem threadSpan_eq (h : evenSpan zLength threads < 2 ^ 31) :
    threadSpan zLength threads = evenSpan zLength threads := by
  simp only [threadSpan, evenSpan] at h ⊢
  generalize zLength / threads + 8 = span at h ⊢
  rw [toInt32_of_lt (Int.natCast_nonneg span) (by omega),
    Int.tmod_eq_emod_of_nonneg (Int.natCast_nonneg span)]
  omega

/-- The spans reach behind the last position. -/
theorem le_evenSpan_mul (hthreads : 0 < threads) : zLength ≤ evenSpan zLength threads * threads := by
  rw [evenSpan, Nat.add_sub_assoc (by omega)]
  exact le_span_mul hthreads (by omega)

variable {tid : Nat}

theorem mem_positionsOf {e : Int} :
    e ∈ positionsOf zLength threads tid ↔
      threadStart zLength threads tid ≤ e ∧ e < threadEnd zLength threads tid := by
  rw [positionsOf, List.mem_map]
  simp only [List.mem_range]
  constructor
  · rintro ⟨i, hi, rfl⟩
    omega
  · rintro ⟨hge, hlt⟩
    exact ⟨(e - threadStart zLength threads tid).toNat, by omega, by omega⟩

/-- The size of a span fits if the bounds of the last one do. -/
theorem BoundsFit.span_lt (hthreads : 0 < threads) (h : BoundsFit zLength threads) :
    evenSpan zLength threads < 2 ^ 31 := by
  obtain ⟨hlast, hend⟩ := h
  rcases Nat.eq_or_lt_of_le (Nat.succ_le_of_lt hthreads) with rfl | hmany
  · rw [Nat.mul_one, Nat.sub_self, Nat.mul_zero] at hend
    rcases hend with hend | hzero
    · exact hend
    · rw [Nat.le_zero.mp hzero]
      decide
  · exact (Nat.le_mul_of_pos_right _ (Nat.sub_pos_of_lt hmany)).trans_lt hlast

/-- The bounds of a span, before they are stored in an `int`. -/
theorem threadSpan_mul (h : evenSpan zLength threads < 2 ^ 31) (tid : Nat) :
    threadSpan zLength threads * tid = (evenSpan zLength threads * tid : Nat) ∧
      threadSpan zLength threads * (tid + 1) =
        (evenSpan zLength threads * tid + evenSpan zLength threads : Nat) := by
  rw [threadSpan_eq h, Nat.cast_add, Nat.cast_mul, mul_add, mul_one]
  exact ⟨rfl, rfl⟩

/-- Spans whose bounds fit are those of natural numbers. -/
theorem positionsOf_eq (hthreads : 0 < threads) (h : BoundsFit zLength threads)
    (htid : tid < threads) :
    positionsOf zLength threads tid =
      (spanOf (evenSpan zLength threads) zLength tid).map Nat.cast := by
  obtain ⟨hfirst, hnext⟩ := threadSpan_mul (h.span_lt hthreads) tid
  obtain ⟨hlast, hend⟩ := h
  have hle : evenSpan zLength threads * tid ≤ evenSpan zLength threads * (threads - 1) :=
    Nat.mul_le_mul_left _ (by omega)
  have hstart : threadStart zLength threads tid = (evenSpan zLength threads * tid : Nat) := by
    rw [threadStart, hfirst]
    exact toInt32_of_lt (Int.natCast_nonneg _) (by omega)
  have hcount : (threadEnd zLength threads tid - threadStart zLength threads tid).toNat =
      min (evenSpan zLength threads * (tid + 1)) zLength - evenSpan zLength threads * tid := by
    rw [hstart, threadEnd, hnext, Nat.mul_succ]
    by_cases hfits : evenSpan zLength threads * tid + evenSpan zLength threads < 2 ^ 31
    · rw [toInt32_of_lt (Int.natCast_nonneg _) (by omega)]
      omega
    · -- a span whose end does not fit is the last one, and empty
      have hempty : zLength ≤ evenSpan zLength threads * tid := by
        rcases Nat.lt_or_ge (tid + 1) threads with hlt | hge
        · have hinner : evenSpan zLength threads * (tid + 1) ≤
              evenSpan zLength threads * (threads - 1) := Nat.mul_le_mul_left _ (by omega)
          rw [Nat.mul_succ] at hinner
          omega
        · have hprevious : threads - 1 = tid := by omega
          have hall : evenSpan zLength threads * threads =
              evenSpan zLength threads * tid + evenSpan zLength threads := by
            rw [← Nat.mul_succ]
            exact congrArg _ (show threads = tid + 1 by omega)
          rw [hprevious, hall] at hend
          exact hend.resolve_left hfits
      clear hend hlast hfits hle hfirst hnext hstart
      omega
  rw [positionsOf, hcount, hstart, spanOf, List.range'_eq_map_range, List.map_map]
  exact List.map_congr_left fun i _ => by simp

/-- Bounds that fit cover the output. -/
theorem covers_of_fit (hthreads : 0 < threads) (h : BoundsFit zLength threads) :
    Covers zLength threads := by
  have hflat : (List.range threads).flatMap (positionsOf zLength threads) =
      (List.range zLength).map Nat.cast := by
    rw [← @spanOf_flatMap _ zLength threads (le_evenSpan_mul hthreads), List.map_flatMap]
    exact List.flatMap_congr fun tid htid =>
      positionsOf_eq hthreads h (List.mem_range.mp htid)
  rw [Covers, hflat]

theorem Covers.mem_iff (h : Covers zLength threads) {e : Int} :
    (∃ tid < threads, threadStart zLength threads tid ≤ e ∧ e < threadEnd zLength threads tid) ↔
      0 ≤ e ∧ e < zLength := by
  have hmem := List.Perm.mem_iff h (a := e)
  simp only [List.mem_flatMap, List.mem_range, mem_positionsOf, List.mem_map] at hmem
  rw [hmem]
  constructor
  · rintro ⟨k, hk, rfl⟩
    omega
  · rintro ⟨hge, hlt⟩
    exact ⟨e.toNat, by omega, by omega⟩

theorem toInt32_lt (n : Int) : toInt32 n < 2 ^ 31 := by
  simp only [toInt32, Int.bmod]
  omega

/-- What does not fit an `int` turns negative, for two turns of positive numbers. -/
theorem toInt32_of_ge {n : Int} (hge : 2 ^ 31 ≤ n) (hlt : n < 2 ^ 31 + 2 ^ 32) :
    toInt32 n = n - 2 ^ 32 := by
  simp only [toInt32, Int.bmod]
  omega

/-- The size of a span fits if the output is covered. -/
theorem Covers.span_lt (hthreads : 0 < threads) (h : Covers zLength threads) :
    evenSpan zLength threads < 2 ^ 31 := by
  have hlength : zLength < 2 ^ 31 := by
    rcases Nat.eq_zero_or_pos zLength with hzero | hpos
    · omega
    · obtain ⟨tid, -, -, hlt⟩ := h.mem_iff.mpr (show 0 ≤ (zLength - 1 : Int) ∧ _ by omega)
      have hend := toInt32_lt (threadSpan zLength threads * (tid + 1))
      rw [threadEnd] at hlt
      omega
  rw [evenSpan]
  by_cases hone : threads = 1
  · -- a single span that does not fit ends in front of its start
    subst hone
    by_contra hnot
    rw [Nat.div_one] at hnot
    obtain ⟨tid, htid, -, hlt⟩ := h.mem_iff.mpr (show (0 : Int) ≤ 0 ∧ (0 : Int) < zLength by omega)
    have hfirst : tid = 0 := by omega
    have hint : toInt32 (zLength / 1 + 8 : Nat) = zLength + 8 - 2 ^ 32 := by
      rw [Nat.div_one, toInt32_of_ge (by omega) (by omega)]
      omega
    have hrem := Int.lt_tmod_of_pos (zLength + 8 - 2 ^ 32 : Int) (show (0 : Int) < 2 by decide)
    have hspan : threadSpan zLength 1 < 0 ∧ -2 ^ 31 ≤ threadSpan zLength 1 := by
      have hrem' := Int.tmod_lt_of_pos (zLength + 8 - 2 ^ 32 : Int) (show (0 : Int) < 2 by decide)
      have heven := threadSpan_even zLength 1
      simp only [threadSpan, hint] at heven ⊢
      omega
    rw [hfirst, threadEnd, Nat.cast_zero, zero_add, mul_one, toInt32, Int.bmod] at hlt
    omega
  · have hhalf : zLength / threads ≤ zLength / 2 := Nat.div_le_div_left (by omega) (by decide)
    omega

/-- The starts of all spans fit if the output is covered: the first one that does not is
negative. -/
theorem Covers.start_lt (hthreads : 0 < threads) (h : Covers zLength threads)
    (htid : tid < threads) : evenSpan zLength threads * tid < 2 ^ 31 := by
  have hsize := h.span_lt hthreads
  induction tid with
  | zero => exact Nat.pos_of_ne_zero (by decide)
  | succ tid ih =>
      have hprevious := ih (by omega)
      by_contra hnot
      obtain ⟨hfirst, hnext⟩ := threadSpan_mul hsize (tid + 1)
      rw [Nat.mul_succ] at hnot hfirst hnext
      have hpos := evenSpan_pos zLength threads
      have hstart : threadStart zLength threads (tid + 1) =
          (evenSpan zLength threads * tid + evenSpan zLength threads : Nat) - 2 ^ 32 := by
        rw [threadStart, hfirst, toInt32_of_ge (by omega) (by omega)]
      have hend : threadStart zLength threads (tid + 1) < threadEnd zLength threads (tid + 1) := by
        rw [threadEnd, hnext, hstart, toInt32_of_ge (by omega) (by omega)]
        omega
      have hinside := h.mem_iff.mp ⟨tid + 1, htid, le_rfl, hend⟩
      omega

/-- The output is covered only if the bounds fit. -/
theorem fit_of_covers (hthreads : 0 < threads) (h : Covers zLength threads) :
    BoundsFit zLength threads := by
  have hsize := h.span_lt hthreads
  obtain ⟨last, rfl⟩ : ∃ last, threads = last + 1 := ⟨threads - 1, by omega⟩
  have hstart := h.start_lt hthreads (Nat.lt_succ_self last)
  rw [BoundsFit, Nat.add_sub_cancel]
  refine ⟨hstart, ?_⟩
  by_contra hnot
  rw [not_or, not_lt, not_le, Nat.mul_succ] at hnot
  -- no thread reaches the position where the last span starts
  obtain ⟨tid, htid, -, hlt⟩ := h.mem_iff.mpr
    (show (0 : Int) ≤ (evenSpan zLength (last + 1) * last : Nat) ∧ _ by omega)
  obtain ⟨-, hnext⟩ := threadSpan_mul hsize tid
  rw [threadEnd, hnext] at hlt
  rcases Nat.eq_or_lt_of_le (Nat.le_of_lt_succ htid) with rfl | hinner
  · rw [toInt32_of_ge (by omega) (by omega)] at hlt
    omega
  · have hle : evenSpan zLength (last + 1) * (tid + 1) ≤ evenSpan zLength (last + 1) * last :=
      Nat.mul_le_mul_left _ hinner
    rw [Nat.mul_succ] at hle
    rw [toInt32_of_lt (Int.natCast_nonneg _) (by omega)] at hlt
    omega

end Spans

/-! ## Outputs -/

section Outputs

variable {T : Type*} [Field T] {f : Elementary T} {finish : T → T} {state : RandomBuffer}
  {args : Arguments T} {threads : Nat}

/-- In every order of the stores, an output that is covered holds its own branch. -/
theorem fill_apply {schedule : List (Int × T)}
    (hschedule : schedule.Perm (work f (drawsOf state) finish args threads).flatten)
    (hcovers : Covers args.zShapeBuffer.length threads)
    (hcells : args.zShapeBuffer.length ≤ 1 ∨ args.zShapeBuffer.elementWiseStride ≠ 0)
    (memory : Int → T) {e : Nat} (he : e < args.zShapeBuffer.length) :
    (fill state args schedule memory).1 (e * args.zShapeBuffer.elementWiseStride) =
      branch f (drawsOf state) finish args e := by
  have hmem : ∀ store, store ∈ schedule ↔ ∃ k < args.zShapeBuffer.length,
      ((k : Int), branch f (drawsOf state) finish args k) = store := by
    intro store
    rw [work_flatten] at hschedule
    rw [(hschedule.trans (List.Perm.map _ hcovers)).mem_iff, List.map_map, List.mem_map]
    simp only [List.mem_range, Function.comp_apply]
  apply Stores.storeAll_of_agree
  · exact ⟨_, (hmem _).mpr ⟨e, he, rfl⟩, rfl⟩
  · intro store hstore hcell _
    obtain ⟨k, hk, rfl⟩ := (hmem store).mp hstore
    have hsame : (k : Int) = e := by
      rcases hcells with hshort | hne
      · omega
      · exact mul_right_cancel₀ hne hcell
    rw [hsame]

end Outputs

theorem sameInThreads_of_fit {z : ShapeInfo} {threads : Nat} (hthreads : 0 < threads)
    (hfit : BoundsFit z.length threads) (hcells : z.length ≤ 1 ∨ z.elementWiseStride ≠ 0) :
    SameInThreads z threads where
  covers := covers_of_fit hthreads hfit
  starts_even := threadStart_even z.length threads
  gaussian := by
    rintro T _ f state args rfl memory out ⟨schedule, hschedule, rfl⟩
    exact ⟨rfl, fun e he => fill_apply hschedule (covers_of_fit hthreads hfit) hcells memory he⟩
  logNormal := by
    rintro T _ f exp state args rfl memory out ⟨schedule, hschedule, rfl⟩
    exact ⟨rfl, fun e he => fill_apply hschedule (covers_of_fit hthreads hfit) hcells memory he⟩

/-- Outputs that are their means share no cell. -/
theorem SameInThreads.cells {z : ShapeInfo} {threads : Nat} (h : SameInThreads z threads) :
    z.length ≤ 1 ∨ z.elementWiseStride ≠ 0 := by
  by_contra hnot
  rw [not_or, not_le, not_not] at hnot
  obtain ⟨hlong, hzero⟩ := hnot
  set args : Arguments ℚ :=
    { zShapeBuffer := z, y := some fun i => i, yEWS := 1, mean := 0, stddev := 0 } with hargs
  set f : Elementary ℚ := ⟨id, id, id, id⟩
  set state : RandomBuffer := ⟨1, fun _ => 0, 0, 0, 0, 0⟩
  have hmean : ∀ e : Int, branch f (drawsOf state) id args e = e := by
    intro e
    simp [branch, realMean, hargs]
  obtain ⟨-, hvalues⟩ := h.gaussian f state args rfl (fun _ => 0) _ ⟨_, .refl _, rfl⟩
  have hfirst := hvalues 0 (by omega)
  have hsecond := hvalues 1 hlong
  rw [hzero, mul_zero, hmean] at hfirst hsecond
  have heq := hfirst.symm.trans hsecond
  norm_num at heq

/-- The operations leave the same in a number of threads exactly if the bounds of the last span fit
an `int`, and the element-wise stride of several outputs is not zero. -/
theorem sameInThreads_iff (z : ShapeInfo) {threads : Nat} (hthreads : 0 < threads) :
    SameInThreads z threads ↔
      BoundsFit z.length threads ∧ (z.length ≤ 1 ∨ z.elementWiseStride ≠ 0) := by
  constructor
  · intro h
    exact ⟨fit_of_covers hthreads h.covers, h.cells⟩
  · rintro ⟨hfit, hcells⟩
    exact sameInThreads_of_fit hthreads hfit hcells

/-- Three threads on a row of a hundred outputs. -/
theorem sameInThreads_row : SameInThreads (ShapeInfo.ofAxes [(1, 100), (100, 1)] 0 1 'c') 3 :=
  (sameInThreads_iff _ (by decide)).mpr ⟨by decide, by decide⟩

/-- One thread on a row that is eight outputs short of the first length that is no `int`: the end of
its span is negative, and nothing is stored. -/
theorem not_sameInThreads_always :
    ¬ ∀ (z : ShapeInfo) (threads : Nat), 0 < threads → SameInThreads z threads := by
  intro h
  have hcovers := (h (ShapeInfo.ofAxes [(1, 1), (2147483640, 1)] 0 1 'c') 1 (by decide)).covers
  have hfit := fit_of_covers (by decide) hcovers
  exact absurd hfit (by decide)

end Gaussian

end Random
end LibND4J
