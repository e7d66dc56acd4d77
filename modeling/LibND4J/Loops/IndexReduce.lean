import LibND4J.Library.TeamMerges
import LibND4J.Loops.BlockInformation
import LibND4J.Shape.ShapeInfo

/-!
# The index of an element

`IndexReduce::execScalar` looks for the index of an extremum, or of the first or last element
that matches a condition.  A buffer whose elements lie one cell apart is cut into chunks for a team
of threads, which merge their results in any order; the operation that takes an element into a
result also merges two results.

Main results:

- Theorem `outcome_iff_of_not_split`: without a team the elements are scanned in order.
- Theorem `outcome_iff_of_split`: with a team every order of the merges has its outcome.
- Theorem `loopElement_eq`: which element the loops take for an index.
-/

namespace LibND4J
namespace Loops

open Strided Shape

theorem atLeastTwo_two : Nat.AtLeastTwo 2 :=
  ⟨by decide⟩

theorem atLeastTwo_ten : Nat.AtLeastTwo 10 :=
  ⟨by decide⟩

attribute [local instance] atLeastTwo_two atLeastTwo_ten

/-! ## The operations -/

structure IndexValue (K : Type) where
  value : K
  index : Int

/-- The extra parameters of a match: what is compared with, a tolerance, and the mode. -/
structure MatchParams (K : Type) where
  compare : K
  eps : K
  mode : Int

/-- An operation on indexed values. -/
structure IndexReduceOp (K : Type) where
  startingIndexValue : (Int → K) → IndexValue K
  update : IndexValue K → IndexValue K → MatchParams K → IndexValue K

section Operations

variable {K : Type} [Field K] [LinearOrder K]

/-- `MAX_FLOAT`. -/
def maxFloat : K :=
  10 ^ 37

/-- `MIN_FLOAT`. -/
def minFloat : K :=
  1 / 10 ^ 37

/-- The smallest number that becomes infinite as a float. -/
def floatOverflow : K :=
  (2 ^ 25 - 1) * 2 ^ 103

/-- `MatchCondition::op`, for numbers; an undefined mode returns the element. -/
def matchCondition (d1 : K) (extraParams : MatchParams K) : K :=
  let compare := extraParams.compare
  let eps := extraParams.eps
  match extraParams.mode with
  | 0 => if |d1 - compare| ≤ eps then 1 else 0
  | 1 => if |d1 - compare| > eps then 1 else 0
  | 2 => if d1 < compare then 1 else 0
  | 3 => if d1 > compare then 1 else 0
  | 4 => if d1 ≤ compare then 1 else 0
  | 5 => if d1 ≥ compare then 1 else 0
  | 6 => if |d1| < compare then 1 else 0
  | 7 => if |d1| > compare then 1 else 0
  | 8 => if floatOverflow ≤ |d1| then 1 else 0
  | 9 => 0
  | 10 => if d1 = compare then 1 else 0
  | 11 => if d1 ≠ compare then 1 else 0
  | 12 => if |d1| ≥ compare then 1 else 0
  | 13 => if |d1| ≤ compare then 1 else 0
  | _ => d1

/-- The update of an extremum: values are compared, and kept, by what `key` makes of them. -/
def updateExtremum (key : K → K) (exceeds : K → K → Prop) [DecidableRel exceeds]
    (old opOutput : IndexValue K) : IndexValue K :=
  let opOutput := { opOutput with value := key opOutput.value }
  let old := { old with value := key old.value }
  if exceeds opOutput.value old.value then opOutput else old

/-- The update of a match: an earlier index is replaced if it `yields` to the new one. -/
def updateMatch (yields : Int → Int → Prop) [DecidableRel yields] (old opOutput : IndexValue K)
    (extraParams : MatchParams K) : IndexValue K :=
  let res := matchCondition opOutput.value extraParams
  if res = 0 then old
  else if old.index < 0 then opOutput
  else if yields old.index opOutput.index then opOutput
  else old

/-- `IndexMax`. -/
def indexMax : IndexReduceOp K where
  startingIndexValue _ := ⟨-maxFloat, 0⟩
  update old opOutput _ := updateExtremum id (· > ·) old opOutput

/-- `IndexMin`. -/
def indexMin : IndexReduceOp K where
  startingIndexValue _ := ⟨maxFloat, 0⟩
  update old opOutput _ := updateExtremum id (· < ·) old opOutput

/-- `IndexAbsoluteMax`. -/
def indexAbsoluteMax : IndexReduceOp K where
  startingIndexValue _ := ⟨minFloat, 0⟩
  update old opOutput _ := updateExtremum (|·|) (· > ·) old opOutput

/-- `IndexAbsoluteMin`. -/
def indexAbsoluteMin : IndexReduceOp K where
  startingIndexValue _ := ⟨maxFloat, 0⟩
  update old opOutput _ := updateExtremum (|·|) (· < ·) old opOutput

/-- `FirstIndex`. -/
def firstIndex : IndexReduceOp K where
  startingIndexValue _ := ⟨-maxFloat, -1⟩
  update old opOutput extraParams := updateMatch (· > ·) old opOutput extraParams

/-- `LastIndex`. -/
def lastIndex : IndexReduceOp K where
  startingIndexValue _ := ⟨-maxFloat, -1⟩
  update old opOutput extraParams := updateMatch (· < ·) old opOutput extraParams

/-- The operations of `INDEX_REDUCE_OPS`. -/
inductive IndexReduceKind
  | indexMax
  | indexMin
  | indexAbsoluteMax
  | indexAbsoluteMin
  | firstIndex
  | lastIndex
deriving DecidableEq

def IndexReduceKind.opType : IndexReduceKind → IndexReduceOp K
  | indexMax => Loops.indexMax
  | indexMin => Loops.indexMin
  | indexAbsoluteMax => Loops.indexAbsoluteMax
  | indexAbsoluteMin => Loops.indexAbsoluteMin
  | firstIndex => Loops.firstIndex
  | lastIndex => Loops.lastIndex

/-! ## The loops -/

/-- The chunks of a thread, from chunk `i` on, as indices of elements. -/
def threadChunks (info : BlockInformation) (length i : Nat) : List (List Nat) :=
  if i < info.chunks then
    let newOffset := i * info.items
    if newOffset ≥ length then
      []  -- the early break
    else
      let itemsToLoop :=
        if newOffset + info.items ≥ length then length - newOffset else info.items
      ((List.range itemsToLoop).map fun j => newOffset + j) ::
        threadChunks info length (i + info.threads)
  else
    []
termination_by info.chunks - i
decreasing_by
  have := info.threads_pos
  omega

/-- The chunks of the threads of a team. -/
def teamChunks (info : BlockInformation) (length t : Nat) : List (List Nat) :=
  if t < info.threads then threadChunks info length t else []

/-- Take the element of an index into a result. -/
def IndexReduceOp.absorb (opType : IndexReduceOp K) (extraParams : MatchParams K)
    (element : Nat → K) (old : IndexValue K) (i : Nat) : IndexValue K :=
  opType.update old ⟨element i, i⟩ extraParams

/-- `execScalar`.  The schedule is the order in which the threads do and merge their chunks;
there is no result before all of them are done. -/
def IndexReduceOp.execScalar (opType : IndexReduceOp K) (settings : Settings) (x : Int → K)
    (xShapeInfo : ShapeInfo) (extraParams : MatchParams K) (schedule : List Nat) : Option Int :=
  let startingIndex := opType.startingIndexValue x
  let length := xShapeInfo.length
  let xElementWiseStride := xShapeInfo.elementWiseStride
  if xElementWiseStride < 1 then
    let element (i : Nat) :=
      x (getOffset 0 xShapeInfo.shape xShapeInfo.stride (ind2subC xShapeInfo.shape i))
    some ((List.range length).foldl (opType.absorb extraParams element) startingIndex).index
  else if xElementWiseStride = 1 then
    let element (i : Nat) := x i
    if length < settings.elementThreshold then
      some ((List.range length).foldl (opType.absorb extraParams element) startingIndex).index
    else
      let info :=
        blockInformation length settings.elementThreshold settings.maxThreads
          settings.maxThreads_pos
      let chunks := teamChunks info length
      (TeamMerges.run chunks (opType.absorb extraParams element)
        (fun startingIndex own => opType.update startingIndex own extraParams)
        startingIndex schedule).bind fun s =>
          if ∀ t < info.threads, (chunks t).length ≤ s.next t then some s.shared.index else none
  else
    let element (i : Nat) := x (i * xElementWiseStride)
    some ((List.range length).foldl (opType.absorb extraParams element) startingIndex).index

/-! ## What is wanted -/

/-- The element of an index in C order. -/
def elementAt (x : Int → K) (info : ShapeInfo) (k : Nat) : K :=
  x (dot (decode info.shape k) info.stride)

/-- The element that the loops take for an index. -/
def loopElement (x : Int → K) (info : ShapeInfo) (i : Nat) : K :=
  if info.elementWiseStride < 1 then elementAt x info i else x (i * info.elementWiseStride)

/-- An extremum is an element of the greatest grade. -/
def IndexReduceKind.grade (kind : IndexReduceKind) (a : K) : K :=
  match kind with
  | indexMax => a
  | indexMin => -a
  | indexAbsoluteMax => |a|
  | indexAbsoluteMin => -|a|
  | firstIndex | lastIndex => 0

/-- The element matches the condition. -/
def Matches (extraParams : MatchParams K) (a : K) : Prop :=
  matchCondition a extraParams ≠ 0

/-- An element that is looked for: an extremum, or a match. -/
def IndexReduceKind.Sought (kind : IndexReduceKind) (extraParams : MatchParams K) (v : Nat → K)
    (n i : Nat) : Prop :=
  match kind with
  | firstIndex | lastIndex => Matches extraParams (v i)
  | _ => ∀ j < n, kind.grade (v j) ≤ kind.grade (v i)

/-- The lowest index of a kind. -/
def Lowest (p : Nat → Prop) (n i : Nat) : Prop :=
  i < n ∧ p i ∧ ∀ j < i, ¬ p j

/-- The highest index of a kind. -/
def Highest (p : Nat → Prop) (n i : Nat) : Prop :=
  i < n ∧ p i ∧ ∀ j < n, i < j → ¬ p j

/-- The index among those looked for that is asked for. -/
def IndexReduceKind.Endmost (kind : IndexReduceKind) (p : Nat → Prop) (n i : Nat) : Prop :=
  if kind = lastIndex then Highest p n i else Lowest p n i

/-- What a scan in C order returns. -/
def IndexReduceKind.Wanted (kind : IndexReduceKind) (extraParams : MatchParams K) (v : Nat → K)
    (n : Nat) (index : Int) : Prop :=
  (∃ k, kind.Endmost (kind.Sought extraParams v n) n k ∧ index = k) ∨
    (∀ k < n, ¬ kind.Sought extraParams v n k) ∧ index = -1

/-- A value that a run returns. -/
def Outcome (settings : Settings) (kind : IndexReduceKind) (x : Int → K) (info : ShapeInfo)
    (extraParams : MatchParams K) (index : Int) : Prop :=
  ∃ schedule, kind.opType.execScalar settings x info extraParams schedule = some index

/-- Some run returns, and all that do return what a scan in C order would. -/
structure ReturnsWanted (settings : Settings) (kind : IndexReduceKind) (x : Int → K)
    (info : ShapeInfo) (extraParams : MatchParams K) : Prop where
  returns : ∃ index, Outcome settings kind x info extraParams index
  wanted : ∀ index, Outcome settings kind x info extraParams index →
    kind.Wanted extraParams (elementAt x info) info.length index

/-! ## The team -/

def chunkLayout (settings : Settings) (info : ShapeInfo) : BlockInformation :=
  blockInformation info.length settings.elementThreshold settings.maxThreads
    settings.maxThreads_pos

/-- The elements are divided over a team. -/
def Split (settings : Settings) (info : ShapeInfo) : Prop :=
  info.elementWiseStride = 1 ∧ settings.elementThreshold ≤ info.length

/-- The thread that does an element. -/
def threadOf (settings : Settings) (info : ShapeInfo) (i : Nat) : Nat :=
  i / (chunkLayout settings info).items % (chunkLayout settings info).threads

/-- The chunks of a thread are the indices it visits. -/
theorem flatten_threadChunks {info : BlockInformation} {length : Nat} (hcov : info.Covers length)
    (i : Nat) : (threadChunks info length i).flatten = indicesFrom info length i := by
  fun_induction threadChunks info length i with
  | case1 i hi newOffset hbreak =>
      have := hcov.start_lt i hi
      omega
  | case2 i hi newOffset hbreak itemsToLoop ih =>
      have hbound : itemsToLoop = min info.items (length - newOffset) := by
        simp only [itemsToLoop]
        split <;> omega
      rw [List.flatten_cons, ih, indicesFrom_eq info (Nat.lt_of_not_le hbreak), hbound,
        List.range'_eq_map_range]
  | case3 i hi =>
      have hle : length ≤ i * info.items :=
        hcov.length_le.trans (Nat.mul_le_mul_right _ (Nat.le_of_not_lt hi))
      simp [indicesFrom, Nat.sub_eq_zero_of_le hle]

section Team

variable {settings : Settings} {info : ShapeInfo}

theorem covers_chunkLayout (settings : Settings) (info : ShapeInfo) :
    (chunkLayout settings info).Covers info.length :=
  covers_blockInformation ..

variable {t : Nat}

theorem flatten_teamChunks (settings : Settings) (info : ShapeInfo)
    (ht : t < (chunkLayout settings info).threads) :
    (teamChunks (chunkLayout settings info) info.length t).flatten =
      (List.range info.length).filter fun i => threadOf settings info i = t := by
  rw [teamChunks, if_pos ht, flatten_threadChunks (covers_chunkLayout settings info),
    indicesFrom_of_lt _ ht]
  rfl

theorem teamChunks_of_le (settings : Settings) (info : ShapeInfo)
    (ht : (chunkLayout settings info).threads ≤ t) :
    teamChunks (chunkLayout settings info) info.length t = [] :=
  if_neg (Nat.not_lt.mpr ht)

theorem threadOf_lt (settings : Settings) (info : ShapeInfo) (i : Nat) :
    threadOf settings info i < (chunkLayout settings info).threads :=
  Nat.mod_lt _ (chunkLayout settings info).threads_pos

/-- A thread does the elements that are its own. -/
theorem mem_flatten_teamChunks {i : Nat} :
    i ∈ (teamChunks (chunkLayout settings info) info.length t).flatten ↔
      i < info.length ∧ threadOf settings info i = t := by
  by_cases ht : t < (chunkLayout settings info).threads
  · rw [flatten_teamChunks settings info ht, List.mem_filter, List.mem_range, decide_eq_true_eq]
  · rw [teamChunks_of_le settings info (Nat.le_of_not_lt ht), List.flatten_nil]
    have hlt := threadOf_lt settings info i
    constructor
    · intro h
      cases h
    · rintro ⟨-, rfl⟩
      exact absurd hlt ht

/-- A thread goes upwards. -/
theorem pairwise_teamChunks (settings : Settings) (info : ShapeInfo) (t : Nat) :
    (teamChunks (chunkLayout settings info) info.length t).flatten.Pairwise (· < ·) := by
  by_cases ht : t < (chunkLayout settings info).threads
  · rw [flatten_teamChunks settings info ht]
    exact List.pairwise_lt_range.filter _
  · rw [teamChunks_of_le settings info (Nat.le_of_not_lt ht), List.flatten_nil]
    exact List.Pairwise.nil

/-- The first chunk of a thread has the number of the thread. -/
theorem mem_firstChunk {i : Nat} (ht : t < (chunkLayout settings info).threads) :
    i ∈ TeamMerges.elements (teamChunks (chunkLayout settings info) info.length) t 1 ↔
      i < info.length ∧ i / (chunkLayout settings info).items = t := by
  have hcov := covers_chunkLayout settings info
  have hdiv : i / (chunkLayout settings info).items = t ↔
      t * (chunkLayout settings info).items ≤ i ∧
        i < t * (chunkLayout settings info).items + (chunkLayout settings info).items := by
    rw [← Nat.succ_mul, ← Nat.le_div_iff_mul_le (chunkLayout settings info).items_pos,
      ← Nat.div_lt_iff_lt_mul (chunkLayout settings info).items_pos]
    omega
  rw [TeamMerges.elements, teamChunks, if_pos ht, threadChunks, hdiv]
  by_cases hchunk : t < (chunkLayout settings info).chunks
  · have hstart := hcov.start_lt t hchunk
    rw [if_pos hchunk]
    simp only
    rw [if_neg (Nat.not_le.mpr hstart), List.take_succ_cons, List.take_zero, List.flatten_singleton,
      List.mem_map]
    simp only [List.mem_range]
    constructor
    · rintro ⟨j, hj, rfl⟩
      split at hj <;> omega
    · rintro ⟨hi, hle, hlt⟩
      exact ⟨i - t * (chunkLayout settings info).items, by split <;> omega, by omega⟩
  · -- there is no element behind the chunks
    have hbehind := Nat.mul_le_mul_right (chunkLayout settings info).items (Nat.le_of_not_lt hchunk)
    have hlength := hcov.length_le
    rw [if_neg hchunk, List.take_nil, List.flatten_nil]
    constructor
    · intro h
      cases h
    · rintro ⟨hi, hle, -⟩
      omega

/-- A thread has a chunk if there are that many. -/
theorem teamChunks_pos (ht : t < (chunkLayout settings info).threads) :
    0 < (teamChunks (chunkLayout settings info) info.length t).length ↔
      t < (chunkLayout settings info).chunks := by
  rw [teamChunks, if_pos ht, threadChunks]
  by_cases hchunk : t < (chunkLayout settings info).chunks
  · have hstart := (covers_chunkLayout settings info).start_lt t hchunk
    rw [if_pos hchunk]
    simp only
    rw [if_neg (Nat.not_le.mpr hstart), List.length_cons]
    exact iff_of_true (Nat.succ_pos _) hchunk
  · rw [if_neg hchunk, List.length_nil]
    exact iff_of_false (Nat.lt_irrefl 0) hchunk

end Team

/-! ## The elements that the loops see -/

section Visits

variable {info : ShapeInfo}

/-- The index in C order of the element that the loops take for an index. -/
def visited (info : ShapeInfo) (i : Nat) : Nat :=
  if 1 ≤ info.elementWiseStride ∧ info.isFOrder then encode info.shape (decodeF info.shape i) else i

theorem bijOn_visited (hpos : info.Positive) :
    Set.BijOn (visited info) {i | i < info.length} {i | i < info.length} := by
  by_cases hf : 1 ≤ info.elementWiseStride ∧ info.isFOrder
  · have hvisited : visited info = encode info.shape ∘ decodeF info.shape :=
      funext fun i => if_pos hf
    rw [hvisited]
    refine Set.BijOn.comp ?_ (bijOn_decodeF hpos)
    refine ⟨fun c hc => encode_lt hc, ?_, ?_⟩
    · intro a ha b hb heq
      rw [← decode_encode ha, ← decode_encode hb, heq]
    · intro k hk
      exact ⟨decode info.shape k, inBox_decode hpos hk, encode_decode hpos hk⟩
  · have hvisited : visited info = id := funext fun i => if_neg hf
    rw [hvisited]
    exact Set.bijOn_id _

omit [Field K] [LinearOrder K] in
/-- The element that the loops take for an index is one in C order. -/
theorem loopElement_eq (x : Int → K) (hpos : info.Positive) (hews : info.HonestEws) {i : Nat}
    (hi : i < info.length) : loopElement x info i = elementAt x info (visited info i) := by
  by_cases hone : 1 ≤ info.elementWiseStride
  · have hoffset := hews hone i hi
    rw [elementOffset_eq_ite _ _ (by rwa [info.volume_axes])] at hoffset
    rw [loopElement, if_neg (not_lt.mpr hone), elementAt, ← hoffset]
    by_cases hf : info.isFOrder
    · rw [if_pos hf, visited, if_pos ⟨hone, hf⟩,
        decode_encode ((bijOn_decodeF hpos).mapsTo hi), offsetAtF_eq_dot info.axes
          (by rwa [info.volume_axes]), info.dims_axes, info.map_snd_axes]
    · rw [if_neg hf, visited, if_neg fun h => hf h.2, offsetAt_eq_dot, info.dims_axes,
        info.map_snd_axes]
  · rw [loopElement, if_pos (not_le.mp hone), visited, if_neg fun h => hone h.1]

omit [Field K] [LinearOrder K] in
/-- What is true of all elements is true of all that the loops see. -/
theorem forall_loopElement_iff {p : K → Prop} (x : Int → K) (hpos : info.Positive)
    (hews : info.HonestEws) :
    (∀ i < info.length, p (loopElement x info i)) ↔ ∀ k < info.length, p (elementAt x info k) := by
  constructor
  · intro h k hk
    obtain ⟨i, hi, rfl⟩ := (bijOn_visited hpos).surjOn hk
    rw [← loopElement_eq x hpos hews hi]
    exact h i hi
  · intro h i hi
    rw [loopElement_eq x hpos hews hi]
    exact h _ ((bijOn_visited hpos).mapsTo hi)

end Visits

/-! ## What the runs return -/

section Outcomes

variable {settings : Settings} {kind : IndexReduceKind} {x : Int → K} {info : ShapeInfo}
  {extraParams : MatchParams K}

/-- The loops without a team. -/
theorem outcome_iff_of_not_split (hpos : info.Positive) (hsplit : ¬ Split settings info)
    (index : Int) :
    Outcome settings kind x info extraParams index ↔
      ((List.range info.length).foldl (kind.opType.absorb extraParams (loopElement x info))
        (kind.opType.startingIndexValue x)).index = index := by
  have hcongr : ∀ element : Nat → K, (∀ i < info.length, element i = loopElement x info i) →
      (List.range info.length).foldl (kind.opType.absorb extraParams element)
          (kind.opType.startingIndexValue x) =
        (List.range info.length).foldl (kind.opType.absorb extraParams (loopElement x info))
          (kind.opType.startingIndexValue x) := by
    intro element helement
    refine List.foldl_ext _ _ _ fun s i hi => ?_
    rw [IndexReduceOp.absorb, IndexReduceOp.absorb, helement i (List.mem_range.mp hi)]
  have hrun : ∀ schedule, kind.opType.execScalar settings x info extraParams schedule =
      some ((List.range info.length).foldl (kind.opType.absorb extraParams (loopElement x info))
        (kind.opType.startingIndexValue x)).index := by
    intro schedule
    unfold IndexReduceOp.execScalar
    simp only
    by_cases hews : info.elementWiseStride < 1
    · rw [if_pos hews, hcongr]
      intro i hi
      rw [loopElement, if_pos hews, elementAt, getOffset_ind2subC hpos hi, zero_add,
        offsetAt_eq_dot, info.dims_axes, info.map_snd_axes]
    · rw [if_neg hews]
      by_cases hone : info.elementWiseStride = 1
      · have hshort : info.length < settings.elementThreshold := by
          by_contra hlong
          exact hsplit ⟨hone, Nat.le_of_not_lt hlong⟩
        rw [if_pos hone, if_pos hshort, hcongr]
        intro i _
        rw [loopElement, if_neg hews, hone, mul_one]
      · rw [if_neg hone, hcongr]
        intro i _
        rw [loopElement, if_neg hews]
  constructor
  · rintro ⟨schedule, hschedule⟩
    rw [hrun] at hschedule
    exact Option.some.inj hschedule
  · intro h
    exact ⟨[], by rw [hrun, h]⟩

/-- The runs of a team. -/
theorem outcome_iff_of_split (hsplit : Split settings info) (index : Int) :
    Outcome settings kind x info extraParams index ↔
      ∃ schedule s, TeamMerges.run (teamChunks (chunkLayout settings info) info.length)
          (kind.opType.absorb extraParams (loopElement x info))
          (fun startingIndex own => kind.opType.update startingIndex own extraParams)
          (kind.opType.startingIndexValue x) schedule = some s ∧
        TeamMerges.Complete (teamChunks (chunkLayout settings info) info.length) s ∧
          s.shared.index = index := by
  obtain ⟨hone, hlong⟩ := hsplit
  have hews : ¬ info.elementWiseStride < 1 := by omega
  have helement : (fun i : Nat => x i) = loopElement x info := by
    funext i
    rw [loopElement, if_neg hews, hone, mul_one]
  have hcomplete : ∀ s : TeamMerges.State (IndexValue K),
      (∀ t < (chunkLayout settings info).threads,
        (teamChunks (chunkLayout settings info) info.length t).length ≤ s.next t) ↔
      TeamMerges.Complete (teamChunks (chunkLayout settings info) info.length) s := by
    intro s
    constructor
    · intro h t
      by_cases ht : t < (chunkLayout settings info).threads
      · exact h t ht
      · rw [teamChunks_of_le settings info (Nat.le_of_not_lt ht)]
        exact Nat.zero_le _
    · exact fun h t _ => h t
  have hrun : ∀ schedule, kind.opType.execScalar settings x info extraParams schedule =
      (TeamMerges.run (teamChunks (chunkLayout settings info) info.length)
        (kind.opType.absorb extraParams (loopElement x info))
        (fun startingIndex own => kind.opType.update startingIndex own extraParams)
        (kind.opType.startingIndexValue x) schedule).bind fun s =>
          if ∀ t < (chunkLayout settings info).threads,
            (teamChunks (chunkLayout settings info) info.length t).length ≤ s.next t then
              some s.shared.index
          else none := by
    intro schedule
    unfold IndexReduceOp.execScalar
    simp only
    rw [if_neg hews, if_pos hone, if_neg (Nat.not_lt.mpr hlong), helement]
    rfl
  refine exists_congr fun schedule => ?_
  rw [hrun, Option.bind_eq_some_iff]
  refine exists_congr fun s => and_congr_right fun _ => ?_
  by_cases hdone : ∀ t < (chunkLayout settings info).threads,
      (teamChunks (chunkLayout settings info) info.length t).length ≤ s.next t
  · rw [if_pos hdone, Option.some.injEq]
    exact ⟨fun h => ⟨(hcomplete s).mp hdone, h⟩, fun h => h.2⟩
  · rw [if_neg hdone]
    exact ⟨fun h => absurd h (by simp), fun h => absurd ((hcomplete s).mpr h.1) hdone⟩

/-- Some run returns. -/
theorem exists_outcome (settings : Settings) (kind : IndexReduceKind) (x : Int → K)
    (extraParams : MatchParams K) (hpos : info.Positive) :
    ∃ index, Outcome settings kind x info extraParams index := by
  by_cases hsplit : Split settings info
  · obtain ⟨schedule, s, hs, hcomplete⟩ := TeamMerges.exists_run
      (kind.opType.absorb extraParams (loopElement x info))
      (fun startingIndex own => kind.opType.update startingIndex own extraParams)
      (fun t ht => teamChunks_of_le settings info ht)
      (.initial (kind.opType.startingIndexValue x))
    exact ⟨s.shared.index, (outcome_iff_of_split hsplit _).mpr ⟨schedule, s, hs, hcomplete, rfl⟩⟩
  · exact ⟨_, (outcome_iff_of_not_split hpos hsplit _).mpr rfl⟩

end Outcomes

end Operations

end Loops
end LibND4J
