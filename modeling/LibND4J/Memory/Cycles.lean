import LibND4J.Memory.Workspace

/-!
# Cycles of a workspace

A workspace is used in cycles: a scope is opened, memory is requested, the scope is
closed.  Opening a scope releases the spilled blocks and grows the host block to what
the cycle before has asked for, so that the same requests no longer spill.

Main results:

- Theorem `Counted.step`: one call keeps the counters of a workspace in order.
- Theorem `noSpill_of_total_le`: a cycle that asks for no more than the block holds
  spills nothing, however the total is split into requests.
- Theorem `cycles_learn`: the law of the four counters over all runs of cycles.
-/

namespace LibND4J
namespace Memory

def Workspace.getSpilledSize (w : Workspace) : Int :=
  w.spillsSize

/-- A call made during a cycle; `fresh` is what `malloc` would answer in it. -/
inductive CycleCall
  | scopeIn (fresh : Int)
  | allocateBytes (numBytes : Nat) (fresh : Int)
  | scopeOut

/-- A scope and the requests made in it. -/
structure Cycle where
  fresh : Int
  requests : List (Nat × Int)

/-- All bytes a cycle asks for. -/
def Cycle.total (cycle : Cycle) : Nat :=
  (cycle.requests.map Prod.fst).sum

def Cycle.calls (cycle : Cycle) : List CycleCall :=
  .scopeIn cycle.fresh ::
    (cycle.requests.map fun q => CycleCall.allocateBytes q.1 q.2) ++ [.scopeOut]

/-- A workspace together with the sizes of the requests that spilled since the last
`scopeIn`, the newest first. -/
structure Ledger where
  workspace : Workspace
  spilled : List Nat

namespace Ledger

def start (initialSize fresh : Int) : Ledger where
  workspace := Workspace.construct initialSize fresh
  spilled := []

/-- One call on the workspace of a ledger. -/
def step (s : Ledger) : CycleCall → Ledger
  | .scopeIn fresh => { workspace := s.workspace.scopeIn fresh, spilled := [] }
  | .allocateBytes numBytes fresh =>
      { workspace := (s.workspace.allocateBytes numBytes fresh).1
        spilled := if s.workspace.Spills numBytes then numBytes :: s.spilled else s.spilled }
  | .scopeOut => { s with workspace := s.workspace.scopeOut }

/-- A run of calls. -/
def run (s : Ledger) (calls : List CycleCall) : Ledger :=
  calls.foldl step s

end Ledger

/-! ## One call -/

theorem scopeIn_fields (w : Workspace) (fresh : Int) :
    (w.scopeIn fresh).currentSize = max w.currentSize w.cycleAllocations ∧
      (w.scopeIn fresh).cycleAllocations = 0 ∧ (w.scopeIn fresh).spillsSize = 0 := by
  by_cases hgrow : w.currentSize < w.cycleAllocations
  · have hmax : max w.currentSize w.cycleAllocations = w.cycleAllocations := max_eq_right hgrow.le
    simp [Workspace.scopeIn, Workspace.init, Workspace.freeSpills, hgrow, hmax]
  · have hmax : max w.currentSize w.cycleAllocations = w.currentSize :=
      max_eq_left (Int.not_lt.mp hgrow)
    simp [Workspace.scopeIn, Workspace.init, Workspace.freeSpills, hgrow, hmax]

theorem allocateBytes_counters (w : Workspace) (numBytes fresh : Int) :
    (w.allocateBytes numBytes fresh).1.cycleAllocations = w.cycleAllocations + numBytes ∧
      (w.allocateBytes numBytes fresh).1.spillsSize =
        w.spillsSize + if w.Spills numBytes then numBytes else 0 := by
  by_cases hspills : w.offset + numBytes > w.currentSize
  · simp [Workspace.allocateBytes, Workspace.Spills, hspills]
  · simp [Workspace.allocateBytes, Workspace.Spills, hspills]

/-- The counters of a workspace are in order.  Before the first scope the size may be
negative, as the constructor takes any number. -/
structure Counted (s : Ledger) : Prop where
  offset_nonneg : 0 ≤ s.workspace.offset
  offset_le : s.workspace.offset ≤ max s.workspace.currentSize 0
  cycle_nonneg : 0 ≤ s.workspace.cycleAllocations
  spills_eq : s.workspace.getSpilledSize = (s.spilled.sum : Nat)

theorem counted_start (initialSize fresh : Int) : Counted (Ledger.start initialSize fresh) where
  offset_nonneg := le_refl 0
  offset_le := le_max_right _ _
  cycle_nonneg := le_refl 0
  spills_eq := rfl

variable {s : Ledger}

/-- A call keeps the counters in order. -/
theorem Counted.step (h : Counted s) (call : CycleCall) : Counted (s.step call) := by
  have hoffset := h.offset_le
  have hcycle := h.cycle_nonneg
  cases call with
  | scopeIn fresh =>
      obtain ⟨hsize, hzero, hspills⟩ := scopeIn_fields s.workspace fresh
      constructor
      · rw [Ledger.step, scopeIn_offset]
        exact h.offset_nonneg
      · rw [Ledger.step, scopeIn_offset, hsize]
        omega
      · rw [Ledger.step, hzero]
      · exact hspills
  | allocateBytes numBytes fresh =>
      obtain ⟨hcounted, hspilled⟩ := allocateBytes_counters s.workspace numBytes fresh
      have heq := h.spills_eq
      by_cases hspills : s.workspace.Spills numBytes
      · obtain ⟨-, hsize, hsame⟩ := allocateBytes_of_spills fresh hspills
        constructor
        · rw [Ledger.step, hsame]
          exact h.offset_nonneg
        · rw [Ledger.step, hsame, hsize]
          exact hoffset
        · rw [Ledger.step, hcounted]
          omega
        · rw [if_pos hspills] at hspilled
          simp only [Workspace.getSpilledSize] at heq
          simp only [Ledger.step, Workspace.getSpilledSize, hspilled, if_pos hspills, heq]
          rw [List.sum_cons]
          omega
      · obtain ⟨-, hsize, hmoved, -⟩ := allocateBytes_of_not_spills fresh hspills
        have hroom : s.workspace.offset + numBytes ≤ s.workspace.currentSize :=
          Int.not_lt.mp hspills
        have hnonneg := h.offset_nonneg
        constructor
        · rw [Ledger.step, hmoved]
          omega
        · rw [Ledger.step, hmoved, hsize]
          omega
        · rw [Ledger.step, hcounted]
          omega
        · rw [if_neg hspills, add_zero] at hspilled
          simp only [Workspace.getSpilledSize] at heq
          simp only [Ledger.step, Workspace.getSpilledSize, hspilled, if_neg hspills, heq]
  | scopeOut =>
      constructor
      · exact le_refl 0
      · exact le_max_right _ _
      · exact hcycle
      · exact h.spills_eq

/-- No call shrinks the block. -/
theorem currentSize_le_step (s : Ledger) (call : CycleCall) :
    s.workspace.currentSize ≤ (s.step call).workspace.currentSize := by
  cases call with
  | scopeIn fresh =>
      rw [Ledger.step, (scopeIn_fields s.workspace fresh).1]
      exact le_max_left _ _
  | allocateBytes numBytes fresh =>
      apply le_of_eq
      rw [Ledger.step]
      by_cases hspills : s.workspace.Spills numBytes
      · exact (allocateBytes_of_spills fresh hspills).2.1.symm
      · exact (allocateBytes_of_not_spills fresh hspills).2.1.symm
  | scopeOut => exact le_refl _

/-- Opening a scope leaves a size that is not negative, and so does every later call. -/
theorem currentSize_nonneg_of_scopeIn (h : Counted s) (fresh : Int) (calls : List CycleCall) :
    ∀ t ∈ Runs.trace Ledger.step (s.step (.scopeIn fresh)) calls, 0 ≤ t.workspace.currentSize := by
  apply Runs.forall_mem_trace
  · intro t call ht
    exact ht.trans (currentSize_le_step t call)
  · have hcycle := h.cycle_nonneg
    rw [Ledger.step, (scopeIn_fields s.workspace fresh).1]
    omega

/-! ## One cycle -/

/-- A scope in which `used` bytes were asked for and none of them spilled. -/
structure InScope (s : Ledger) (used : Nat) : Prop where
  offset_eq : s.workspace.offset = used
  cycle_eq : s.workspace.cycleAllocations = used
  spilled_eq : s.spilled = []

/-- A request that fits behind what was used is served by the block. -/
theorem InScope.allocateBytes {used : Nat} (h : InScope s used) {numBytes : Nat}
    (hroom : ((used + numBytes : Nat) : Int) ≤ s.workspace.currentSize) (fresh : Int) :
    InScope (s.step (.allocateBytes numBytes fresh)) (used + numBytes) := by
  have hoffset := h.offset_eq
  have hspills : ¬ s.workspace.Spills numBytes := by
    unfold Workspace.Spills
    omega
  obtain ⟨-, -, hmoved, -⟩ := allocateBytes_of_not_spills fresh hspills
  constructor
  · rw [Ledger.step, hmoved, hoffset]
    push_cast
    rfl
  · rw [Ledger.step, (allocateBytes_counters s.workspace numBytes fresh).1, h.cycle_eq]
    push_cast
    rfl
  · rw [Ledger.step, if_neg hspills]
    exact h.spilled_eq

/-- Requests that fit together spill nothing, and nor does closing the scope. -/
theorem InScope.trace {used : Nat} (h : InScope s used) (requests : List (Nat × Int))
    (hroom : ((used + (requests.map Prod.fst).sum : Nat) : Int) ≤ s.workspace.currentSize) :
    ∀ t ∈ Runs.trace Ledger.step s
      ((requests.map fun q => CycleCall.allocateBytes q.1 q.2) ++ [.scopeOut]), t.spilled = [] := by
  induction requests generalizing s used with
  | nil =>
      intro t ht
      simp only [List.map_nil, List.nil_append, Runs.trace, List.mem_cons, List.not_mem_nil,
        or_false] at ht
      rcases ht with rfl | rfl
      · exact h.spilled_eq
      · exact h.spilled_eq
  | cons q requests ih =>
      intro t ht
      rw [List.map_cons, List.sum_cons] at hroom
      rw [List.map_cons, List.cons_append, Runs.trace] at ht
      rcases List.mem_cons.mp ht with rfl | ht
      · exact h.spilled_eq
      · have hsize := currentSize_le_step s (.allocateBytes q.1 q.2)
        have hroomFirst : ((used + q.1 : Nat) : Int) ≤ s.workspace.currentSize := by omega
        have hnext := h.allocateBytes hroomFirst q.2
        exact ih hnext (by omega) t ht

/-- Between two cycles the whole block is free and `last` bytes were counted. -/
structure Between (s : Ledger) (last : Nat) : Prop where
  offset_eq : s.workspace.offset = 0
  cycle_eq : s.workspace.cycleAllocations = last

/-- A cycle that asks for no more than the block holds, once its scope is open, spills
nothing. -/
theorem noSpill_of_total_le {last : Nat} (h : Between s last) (cycle : Cycle)
    (hroom : (cycle.total : Int) ≤ max s.workspace.currentSize last) :
    ∀ t ∈ (Runs.trace Ledger.step s cycle.calls).tail, t.spilled = [] := by
  obtain ⟨hsize, hzero, -⟩ := scopeIn_fields s.workspace cycle.fresh
  have hopen : InScope (s.step (.scopeIn cycle.fresh)) 0 := by
    constructor
    · rw [Ledger.step, scopeIn_offset, h.offset_eq]
      rfl
    · exact hzero
    · rfl
  rw [h.cycle_eq] at hsize
  have htotal : ((0 + (cycle.requests.map Prod.fst).sum : Nat) : Int) ≤
      (s.step (.scopeIn cycle.fresh)).workspace.currentSize := by
    rw [Ledger.step, hsize, Nat.zero_add]
    exact hroom
  exact hopen.trace cycle.requests htotal

/-- The requests of a cycle are all counted. -/
theorem run_requests_cycle (s : Ledger) (requests : List (Nat × Int)) :
    (s.run (requests.map fun q => CycleCall.allocateBytes q.1 q.2)).workspace.cycleAllocations =
      s.workspace.cycleAllocations + ((requests.map Prod.fst).sum : Nat) := by
  induction requests generalizing s with
  | nil => simp [Ledger.run]
  | cons q requests ih =>
      have hstep : (s.step (.allocateBytes q.1 q.2)).workspace.cycleAllocations =
          s.workspace.cycleAllocations + q.1 :=
        (allocateBytes_counters s.workspace q.1 q.2).1
      rw [List.map_cons, List.map_cons, List.sum_cons]
      refine (ih (s.step (.allocateBytes q.1 q.2))).trans ?_
      rw [hstep]
      omega

/-- After a cycle its requests are counted and the block is free. -/
theorem between_run (s : Ledger) (cycle : Cycle) : Between (s.run cycle.calls) cycle.total := by
  have hcalls : s.run cycle.calls = ((s.step (.scopeIn cycle.fresh)).run
      (cycle.requests.map fun q => CycleCall.allocateBytes q.1 q.2)).step .scopeOut := by
    simp [Ledger.run, Cycle.calls]
  constructor
  · rw [hcalls]
    rfl
  · rw [hcalls]
    refine (run_requests_cycle _ cycle.requests).trans ?_
    have hzero : (s.step (.scopeIn cycle.fresh)).workspace.cycleAllocations = 0 :=
      (scopeIn_fields s.workspace cycle.fresh).2.1
    rw [hzero, zero_add]
    rfl

/-! ## Runs of cycles -/

/-- The ledger after some cycles on a fresh workspace. -/
def Ledger.afterCycles (initialSize fresh : Int) (cycles : List Cycle) : Ledger :=
  (Ledger.start initialSize fresh).run (cycles.flatMap Cycle.calls)

/-- The bytes the last cycle asked for, none before the first. -/
def lastTotal (cycles : List Cycle) : Nat :=
  (cycles.getLast?.map Cycle.total).getD 0

theorem between_afterCycles (initialSize fresh : Int) (cycles : List Cycle) :
    Between (Ledger.afterCycles initialSize fresh cycles) (lastTotal cycles) := by
  rcases List.eq_nil_or_concat cycles with rfl | ⟨before, cycle, rfl⟩
  · exact ⟨rfl, rfl⟩
  · have hrun : Ledger.afterCycles initialSize fresh (before ++ [cycle]) =
        (Ledger.afterCycles initialSize fresh before).run cycle.calls := by
      simp [Ledger.afterCycles, Ledger.run]
    have hlast : lastTotal (before ++ [cycle]) = cycle.total := by simp [lastTotal]
    rw [List.concat_eq_append, hrun, hlast]
    exact between_run _ cycle

/-- Over every run of cycles the offset stays inside the block, the block never shrinks,
the spilled size is that of the spilled requests, and a cycle that asks for no more than
the block holds at its start, or than the cycle before it asked for, spills nothing. -/
theorem cycles_learn (initialSize fresh : Int) (cycles : List Cycle) :
    (0 ≤ initialSize → ∀ s ∈ Runs.trace Ledger.step (Ledger.start initialSize fresh)
        (cycles.flatMap Cycle.calls), s.workspace.offset ≤ s.workspace.currentSize) ∧
      (∀ s ∈ (Runs.trace Ledger.step (Ledger.start initialSize fresh)
        (cycles.flatMap Cycle.calls)).tail, s.workspace.offset ≤ s.workspace.currentSize) ∧
      (Runs.trace Ledger.step (Ledger.start initialSize fresh)
        (cycles.flatMap Cycle.calls)).Pairwise
          (fun s t => s.workspace.currentSize ≤ t.workspace.currentSize) ∧
      (∀ s ∈ Runs.trace Ledger.step (Ledger.start initialSize fresh)
        (cycles.flatMap Cycle.calls), s.workspace.getSpilledSize = (s.spilled.sum : Nat)) ∧
      ∀ before cycle after, cycles = before ++ cycle :: after →
        ((cycle.total : Int) ≤
            (Ledger.afterCycles initialSize fresh before).workspace.currentSize ∨
          cycle.total ≤ lastTotal before) →
        ∀ s ∈ (Runs.trace Ledger.step (Ledger.afterCycles initialSize fresh before)
          cycle.calls).tail, s.spilled = [] := by
  have hcounted : ∀ s ∈ Runs.trace Ledger.step (Ledger.start initialSize fresh)
      (cycles.flatMap Cycle.calls), Counted s :=
    Runs.forall_mem_trace (fun s call hs => hs.step call) _ (counted_start initialSize fresh)
  have hgrow := Runs.pairwise_trace (r := fun s t : Ledger =>
    s.workspace.currentSize ≤ t.workspace.currentSize) (fun h h' => le_trans h h')
    currentSize_le_step (Ledger.start initialSize fresh) (cycles.flatMap Cycle.calls)
  refine ⟨?_, ?_, hgrow, fun s hs => (hcounted s hs).spills_eq, ?_⟩
  · intro hnonneg s hs
    have hle := (hcounted s hs).offset_le
    rw [Runs.trace_eq_cons] at hs hgrow
    have hsize : 0 ≤ s.workspace.currentSize := by
      rcases List.mem_cons.mp hs with rfl | hs
      · exact hnonneg
      · exact le_trans hnonneg (List.rel_of_pairwise_cons hgrow hs)
    omega
  · intro s hs
    have hle := (hcounted s (List.mem_of_mem_tail hs)).offset_le
    have hsize : 0 ≤ s.workspace.currentSize := by
      cases cycles with
      | nil => simp [Runs.trace] at hs
      | cons cycle rest =>
          exact currentSize_nonneg_of_scopeIn (counted_start initialSize fresh) cycle.fresh _ s hs
    omega
  · intro before cycle after _ hroom
    apply noSpill_of_total_le (between_afterCycles initialSize fresh before)
    rcases hroom with hsize | htotal
    · exact hsize.trans (le_max_left _ _)
    · exact le_trans (by exact_mod_cast htotal) (le_max_right _ _)

end Memory
end LibND4J
