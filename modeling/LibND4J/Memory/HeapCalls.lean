import LibND4J.Memory.Workspace
import Mathlib.Data.List.Perm.Basic

/-!
# What a workspace takes from the heap

Every operation of a workspace is a list of answers of `malloc` and calls of `free`.
A heap follows the list with the blocks that are live, and stops at a block that is freed
without being live.

Main results:

- Theorem `liveAfter_step`: a call keeps the live blocks those that the workspace holds.
- Theorem `lifetime_balanced`: from the constructor to the destructor every block is freed
  once, and none is left.
-/

namespace LibND4J
namespace Memory

/-! ## The heap -/

/-- An answer of `malloc`, or a call of `free`. -/
inductive HeapCall
  | malloc (p : Int)
  | free (p : Int)

/-- The live blocks after some calls, unless a block is freed that is not live. -/
def liveAfter : List Int → List HeapCall → Option (List Int)
  | live, [] => some live
  | live, .malloc p :: calls => liveAfter (p :: live) calls
  | live, .free p :: calls => if p ∈ live then liveAfter (live.erase p) calls else none

theorem liveAfter_append (live : List Int) (calls calls' : List HeapCall) :
    liveAfter live (calls ++ calls') = (liveAfter live calls).bind fun l => liveAfter l calls' := by
  induction calls generalizing live with
  | nil => rfl
  | cons call calls ih =>
      cases call with
      | malloc p => exact ih (p :: live)
      | free p =>
          rw [List.cons_append, liveAfter, liveAfter]
          split
          · exact ih (live.erase p)
          · rfl

/-- Freeing some of the live blocks leaves the others. -/
theorem liveAfter_free {live others : List Int} (ps : List Int) (h : live.Perm (ps ++ others)) :
    ∃ l, liveAfter live (ps.map .free) = some l ∧ l.Perm others := by
  induction ps generalizing live with
  | nil => exact ⟨live, rfl, h⟩
  | cons p ps ih =>
      have hmem : p ∈ live := h.mem_iff.mpr List.mem_cons_self
      have hrest : (live.erase p).Perm (ps ++ others) := by
        simpa using h.erase p
      rw [List.map_cons, liveAfter, if_pos hmem]
      exact ih hrest

/-! ## The calls of a workspace -/

namespace Workspace

/-- The host block, when there is one. -/
def hostBlock (w : Workspace) : List Int :=
  if w.allocatedHost then [w.ptrHost] else []

/-- The blocks that a workspace holds. -/
def held (w : Workspace) : List Int :=
  w.hostBlock ++ w.spills

def constructCalls (initialSize fresh : Int) : List HeapCall :=
  if initialSize > 0 then [.malloc fresh] else []

def freeSpillsCalls (w : Workspace) : List HeapCall :=
  w.spills.map .free

def initCalls (w : Workspace) (bytes fresh : Int) : List HeapCall :=
  if w.currentSize < bytes then w.hostBlock.map .free ++ [.malloc fresh] else []

/-- The heap calls of a call on a workspace. -/
def heapCalls (w : Workspace) : Call → List HeapCall
  | .allocateBytes numBytes fresh => if w.Spills numBytes then [.malloc fresh] else []
  | .scopeIn fresh => w.freeSpillsCalls ++ w.freeSpills.initCalls w.cycleAllocations fresh
  | .scopeOut => []

/-- The heap calls of the destructor. -/
def destroyCalls (w : Workspace) : List HeapCall :=
  w.hostBlock.map .free ++ w.freeSpillsCalls

end Workspace

/-- The heap calls of a run of calls. -/
def Session.heapCalls : Session → List Call → List HeapCall
  | _, [] => []
  | s, call :: calls => s.workspace.heapCalls call ++ (s.step call).heapCalls calls

/-! ## Runs -/

variable {live : List Int} {w : Workspace}

/-- Growing the host block frees the old one and keeps the spilled blocks. -/
theorem liveAfter_init (h : live.Perm w.held) (bytes fresh : Int) :
    ∃ l, liveAfter live (w.initCalls bytes fresh) = some l ∧ l.Perm (w.init bytes fresh).held := by
  rw [Workspace.initCalls, Workspace.init]
  split
  · obtain ⟨l, hl, hperm⟩ := liveAfter_free w.hostBlock h
    refine ⟨fresh :: l, ?_, ?_⟩
    · rw [liveAfter_append, hl]
      rfl
    · exact hperm.cons fresh
  · exact ⟨live, rfl, h⟩

/-- A call leaves the blocks live that the workspace holds after it. -/
theorem liveAfter_step (s : Session) (h : live.Perm s.workspace.held) (call : Call) :
    ∃ l, liveAfter live (s.workspace.heapCalls call) = some l ∧
      l.Perm (s.step call).workspace.held := by
  cases call with
  | allocateBytes numBytes fresh =>
      rw [Workspace.heapCalls]
      by_cases hspills : s.workspace.Spills numBytes
      · have hguard : s.workspace.offset + numBytes > s.workspace.currentSize := hspills
        refine ⟨fresh :: live, by rw [if_pos hspills]; rfl, ?_⟩
        have hheld : (s.step (.allocateBytes numBytes fresh)).workspace.held =
            s.workspace.held ++ [fresh] := by
          simp [Session.step, Workspace.allocateBytes, hguard, Workspace.held, Workspace.hostBlock]
        rw [hheld]
        exact (h.cons fresh).trans (List.perm_append_singleton fresh _).symm
      · have hguard : ¬ s.workspace.offset + numBytes > s.workspace.currentSize := hspills
        refine ⟨live, by rw [if_neg hspills]; rfl, ?_⟩
        simpa [Session.step, Workspace.allocateBytes, hguard, Workspace.held, Workspace.hostBlock]
          using h
  | scopeIn fresh =>
      have hspills : live.Perm (s.workspace.spills ++ s.workspace.hostBlock) :=
        h.trans List.perm_append_comm
      obtain ⟨l, hl, hperm⟩ := liveAfter_free _ hspills
      have hheld : l.Perm s.workspace.freeSpills.held := by
        rw [Workspace.held, Workspace.freeSpills, List.append_nil]
        exact hperm
      obtain ⟨l', hl', hperm'⟩ := liveAfter_init hheld s.workspace.cycleAllocations fresh
      refine ⟨l', ?_, hperm'⟩
      rw [Workspace.heapCalls, Workspace.freeSpillsCalls, liveAfter_append, hl]
      exact hl'
  | scopeOut => exact ⟨live, rfl, h⟩

/-- So does a run of calls. -/
theorem liveAfter_run (calls : List Call) (s : Session) (h : live.Perm s.workspace.held) :
    ∃ l, liveAfter live (s.heapCalls calls) = some l ∧
      l.Perm (calls.foldl Session.step s).workspace.held := by
  induction calls generalizing live s with
  | nil => exact ⟨live, rfl, h⟩
  | cons call calls ih =>
      obtain ⟨l, hl, hperm⟩ := liveAfter_step s h call
      obtain ⟨l', hl', hperm'⟩ := ih (s.step call) hperm
      refine ⟨l', ?_, hperm'⟩
      rw [Session.heapCalls, liveAfter_append, hl]
      exact hl'

/-- In every run, no block is freed that is not live, and the live blocks are those that the
workspace holds; its destructor frees all of them. -/
theorem lifetime_balanced (initialSize fresh : Int) (calls : List Call) :
    ∃ live, liveAfter [] (Workspace.constructCalls initialSize fresh ++
        (Session.start initialSize fresh).heapCalls calls) = some live ∧
      live.Perm (calls.foldl Session.step (Session.start initialSize fresh)).workspace.held ∧
      liveAfter live
        (calls.foldl Session.step (Session.start initialSize fresh)).workspace.destroyCalls =
          some [] := by
  have hstart : ∃ l, liveAfter [] (Workspace.constructCalls initialSize fresh) = some l ∧
      l.Perm (Session.start initialSize fresh).workspace.held := by
    refine ⟨(Session.start initialSize fresh).workspace.held, ?_, List.Perm.refl _⟩
    by_cases hsize : initialSize > 0 <;>
      simp [Workspace.constructCalls, hsize, liveAfter, Session.start, Workspace.construct,
        Workspace.held, Workspace.hostBlock]
  obtain ⟨l, hl, hperm⟩ := hstart
  obtain ⟨live, hlive, hheld⟩ := liveAfter_run calls _ hperm
  refine ⟨live, by rw [liveAfter_append, hl]; exact hlive, hheld, ?_⟩
  have hall : live.Perm ((calls.foldl Session.step (Session.start initialSize
      fresh)).workspace.held ++ []) := hheld.trans (by rw [List.append_nil])
  obtain ⟨none, hnone, hempty⟩ := liveAfter_free _ hall
  rw [Workspace.destroyCalls, Workspace.freeSpillsCalls, ← List.map_append, ← Workspace.held,
    hnone, hempty.eq_nil]

end Memory
end LibND4J
