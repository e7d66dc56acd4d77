import Mathlib.Data.PNat.Basic
import LibND4J.Library.Runs

/-!
# Workspaces

A workspace hands out memory from one host block and spills to `malloc` when the
block is full.  The model keeps the fields of the class and threads them through its
operations; the addresses that `malloc` answers with are arguments.

The pointer handed out is computed from the offset after the offset was moved, so a
region starts where the bytes it accounts for end.

Main results:

- Theorem `regionsGood_iff_fits`: the regions handed out since the last scope
  change are disjoint and inside the block, in every state of a run, exactly when
  every request of the run fits the shifted layout.
- Theorem `not_regionsGood_always`: a request for the whole block overruns it.
-/

namespace LibND4J
namespace Memory

/-- The fields of a workspace that its operations use. -/
structure Workspace where
  ptrHost : Int
  allocatedHost : Bool
  offset : Int
  initialSize : Int
  currentSize : Int
  spills : List Int
  spillsSize : Int
  cycleAllocations : Int
deriving Repr, DecidableEq

/-- The constructor.  The block is at `fresh` when one is allocated; otherwise the
pointer is left unset and `fresh` stands for whatever it holds. -/
def Workspace.construct (initialSize : Int) (fresh : Int) : Workspace where
  ptrHost := fresh
  allocatedHost := initialSize > 0
  offset := 0
  initialSize := initialSize
  currentSize := initialSize
  spills := []
  spillsSize := 0
  cycleAllocations := 0

/-- Replace the host block by a larger one. -/
def Workspace.init (w : Workspace) (bytes : Int) (fresh : Int) : Workspace :=
  if w.currentSize < bytes then
    { w with ptrHost := fresh, currentSize := bytes, allocatedHost := true }
  else
    w

/-- Release the spilled blocks. -/
def Workspace.freeSpills (w : Workspace) : Workspace :=
  { w with spillsSize := 0, spills := [] }

/-- Hand out `numBytes`, from the block if they fit behind the offset, else from
`malloc`, which answers with `fresh`. -/
def Workspace.allocateBytes (w : Workspace) (numBytes : Int) (fresh : Int) : Workspace × Int :=
  let w := { w with cycleAllocations := w.cycleAllocations + numBytes }
  if w.offset + numBytes > w.currentSize then
    ({ w with spills := w.spills ++ [fresh], spillsSize := w.spillsSize + numBytes }, fresh)
  else
    let w := { w with offset := w.offset + numBytes }
    (w, w.ptrHost + w.offset)

/-- Open a scope: spills are released and the block grows to what the last cycle used. -/
def Workspace.scopeIn (w : Workspace) (fresh : Int) : Workspace :=
  { w.freeSpills.init w.cycleAllocations fresh with cycleAllocations := 0 }

/-- Close a scope: the whole block is free again. -/
def Workspace.scopeOut (w : Workspace) : Workspace :=
  { w with offset := 0 }

/-- Whether a request is served by `malloc`. -/
def Workspace.Spills (w : Workspace) (numBytes : Int) : Prop :=
  w.offset + numBytes > w.currentSize

instance (w : Workspace) (numBytes : Int) : Decidable (w.Spills numBytes) :=
  inferInstanceAs (Decidable (_ > _))

variable {w : Workspace} {s : Session}

theorem allocateBytes_of_spills {numBytes : Int} (fresh : Int) (h : w.Spills numBytes) :
    (w.allocateBytes numBytes fresh).1.ptrHost = w.ptrHost ∧
      (w.allocateBytes numBytes fresh).1.currentSize = w.currentSize ∧
      (w.allocateBytes numBytes fresh).1.offset = w.offset := by
  have hguard : w.offset + numBytes > w.currentSize := h
  simp [Workspace.allocateBytes, hguard]

theorem allocateBytes_of_not_spills {numBytes : Int} (fresh : Int) (h : ¬ w.Spills numBytes) :
    (w.allocateBytes numBytes fresh).1.ptrHost = w.ptrHost ∧
      (w.allocateBytes numBytes fresh).1.currentSize = w.currentSize ∧
      (w.allocateBytes numBytes fresh).1.offset = w.offset + numBytes ∧
      (w.allocateBytes numBytes fresh).2 = w.ptrHost + (w.offset + numBytes) := by
  have hguard : ¬ w.offset + numBytes > w.currentSize := h
  simp [Workspace.allocateBytes, hguard]

@[simp]
theorem init_offset (w : Workspace) (bytes fresh : Int) :
    (w.init bytes fresh).offset = w.offset := by
  unfold Workspace.init
  split <;> rfl

/-- Opening a scope does not move the offset. -/
@[simp]
theorem scopeIn_offset (w : Workspace) (fresh : Int) : (w.scopeIn fresh).offset = w.offset := by
  simp [Workspace.scopeIn, Workspace.freeSpills]

/-! ## Sessions -/

/-- A call on a workspace, with the address `malloc` would answer during it. -/
inductive Call
  | allocateBytes (numBytes : ℕ+) (fresh : Int)
  | scopeIn (fresh : Int)
  | scopeOut

/-- Bytes `[start, start + size)`. -/
structure Region where
  start : Int
  size : Int
deriving Repr, DecidableEq

/-- A workspace together with the regions that its block has served since the last
scope change, the newest first. -/
structure Session where
  workspace : Workspace
  regions : List Region

/-- A fresh workspace has served nothing. -/
def Session.start (initialSize fresh : Int) : Session where
  workspace := Workspace.construct initialSize fresh
  regions := []

/-- One call on the workspace of a session. -/
def Session.step (s : Session) : Call → Session
  | .allocateBytes numBytes fresh =>
      let (w, p) := s.workspace.allocateBytes numBytes fresh
      { workspace := w
        regions := if s.workspace.Spills numBytes then s.regions else ⟨p, numBytes⟩ :: s.regions }
  | .scopeIn fresh => { workspace := s.workspace.scopeIn fresh, regions := [] }
  | .scopeOut => { workspace := s.workspace.scopeOut, regions := [] }

/-- No byte belongs to both regions. -/
def Region.Disjoint (r r' : Region) : Prop :=
  r.start + r.size ≤ r'.start ∨ r'.start + r'.size ≤ r.start

/-- The region lies in the host block. -/
def Region.Inside (r : Region) (w : Workspace) : Prop :=
  w.ptrHost ≤ r.start ∧ r.start + r.size ≤ w.ptrHost + w.currentSize

/-- The regions of a session are pairwise disjoint and lie in the host block. -/
structure RegionsGood (s : Session) : Prop where
  disjoint : s.regions.Pairwise Region.Disjoint
  inside : ∀ r ∈ s.regions, r.Inside s.workspace

/-- What a call needs for its region to be good: a request served by the block leaves
room for itself twice behind the offset, and is no smaller than the request before it. -/
def Fits (s : Session) : Call → Prop
  | .allocateBytes numBytes _ =>
      s.workspace.Spills numBytes ∨
        (s.workspace.offset + 2 * numBytes ≤ s.workspace.currentSize ∧
          ∀ r ∈ s.regions.head?, r.size ≤ numBytes)
  | .scopeIn _ => True
  | .scopeOut => True

/-- Invariant of the sessions whose requests fit: the newest region starts at the
offset and every older one ends before a newer one starts. -/
structure Stacked (s : Session) : Prop where
  offset_nonneg : 0 ≤ s.workspace.offset
  newest : ∀ r ∈ s.regions.head?, r.start = s.workspace.ptrHost + s.workspace.offset
  ordered : s.regions.Pairwise fun newer older => older.start + older.size ≤ newer.start
  size_pos : ∀ r ∈ s.regions, 0 < r.size
  inside : ∀ r ∈ s.regions, r.Inside s.workspace

theorem Stacked.regionsGood (h : Stacked s) : RegionsGood s where
  disjoint := h.ordered.imp Or.inr
  inside := h.inside

/-- Without regions only the offset is left to check. -/
theorem stacked_of_nil (h : 0 ≤ w.offset) : Stacked ⟨w, []⟩ where
  offset_nonneg := h
  newest := by simp
  ordered := List.Pairwise.nil
  size_pos := by simp
  inside := by simp

/-- A spilled request changes neither the block nor the regions. -/
theorem Stacked.of_spills {numBytes : ℕ+} (fresh : Int) (h : Stacked s)
    (hspills : s.workspace.Spills numBytes) : Stacked (s.step (.allocateBytes numBytes fresh)) := by
  obtain ⟨hptr, hsize, hoffset⟩ := allocateBytes_of_spills fresh hspills
  constructor
  · simpa [Session.step, hoffset] using h.offset_nonneg
  · simpa [Session.step, hspills, hptr, hoffset] using h.newest
  · simpa [Session.step, hspills] using h.ordered
  · simpa [Session.step, hspills] using h.size_pos
  · simpa [Session.step, hspills, Region.Inside, hptr, hsize] using h.inside

/-- Every region ends at or before the end of the newest one. -/
theorem Stacked.end_le (h : Stacked s) {newest : Region} {older : List Region}
    (hregions : s.regions = newest :: older) :
    ∀ r ∈ s.regions, r.start + r.size ≤ newest.start + newest.size := by
  intro r hr
  have hord := h.ordered
  rw [hregions] at hr hord
  rcases List.mem_cons.mp hr with rfl | hr
  · exact le_refl _
  · have hle := List.rel_of_pairwise_cons hord hr
    have hpos := h.size_pos newest (by simp [hregions])
    omega

/-- A fitting request served by the block is stacked on the older regions. -/
theorem Stacked.of_fits {numBytes : ℕ+} (fresh : Int) (h : Stacked s)
    (hspills : ¬ s.workspace.Spills numBytes)
    (hroom : s.workspace.offset + 2 * numBytes ≤ s.workspace.currentSize)
    (hgrow : ∀ r ∈ s.regions.head?, r.size ≤ numBytes) :
    Stacked (s.step (.allocateBytes numBytes fresh)) := by
  obtain ⟨hptr, hsize, hoffset, hresult⟩ := allocateBytes_of_not_spills fresh hspills
  have hnonneg := h.offset_nonneg
  have hpos : (0 : Int) < numBytes := by exact_mod_cast numBytes.pos
  constructor
  · simp only [Session.step, hoffset]
    omega
  · simp [Session.step, hspills, hresult, hptr, hoffset]
  · simp only [Session.step, hspills, if_false, List.pairwise_cons]
    refine ⟨fun r hr => ?_, h.ordered⟩
    obtain ⟨newest, older, hregions⟩ := List.exists_cons_of_ne_nil (List.ne_nil_of_mem hr)
    have hend := h.end_le hregions r hr
    have hstart := h.newest newest (by simp [hregions])
    have hsmall := hgrow newest (by simp [hregions])
    omega
  · simp only [Session.step, hspills, if_false, List.forall_mem_cons]
    exact ⟨hpos, h.size_pos⟩
  · simp only [Session.step, hspills, if_false, List.forall_mem_cons, Region.Inside, hptr, hsize,
      hresult]
    exact ⟨by omega, h.inside⟩

/-- The step rule of sessions: fitting requests, and only those, keep the regions good. -/
theorem stepRule_fits : Runs.StepRule Session.step Stacked RegionsGood Fits where
  good_of_inv := fun _ h => h.regionsGood
  preserved := by
    intro s call h hfits
    cases call with
    | allocateBytes numBytes fresh =>
        rcases hfits with hspills | ⟨hroom, hgrow⟩
        · exact h.of_spills fresh hspills
        · by_cases hspills : s.workspace.Spills numBytes
          · exact h.of_spills fresh hspills
          · exact h.of_fits fresh hspills hroom hgrow
    | scopeIn fresh =>
        refine stacked_of_nil ?_
        rw [scopeIn_offset]
        exact h.offset_nonneg
    | scopeOut => exact stacked_of_nil (le_refl 0)
  necessary := by
    intro s call h hgood
    cases call with
    | allocateBytes numBytes fresh =>
        by_cases hspills : s.workspace.Spills numBytes
        · exact Or.inl hspills
        · obtain ⟨hptr, hsize, -, hresult⟩ := allocateBytes_of_not_spills fresh hspills
          have hinside := hgood.inside
          have hdisjoint := hgood.disjoint
          simp only [Session.step, hspills, if_false, List.forall_mem_cons, Region.Inside, hptr,
            hsize, hresult, List.pairwise_cons] at hinside hdisjoint
          refine Or.inr ⟨by omega, fun r hr => ?_⟩
          have hmem : r ∈ s.regions := List.mem_of_mem_head? hr
          have hstart := h.newest r hr
          have hpos : (0 : Int) < numBytes := by exact_mod_cast numBytes.pos
          -- the new region starts behind the newest one, so it can only lie above it
          rcases hdisjoint.1 r hmem with hbelow | habove
          · simp only at hbelow
            omega
          · simp only at habove
            omega
    | scopeIn fresh => trivial
    | scopeOut => trivial

/-- In every run, the regions are disjoint and inside the block in all states reached
exactly when every request fits. -/
theorem regionsGood_iff_fits (initialSize fresh : Int) (calls : List Call) :
    (∀ s ∈ Runs.trace Session.step (Session.start initialSize fresh) calls, RegionsGood s) ↔
      Runs.Meets Session.step Fits (Session.start initialSize fresh) calls :=
  stepRule_fits.forall_trace_iff (stacked_of_nil (le_refl 0))

/-- A request for a whole block of 128 bytes is served behind the end of the block. -/
theorem not_regionsGood_always :
    ¬ ∀ (initialSize fresh : Int) (calls : List Call),
      ∀ s ∈ Runs.trace Session.step (Session.start initialSize fresh) calls, RegionsGood s := by
  intro h
  have hgood := h 128 0 [.allocateBytes 128 0]
    ((Session.start 128 0).step (.allocateBytes 128 0)) (by simp [Runs.trace])
  have hinside := hgood.inside ⟨128, 128⟩ (by decide)
  exact absurd hinside.2 (by decide)

end Memory
end LibND4J
