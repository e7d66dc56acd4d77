import LibND4J.Graph.VariableSpace
import LibND4J.Graph.Sessions

/-!
# Failed lookups

`getVariable(int)` and `localVariableSpace(id)` lock a mutex by hand, read a map with
`at`, and unlock.  For an absent id `at` throws, and the line that unlocks is never
reached.

Main results:

- Theorem `putVariableLocked_of_free` and `putVariablePairLocked_of_free`: while the
  mutex is free the locked puts are those of `VariableSpace`.
- Theorem `lookups_not_unnoticed`: a failed lookup never leaves the state as it was.
- Theorem `not_unnoticed_always`: after a failed lookup in an empty space no variable can be
  put any more.
-/

namespace LibND4J
namespace Graph

open Std Mutexes

namespace VariableSpace

/-! ## A variable space and its mutex -/

/-- `getVariable(int)`. -/
def getVariableLocked (g : Guarded VariableSpace) (id : Int) :
    Guarded VariableSpace × Outcome VariableRef :=
  critical (fun s => (s, s.getVariable id)) g

/-- `getVariable(pair)`, which takes the mutex when it falls back to the id. -/
def getVariablePairLocked (g : Guarded VariableSpace) (pair : Int × Int) :
    Guarded VariableSpace × Outcome (Option VariableRef) :=
  if g.state.paired.contains pair then
    (g, .returned g.state.paired[pair]?)
  else if g.state.hasVariable pair.1 ∧ pair.2 = 0 then
    let (g, v) := getVariableLocked g pair.1
    (g, v.map some)
  else
    (g, .returned none)

/-- `silentPutVariable`. -/
def silentPutVariableLocked (g : Guarded VariableSpace) (pair : Int × Int) (v : VariableRef) :
    Guarded VariableSpace × Outcome Unit :=
  critical (fun s => (s.silentPutVariable pair v, some ())) g

/-- `putVariable(int, Variable*)`.  A present id is updated without the mutex. -/
def putVariableLocked (g : Guarded VariableSpace) (id : Int) (v : VariableRef) :
    Guarded VariableSpace × Outcome Unit :=
  if g.state.hasVariable id then
    ({ g with state := g.state.updateVariable id v },
      if (g.state.getVariable id).isSome then .returned () else .threw)
  else
    andThen (critical (fun s => (((s.adopt id v).noteName v).listVariable id v, some ())) g)
      fun g _ =>
        if g.state.hasVariablePair (id, 0) then
          (g, .returned ())
        else
          andThen (silentPutVariableLocked g (id, 0) v) fun g _ =>
            ({ g with state := g.state.notePlaceholder v }, .returned ())

/-- `putVariable(pair, Variable*)`. -/
def putVariablePairLocked (g : Guarded VariableSpace) (pair : Int × Int) (v : VariableRef) :
    Guarded VariableSpace × Outcome Unit :=
  andThen (silentPutVariableLocked g pair v) fun g _ =>
    let g := { g with state := g.state.notePlaceholder v }
    if pair.2 = 0 ∧ ¬ g.state.hasVariable pair.1 then
      putVariableLocked g pair.1 v
    else
      critical (fun s => ({ s with handles := s.handles ++ [v] }, some ()))
        { g with state := g.state.noteName v }

variable {id : Int}

variable (s : VariableSpace)

/-- While the mutex is free the put of a new id is `putVariable`. -/
theorem putVariableLocked_of_free (hnew : ¬ s.hasVariable id) (v : VariableRef) :
    putVariableLocked { state := s, held := false } id v =
      ({ state := s.putVariable id v, held := false }, .returned ()) := by
  rw [putVariableLocked, if_neg hnew, critical_of_returns rfl rfl, andThen_returned,
    putVariable, if_neg hnew, addVariable, pairUp]
  split
  · rfl
  · rw [silentPutVariableLocked, critical_of_returns rfl rfl, andThen_returned]

/-- While the mutex is free the put of a pair is `putVariablePair`. -/
theorem putVariablePairLocked_of_free (pair : Int × Int) (v : VariableRef) :
    putVariablePairLocked { state := s, held := false } pair v =
      ({ state := s.putVariablePair pair v, held := false }, .returned ()) := by
  unfold putVariablePairLocked putVariablePair
  rw [silentPutVariableLocked, critical_of_returns rfl rfl, andThen_returned]
  simp only
  split
  · rename_i hbranch
    exact putVariableLocked_of_free _ hbranch.2 v
  · rw [critical_of_returns rfl rfl]

/-! ## Calls -/

inductive Call
  | getVariable (id : Int)
  | getVariablePair (pair : Int × Int)
  | hasVariable (id : Int)
  | hasVariablePair (pair : Int × Int)
  | putVariable (id : Int) (v : VariableRef)
  | putVariablePair (pair : Int × Int) (v : VariableRef)
deriving Repr, DecidableEq

/-- What the caller gets. -/
inductive Answer
  | variable (v : Option VariableRef)
  | present (b : Bool)
  | done
deriving Repr, DecidableEq

/-- Run one call to its end. -/
def runCall (g : Guarded VariableSpace) : Call → Guarded VariableSpace × Outcome Answer
  | .getVariable id =>
      let (g, v) := getVariableLocked g id
      (g, v.map fun v => .variable (some v))
  | .getVariablePair pair =>
      let (g, v) := getVariablePairLocked g pair
      (g, v.map .variable)
  | .hasVariable id => (g, .returned (.present (g.state.hasVariable id)))
  | .hasVariablePair pair => (g, .returned (.present (g.state.hasVariablePair pair)))
  | .putVariable id v =>
      let (g, r) := putVariableLocked g id v
      (g, r.map fun _ => .done)
  | .putVariablePair pair v =>
      let (g, r) := putVariablePairLocked g pair v
      (g, r.map fun _ => .done)

/-- A failed lookup leaves the maps as they were, and the mutex held. -/
theorem runCall_getVariable_of_absent (habsent : s.getVariable id = none) :
    runCall { state := s, held := false } (.getVariable id) =
      ({ state := s, held := true }, .threw) := by
  rw [runCall, getVariableLocked, critical_of_throws rfl (Prod.ext rfl habsent)]
  rfl

/-- A failed lookup is noticed. -/
theorem not_unnoticed_getVariable (habsent : s.getVariable id = none) :
    ¬ Unnoticed runCall { state := s, held := false } (.getVariable id) := by
  apply not_unnoticed_of_ne
  rw [runCall_getVariable_of_absent s habsent]
  intro heq
  exact absurd (congrArg Guarded.held heq) Bool.noConfusion

end VariableSpace

namespace SessionLocalStorage

/-- A call that a thread runs to its end without a step of another. -/
inductive Call
  | startSession (tid : ThreadId)
  | endSession (tid : ThreadId)
  | endSessionOf (id : Int)
  | localVariableSpace (tid : ThreadId)
  | localVariableSpaceOf (id : Int)
  | numberOfSessions
deriving Repr, DecidableEq

inductive Answer
  | session (id : Int)
  | space (space : SpaceRef)
  | count (n : Nat)
  | done
deriving Repr, DecidableEq

/-- Run the sections of a call, one after the other. -/
def runSections (g : Guarded SessionMaps) (sessionCounter : Int) :
    Call → Guarded SessionMaps × Outcome Answer
  | .startSession tid =>
      andThen (critical (SessionMaps.startSession tid sessionCounter) g) fun g _ =>
        (g, .returned (.session sessionCounter))
  | .endSession tid =>
      andThen (critical (SessionMaps.forgetSession tid) g) fun g ntid =>
        andThen (critical (SessionMaps.endSessionOf ntid) g) fun g _ => (g, .returned .done)
  | .endSessionOf id =>
      andThen (critical (SessionMaps.endSessionOf id) g) fun g _ => (g, .returned .done)
  | .localVariableSpace tid =>
      andThen (critical (SessionMaps.getSessionId tid) g) fun g ntid =>
        andThen (critical (SessionMaps.localVariableSpaceOf ntid) g) fun g space =>
          (g, .returned (.space space))
  | .localVariableSpaceOf id =>
      andThen (critical (SessionMaps.localVariableSpaceOf id) g) fun g space =>
        (g, .returned (.space space))
  | .numberOfSessions =>
      andThen (critical SessionMaps.numberOfSessions g) fun g n => (g, .returned (.count n))

/-- Run one call to its end; the counter is taken from before the mutex is asked for. -/
def runCall (s : SessionLocalStorage) (c : Call) : SessionLocalStorage × Outcome Answer :=
  let (maps, answer) := runSections s.maps s.sessionCounter c
  match c with
  | .startSession _ => ({ s with sessionCounter := s.sessionCounter + 1, maps := maps }, answer)
  | _ => ({ s with maps := maps }, answer)

/-- A failed lookup leaves the maps as they were, and the mutex held. -/
theorem runCall_localVariableSpaceOf_of_absent {s : SessionLocalStorage}
    (hfree : s.maps.held = false) {id : Int}
    (habsent : s.maps.state.threadVariableSpace[id]? = none) :
    s.runCall (.localVariableSpaceOf id) =
      ({ s with maps := { s.maps with held := true } }, .threw) := by
  rw [runCall, runSections, critical_of_throws hfree (Prod.ext rfl habsent)]
  rfl

/-- A failed lookup is noticed. -/
theorem not_unnoticed_localVariableSpaceOf {s : SessionLocalStorage} (hfree : s.maps.held = false)
    {id : Int} (habsent : s.maps.state.threadVariableSpace[id]? = none) :
    ¬ Unnoticed runCall s (.localVariableSpaceOf id) := by
  apply not_unnoticed_of_ne
  rw [runCall_localVariableSpaceOf_of_absent hfree habsent]
  intro heq
  have hheld := congrArg (fun s => s.maps.held) heq
  exact absurd (hheld.trans hfree) Bool.noConfusion

end SessionLocalStorage

/-- No failed lookup, in a variable space or in a session-local storage, goes unnoticed. -/
theorem lookups_not_unnoticed (s : VariableSpace) (storage : SessionLocalStorage) (id : Int) :
    (s.getVariable id = none →
      ¬ Unnoticed VariableSpace.runCall { state := s, held := false } (.getVariable id)) ∧
    (storage.maps.held = false → storage.maps.state.threadVariableSpace[id]? = none →
      ¬ Unnoticed SessionLocalStorage.runCall storage (.localVariableSpaceOf id)) :=
  ⟨fun habsent => s.not_unnoticed_getVariable habsent,
    fun hfree habsent =>
      SessionLocalStorage.not_unnoticed_localVariableSpaceOf hfree habsent⟩

/-- An empty space that is asked for variable 5, and a storage without sessions that is asked
for the space of session 5. -/
theorem lookups_not_unnoticed_empty :
    ¬ Unnoticed VariableSpace.runCall
      { state := VariableSpace.empty fun _ => .create none "", held := false }
      (.getVariable 5) ∧
    ¬ Unnoticed SessionLocalStorage.runCall .initial (.localVariableSpaceOf 5) := by
  obtain ⟨hspace, hstorage⟩ := lookups_not_unnoticed
    (VariableSpace.empty fun _ => .create none "") .initial 5
  exact ⟨hspace (by decide), hstorage rfl (by decide)⟩

/-- After a failed lookup in an empty space no variable can be put any more. -/
theorem not_unnoticed_always :
    ¬ ∀ (s : VariableSpace) (id : Int), s.getVariable id = none →
      Unnoticed VariableSpace.runCall { state := s, held := false } (.getVariable id) := by
  intro h
  obtain ⟨-, hlater⟩ := h (VariableSpace.empty fun _ => .create none "") 5 (by decide)
  have hput := hlater [.putVariablePair (1, 0) 3]
  exact absurd hput (by decide)

end Graph
end LibND4J
