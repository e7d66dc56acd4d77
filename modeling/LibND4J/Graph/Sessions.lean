import LibND4J.Library.OrderedMap
import LibND4J.Library.Mutexes

/-!
# Session-local storage

`SessionLocalStorage` gives each thread a clone of one variable space.  One map takes a
thread to its session and another one a session to its clone; both are guarded by a mutex
that is locked by hand, and a call takes it up to twice.  Any number of threads run calls,
and the steps of their calls, each a section of the mutex, interleave in any order.

Main results:

- Theorem `localVariableSpace_of_free`: the space a thread is led to while the mutex is
  free.
- Theorem `numberOfSessions_of_held`: once the mutex is held, no call returns.
-/

namespace LibND4J
namespace Graph

open Std OrderedMap Mutexes

abbrev ThreadId := Nat

/-- Pointer to a variable space. -/
abbrev SpaceRef := Nat

/-- The maps behind the mutex; `nextSpace` is the object that the next clone is made in. -/
structure SessionMaps where
  threadSession : TreeMap ThreadId Int
  threadVariableSpace : TreeMap Int SpaceRef
  nextSpace : SpaceRef

namespace SessionMaps

/-- The section of `numberOfSessions`. -/
def numberOfSessions (m : SessionMaps) : SessionMaps × Option Nat :=
  (m, some m.threadSession.size)

/-- The section of `localVariableSpace(id)`; `none` is the exception of `at`. -/
def localVariableSpaceOf (id : Int) (m : SessionMaps) : SessionMaps × Option SpaceRef :=
  (m, m.threadVariableSpace[id]?)

/-- The section of `getSessionId`. -/
def getSessionId (tid : ThreadId) (m : SessionMaps) : SessionMaps × Option Int :=
  let read := subscript m.threadSession tid 0
  ({ m with threadSession := read.1 }, some read.2)

/-- The section of `endSession(id)`. -/
def endSessionOf (id : Int) (m : SessionMaps) : SessionMaps × Option Unit :=
  ({ m with threadVariableSpace := m.threadVariableSpace.erase id }, some ())

/-- The first section of `endSession()`. -/
def forgetSession (tid : ThreadId) (m : SessionMaps) : SessionMaps × Option Int :=
  let read := subscript m.threadSession tid 0
  ({ m with threadSession := read.1.erase tid }, some read.2)

/-- The section of `startSession`. -/
def startSession (tid : ThreadId) (ntid : Int) (m : SessionMaps) :
    SessionMaps × Option Unit :=
  ({ threadSession := m.threadSession.insert tid ntid
     threadVariableSpace := m.threadVariableSpace.insert ntid m.nextSpace
     nextSpace := m.nextSpace + 1 }, some ())

end SessionMaps

/-- Where a thread is in a call that takes more than one step. -/
inductive Pending
  | idle
  | starting (ntid : Int)
  | ending (ntid : Int)
  | looking (ntid : Int)
deriving Repr, DecidableEq

structure SessionLocalStorage where
  sessionCounter : Int
  maps : Guarded SessionMaps
  pending : ThreadId → Pending

namespace SessionLocalStorage

def initial : SessionLocalStorage where
  sessionCounter := 1
  maps := { state := { threadSession := ∅, threadVariableSpace := ∅, nextSpace := 0 }
            held := false }
  pending := fun _ => .idle

/-- A thread runs a section and goes on; it waits when the mutex is held. -/
def enter {α : Type} (s : SessionLocalStorage) (tid : ThreadId)
    (body : SessionMaps → SessionMaps × Option α) (next : α → Pending) : SessionLocalStorage :=
  match critical body s.maps with
  | (maps, .returned a) =>
      { s with maps := maps, pending := Function.update s.pending tid (next a) }
  | (maps, .threw) => { s with maps := maps, pending := Function.update s.pending tid .idle }
  | (_, .blocked) => s

/-- A step of a thread: the first section of a call, or the next one of the call it is in.
The session counter is atomic and needs no section. -/
inductive Event
  | startSession (tid : ThreadId)
  | endSession (tid : ThreadId)
  | endSessionOf (tid : ThreadId) (id : Int)
  | localVariableSpace (tid : ThreadId)
  | localVariableSpaceOf (tid : ThreadId) (id : Int)
  | resume (tid : ThreadId)
deriving Repr, DecidableEq

/-- The first step of a call, by a thread that is in no call. -/
def begin (s : SessionLocalStorage) : Event → SessionLocalStorage
  | .startSession tid =>
      { s with
        sessionCounter := s.sessionCounter + 1
        pending := Function.update s.pending tid (.starting s.sessionCounter) }
  | .endSession tid => s.enter tid (SessionMaps.forgetSession tid) .ending
  | .endSessionOf tid id => s.enter tid (SessionMaps.endSessionOf id) fun _ => .idle
  | .localVariableSpace tid => s.enter tid (SessionMaps.getSessionId tid) .looking
  | .localVariableSpaceOf tid id => s.enter tid (SessionMaps.localVariableSpaceOf id) fun _ => .idle
  | .resume _ => s

/-- The next step of the call that a thread is in. -/
def proceed (s : SessionLocalStorage) (tid : ThreadId) : SessionLocalStorage :=
  match s.pending tid with
  | .idle => s
  | .starting ntid => s.enter tid (SessionMaps.startSession tid ntid) fun _ => .idle
  | .ending ntid => s.enter tid (SessionMaps.endSessionOf ntid) fun _ => .idle
  | .looking ntid => s.enter tid (SessionMaps.localVariableSpaceOf ntid) fun _ => .idle

def Event.thread : Event → ThreadId
  | .startSession tid | .endSession tid | .endSessionOf tid _ | .localVariableSpace tid
  | .localVariableSpaceOf tid _ | .resume tid => tid

/-- One step; a thread in a call starts no other call. -/
def step (s : SessionLocalStorage) (e : Event) : SessionLocalStorage :=
  match e with
  | .resume tid => s.proceed tid
  | e => if s.pending e.thread = .idle then s.begin e else s

def numberOfSessions (s : SessionLocalStorage) : Outcome Nat :=
  (critical SessionMaps.numberOfSessions s.maps).2

/-- `localVariableSpace(id)`. -/
def localVariableSpaceOf (s : SessionLocalStorage) (id : Int) : Outcome SpaceRef :=
  (critical (SessionMaps.localVariableSpaceOf id) s.maps).2

/-- `localVariableSpace()`, run to its end by one thread without a step of another. -/
def localVariableSpace (s : SessionLocalStorage) (tid : ThreadId) : Outcome SpaceRef :=
  match critical (SessionMaps.getSessionId tid) s.maps with
  | (maps, .returned ntid) => (critical (SessionMaps.localVariableSpaceOf ntid) maps).2
  | (_, .threw) => .threw
  | (_, .blocked) => .blocked

/-! ## Free mutexes -/

/-- While the mutex is held no session is counted. -/
theorem numberOfSessions_of_held {s : SessionLocalStorage} (h : s.maps.held = true) :
    s.numberOfSessions = .blocked := by
  rw [numberOfSessions, critical_of_held _ h]

/-- The space a lookup by id returns, or its exception. -/
def lookupOutcome (space : Option SpaceRef) : Outcome SpaceRef :=
  match space with
  | some space => .returned space
  | none => .threw

section Free

variable {s : SessionLocalStorage} (hfree : s.maps.held = false)

include hfree

theorem numberOfSessions_of_free :
    s.numberOfSessions = .returned s.maps.state.threadSession.size := by
  rw [numberOfSessions, critical_of_returns hfree rfl]

theorem localVariableSpaceOf_of_free (id : Int) :
    s.localVariableSpaceOf id = lookupOutcome s.maps.state.threadVariableSpace[id]? := by
  cases hid : s.maps.state.threadVariableSpace[id]? with
  | some space =>
      rw [localVariableSpaceOf, critical_of_returns hfree (Prod.ext rfl hid)]
      rfl
  | none =>
      rw [localVariableSpaceOf, critical_of_throws hfree (Prod.ext rfl hid)]
      rfl

theorem localVariableSpace_of_free (tid : ThreadId) :
    s.localVariableSpace tid = lookupOutcome
      s.maps.state.threadVariableSpace[s.maps.state.threadSession[tid]?.getD 0]? := by
  rw [localVariableSpace, critical_of_returns hfree rfl]
  exact localVariableSpaceOf_of_free (s := { s with maps := _ }) rfl _

theorem enter_of_returns {α : Type} {body : SessionMaps → SessionMaps × Option α}
    {m : SessionMaps} {a : α} (h : body s.maps.state = (m, some a)) (tid : ThreadId)
    (next : α → Pending) :
    s.enter tid body next = { s with
      maps := { state := m, held := false }
      pending := Function.update s.pending tid (next a) } := by
  rw [enter, critical_of_returns hfree h]

theorem enter_of_throws {α : Type} {body : SessionMaps → SessionMaps × Option α}
    {m : SessionMaps} (h : body s.maps.state = (m, none)) (tid : ThreadId)
    (next : α → Pending) :
    s.enter tid body next = { s with
      maps := { state := m, held := true }
      pending := Function.update s.pending tid .idle } := by
  rw [enter, critical_of_throws hfree h]

end Free

end SessionLocalStorage

end Graph
end LibND4J
