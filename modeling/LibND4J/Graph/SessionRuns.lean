import LibND4J.Graph.Sessions
import LibND4J.Library.Runs
import Mathlib.Data.List.Nodup

/-!
# Runs of sessions

The sessions that threads have started, live in or have ended are recorded beside a
session-local storage, whatever its maps say, and compared with what its calls return.

Main results:

- Theorem `orderly_iff_meets`: over any interleaving the sessions are counted, kept
  apart and forgotten as they should be, exactly when no thread starts a session while it has
  one or looks up a space while it has none, no session is ended by its id before its thread
  ended it, and no space is looked up by an id that has none.
- Theorem `not_orderly_always`: a thread that starts twice is counted once.
-/

namespace LibND4J
namespace Graph

open Std OrderedMap Mutexes

namespace SessionLocalStorage

/-! ## The sessions of a run -/

/-- A session is live until its end begins; `endSession()` ends it in two sections. -/
inductive Phase
  | live
  | ending (tid : ThreadId)
  | ended
deriving Repr, DecidableEq

structure Session where
  owner : ThreadId
  id : Int
  space : SpaceRef
deriving Repr, DecidableEq

/-- The sessions started so far, the newest first, and what became of them. -/
structure History where
  sessions : List Session
  phase : Int → Phase

namespace History

def initial : History where
  sessions := []
  phase := fun _ => .live

/-- The sessions started and not ended. -/
def live (h : History) : List Session :=
  h.sessions.filter fun x => h.phase x.id = .live

/-- The latest live session of a thread. -/
def latest (h : History) (tid : ThreadId) : Option Session :=
  h.sessions.find? fun x => x.owner = tid ∧ h.phase x.id = .live

def start (h : History) (x : Session) : History where
  sessions := x :: h.sessions
  phase := Function.update h.phase x.id .live

/-- `endSession()` ends the latest live session of its thread. -/
def beginEnd (h : History) (tid : ThreadId) : History :=
  match h.latest tid with
  | none => h
  | some x => { h with phase := Function.update h.phase x.id (.ending tid) }

def finishEnd (h : History) (tid : ThreadId) : History :=
  { h with phase := fun id => if h.phase id = .ending tid then .ended else h.phase id }

def endById (h : History) (id : Int) : History :=
  { h with phase := Function.update h.phase id .ended }

/-- What a step does to the sessions; a step that waits does nothing. -/
def record (h : History) (s : SessionLocalStorage) (e : Event) : History :=
  if s.maps.held then
    h
  else
    match e with
    | .endSession tid => if s.pending tid = .idle then h.beginEnd tid else h
    | .endSessionOf tid id => if s.pending tid = .idle then h.endById id else h
    | .resume tid =>
        match s.pending tid with
        | .starting ntid => h.start ⟨tid, ntid, s.maps.state.nextSpace⟩
        | .ending _ => h.finishEnd tid
        | _ => h
    | _ => h

end History

/-- A storage together with the sessions of its run. -/
abbrev Recorded := SessionLocalStorage × History

def recordedStep (p : Recorded) (e : Event) : Recorded :=
  (p.1.step e, p.2.record p.1 e)

/-- The storage counts the live sessions, leads each thread to the clone of its latest one,
also in the middle of a call, keeps live sessions apart, and does not find the space of an
ended session. -/
structure Orderly (p : Recorded) : Prop where
  counted : p.1.numberOfSessions = .returned p.2.live.length
  own_space : ∀ tid x, p.2.latest tid = some x → p.1.localVariableSpace tid = .returned x.space
  looking : ∀ tid ntid, p.1.pending tid = .looking ntid →
    ∃ x, p.2.latest tid = some x ∧ p.1.localVariableSpaceOf ntid = .returned x.space
  apart : (p.2.live.map Session.space).Nodup
  forgotten : ∀ x ∈ p.2.sessions, p.2.phase x.id = .ended →
    (∀ id, p.1.localVariableSpaceOf id ≠ .returned x.space) ∧
      ∀ tid, p.1.localVariableSpace tid ≠ .returned x.space

/-- A thread that starts has no live session, a thread that looks its space up has one, and
an id that is used is that of a session whose own thread has begun to end it, or, for a
lookup, of one that has not ended. -/
def Admissible (p : Recorded) : Event → Prop
  | .startSession _ | .endSession _ => True
  | .endSessionOf tid id => p.1.pending tid = .idle → ∀ x ∈ p.2.live, x.id ≠ id
  | .localVariableSpace tid => p.1.pending tid = .idle → (p.2.latest tid).isSome
  | .localVariableSpaceOf tid id =>
      p.1.pending tid = .idle → ∃ x ∈ p.2.sessions, x.id = id ∧ p.2.phase id ≠ .ended
  | .resume tid => ∀ ntid, p.1.pending tid = .starting ntid → p.2.latest tid = none

/-! ## The invariant -/

/-- The maps hold the live sessions of the threads, and the spaces of all sessions that have
not ended. -/
structure KeptMaps (maps : SessionMaps) (h : History) : Prop where
  ids : (h.sessions.map Session.id).Nodup
  spaces : (h.sessions.map Session.space).Nodup
  space_lt : ∀ x ∈ h.sessions, x.space < maps.nextSpace
  filed : ∀ (id : Int) (space : SpaceRef), maps.threadVariableSpace[id]? = some space ↔
    ∃ x ∈ h.sessions, x.id = id ∧ x.space = space ∧ h.phase id ≠ .ended
  mapped : ∀ (tid : ThreadId) (id : Int), maps.threadSession[tid]? = some id ↔
    ∃ x ∈ h.sessions, x.owner = tid ∧ x.id = id ∧ h.phase id = .live

/-- Each thread in a call is where its sessions are. -/
structure KeptCalls (sessionCounter : Int) (pending : ThreadId → Pending) (h : History) :
    Prop where
  counter_pos : 0 < sessionCounter
  id_range : ∀ x ∈ h.sessions, 0 < x.id ∧ x.id < sessionCounter
  starting : ∀ tid ntid, pending tid = .starting ntid →
    (0 < ntid ∧ ntid < sessionCounter) ∧ ∀ x ∈ h.sessions, x.id ≠ ntid
  starting_inj : ∀ tid tid' ntid, pending tid = .starting ntid →
    pending tid' = .starting ntid → tid = tid'
  ending : ∀ tid ntid, pending tid = .ending ntid →
    ∀ x ∈ h.sessions, x.id = ntid → h.phase ntid = .ending tid ∨ h.phase ntid = .ended
  ending_known : ∀ tid ntid, pending tid = .ending ntid →
    ntid = 0 ∨ ∃ x ∈ h.sessions, x.id = ntid
  closing : ∀ tid, ∀ x ∈ h.sessions, h.phase x.id = .ending tid → pending tid = .ending x.id
  looking : ∀ tid ntid, pending tid = .looking ntid →
    ∃ x ∈ h.sessions, x.owner = tid ∧ x.id = ntid ∧ h.phase ntid = .live

/-- The invariant of the runs that meet the condition. -/
structure Kept (p : Recorded) : Prop where
  free : p.1.maps.held = false
  maps : KeptMaps p.1.maps.state p.2
  calls : KeptCalls p.1.sessionCounter p.1.pending p.2

theorem kept_initial : Kept (initial, History.initial) where
  free := rfl
  maps := {
    ids := List.nodup_nil
    spaces := List.nodup_nil
    space_lt := by simp [History.initial]
    filed := by simp [initial, History.initial]
    mapped := by simp [initial, History.initial] }
  calls := {
    counter_pos := by decide
    id_range := by simp [History.initial]
    starting := by simp [initial]
    starting_inj := by simp [initial]
    ending := by simp [initial]
    ending_known := by simp [initial]
    closing := by simp [History.initial]
    looking := by simp [initial] }

section Maps

variable {maps : SessionMaps} {h : History} {x : Session} {tid : ThreadId}

theorem History.mem_live : x ∈ h.live ↔ x ∈ h.sessions ∧ h.phase x.id = .live := by
  rw [live, List.mem_filter, decide_eq_true_eq]

/-- Ids name sessions. -/
theorem KeptMaps.eq_of_id (hk : KeptMaps maps h) {y : Session} (hx : x ∈ h.sessions)
    (hy : y ∈ h.sessions) (hid : x.id = y.id) : x = y :=
  List.inj_on_of_nodup_map hk.ids hx hy hid

/-- A thread has at most one live session. -/
theorem KeptMaps.eq_of_owner (hk : KeptMaps maps h) {y : Session} (hx : x ∈ h.live)
    (hy : y ∈ h.live) (howner : x.owner = y.owner) : x = y := by
  obtain ⟨hx, hxlive⟩ := History.mem_live.mp hx
  obtain ⟨hy, hylive⟩ := History.mem_live.mp hy
  have hmapx := (hk.mapped y.owner x.id).mpr ⟨x, hx, howner, rfl, hxlive⟩
  have hmapy := (hk.mapped y.owner y.id).mpr ⟨y, hy, rfl, rfl, hylive⟩
  exact hk.eq_of_id hx hy (Option.some.inj (hmapx.symm.trans hmapy))

theorem History.latest_spec (hlatest : h.latest tid = some x) :
    x ∈ h.sessions ∧ x.owner = tid ∧ h.phase x.id = .live := by
  have hfound := List.find?_some hlatest
  rw [decide_eq_true_eq] at hfound
  exact ⟨List.mem_of_find?_eq_some hlatest, hfound⟩

theorem History.latest_isSome_iff :
    (h.latest tid).isSome ↔ ∃ x ∈ h.sessions, x.owner = tid ∧ h.phase x.id = .live := by
  rw [latest, List.find?_isSome]
  simp only [decide_eq_true_eq]

theorem KeptMaps.latest_eq_some_iff (hk : KeptMaps maps h) :
    h.latest tid = some x ↔ x ∈ h.sessions ∧ x.owner = tid ∧ h.phase x.id = .live := by
  constructor
  · exact History.latest_spec
  · rintro ⟨hx, howner, hlive⟩
    obtain ⟨y, hlatest⟩ :=
      Option.isSome_iff_exists.mp (History.latest_isSome_iff.mpr ⟨x, hx, howner, hlive⟩)
    obtain ⟨hy, hyowner, hylive⟩ := History.latest_spec hlatest
    rw [hlatest, hk.eq_of_owner (History.mem_live.mpr ⟨hy, hylive⟩)
      (History.mem_live.mpr ⟨hx, hlive⟩) (hyowner.trans howner.symm)]

/-- The first map leads a thread to its latest live session. -/
theorem KeptMaps.threadSession_eq (hk : KeptMaps maps h) (tid : ThreadId) :
    maps.threadSession[tid]? = (h.latest tid).map Session.id := by
  apply Option.ext
  intro id
  rw [hk.mapped, Option.map_eq_some_iff]
  constructor
  · rintro ⟨x, hx, howner, rfl, hlive⟩
    exact ⟨x, hk.latest_eq_some_iff.mpr ⟨hx, howner, hlive⟩, rfl⟩
  · rintro ⟨x, hlatest, rfl⟩
    obtain ⟨hx, howner, hlive⟩ := History.latest_spec hlatest
    exact ⟨x, hx, howner, rfl, hlive⟩

/-- The first map has an entry for each live session. -/
theorem KeptMaps.size_eq (hk : KeptMaps maps h) : maps.threadSession.size = h.live.length := by
  have hnodup : (h.live.map Session.owner).Nodup :=
    List.Nodup.map_on (fun x hx y hy howner => hk.eq_of_owner hx hy howner)
      (hk.ids.of_map.filter _)
  rw [← List.length_map Session.owner]
  apply size_eq_length hnodup
  intro tid
  rw [hk.threadSession_eq, Option.isSome_map, History.latest_isSome_iff, List.mem_map]
  constructor
  · rintro ⟨x, hx, howner, hlive⟩
    exact ⟨x, History.mem_live.mpr ⟨hx, hlive⟩, howner⟩
  · rintro ⟨x, hx, howner⟩
    obtain ⟨hx, hlive⟩ := History.mem_live.mp hx
    exact ⟨x, hx, howner, hlive⟩

theorem History.phase_start_self (h : History) (x : Session) : (h.start x).phase x.id = .live :=
  Function.update_self _ _ _

theorem History.phase_start_of_ne (h : History) {id : Int} (hne : id ≠ x.id) :
    (h.start x).phase id = h.phase id :=
  Function.update_of_ne hne _ _

/-- Only lookups in the maps matter. -/
theorem KeptMaps.congr (hk : KeptMaps maps h) {maps' : SessionMaps}
    (hsession : ∀ tid : ThreadId, maps'.threadSession[tid]? = maps.threadSession[tid]?)
    (hspace : maps'.threadVariableSpace = maps.threadVariableSpace)
    (hnext : maps'.nextSpace = maps.nextSpace) : KeptMaps maps' h where
  ids := hk.ids
  spaces := hk.spaces
  space_lt := fun x hx => hnext ▸ hk.space_lt x hx
  filed := fun id space => by rw [hspace]; exact hk.filed id space
  mapped := fun tid id => by rw [hsession]; exact hk.mapped tid id

/-- A thread without a live session starts one. -/
theorem KeptMaps.start (hk : KeptMaps maps h) {ntid : Int} (hnew : ∀ x ∈ h.sessions, x.id ≠ ntid)
    (hnone : h.latest tid = none) :
    KeptMaps (SessionMaps.startSession tid ntid maps).1
      (h.start ⟨tid, ntid, maps.nextSpace⟩) where
  ids := by
    refine List.nodup_cons.mpr ⟨fun hmem => ?_, hk.ids⟩
    obtain ⟨x, hx, hid⟩ := List.mem_map.mp hmem
    exact hnew x hx hid
  spaces := by
    refine List.nodup_cons.mpr ⟨fun hmem => ?_, hk.spaces⟩
    obtain ⟨x, hx, hspace⟩ := List.mem_map.mp hmem
    exact absurd (hk.space_lt x hx) (by simp [hspace])
  space_lt := by
    intro x hx
    rcases List.mem_cons.mp hx with rfl | hx
    · exact Nat.lt_succ_self _
    · exact Nat.lt_succ_of_lt (hk.space_lt x hx)
  filed := by
    intro id space
    simp only [SessionMaps.startSession, History.start, getElem?_insert_eq,
      List.exists_mem_cons_iff]
    by_cases hid : ntid = id
    · subst hid
      rw [if_pos rfl, Function.update_self]
      constructor
      · intro heq
        exact Or.inl ⟨rfl, Option.some.inj heq, Phase.noConfusion⟩
      · rintro (⟨-, heq, -⟩ | ⟨x, hx, hid, -⟩)
        · exact congrArg some heq
        · exact absurd hid (hnew x hx)
    · rw [if_neg hid, Function.update_of_ne (Ne.symm hid), hk.filed]
      constructor
      · exact Or.inr
      · rintro (⟨heq, -⟩ | hold)
        · exact absurd heq hid
        · exact hold
  mapped := by
    intro t id
    simp only [SessionMaps.startSession, History.start, getElem?_insert_eq,
      List.exists_mem_cons_iff]
    by_cases ht : tid = t
    · subst ht
      rw [if_pos rfl]
      constructor
      · intro heq
        obtain rfl := Option.some.inj heq
        exact Or.inl ⟨rfl, rfl, Function.update_self _ _ _⟩
      · rintro (⟨-, rfl, -⟩ | ⟨x, hx, howner, rfl, hlive⟩)
        · rfl
        · rw [Function.update_of_ne (hnew x hx)] at hlive
          have hsome := History.latest_isSome_iff.mpr ⟨x, hx, howner, hlive⟩
          rw [hnone] at hsome
          exact Bool.noConfusion hsome
    · rw [if_neg ht, hk.mapped]
      constructor
      · rintro ⟨x, hx, howner, rfl, hlive⟩
        rw [Function.update_of_ne (hnew x hx)]
        exact Or.inr ⟨x, hx, howner, rfl, hlive⟩
      · rintro (⟨heq, -⟩ | ⟨x, hx, howner, rfl, hlive⟩)
        · exact absurd heq ht
        · rw [Function.update_of_ne (hnew x hx)] at hlive
          exact ⟨x, hx, howner, rfl, hlive⟩

theorem History.sessions_beginEnd (h : History) (tid : ThreadId) :
    (h.beginEnd tid).sessions = h.sessions := by
  unfold beginEnd
  split <;> rfl

/-- The beginning of an end touches the latest live session of its thread only. -/
theorem KeptMaps.phase_beginEnd (hk : KeptMaps maps h) (hx : x ∈ h.sessions) :
    (h.beginEnd tid).phase x.id =
      if x.owner = tid ∧ h.phase x.id = .live then .ending tid else h.phase x.id := by
  unfold History.beginEnd
  cases hlatest : h.latest tid with
  | none =>
      rw [if_neg]
      rintro ⟨howner, hlive⟩
      have hsome := History.latest_isSome_iff.mpr ⟨x, hx, howner, hlive⟩
      rw [hlatest] at hsome
      exact Bool.noConfusion hsome
  | some y =>
      obtain ⟨hy, hyowner, hylive⟩ := History.latest_spec hlatest
      simp only [Function.update_apply]
      by_cases hid : x.id = y.id
      · obtain rfl := hk.eq_of_id hx hy hid
        rw [if_pos rfl, if_pos ⟨hyowner, hylive⟩]
      · rw [if_neg hid, if_neg]
        rintro ⟨howner, hlive⟩
        have hsome := hk.latest_eq_some_iff.mpr ⟨hx, howner, hlive⟩
        rw [hlatest] at hsome
        exact hid (congrArg Session.id (Option.some.inj hsome)).symm

/-- A thread forgets its session. -/
theorem KeptMaps.beginEnd (hk : KeptMaps maps h) (tid : ThreadId) :
    KeptMaps (SessionMaps.forgetSession tid maps).1 (h.beginEnd tid) where
  ids := by rw [History.sessions_beginEnd]; exact hk.ids
  spaces := by rw [History.sessions_beginEnd]; exact hk.spaces
  space_lt := by rw [History.sessions_beginEnd]; exact hk.space_lt
  filed := by
    intro id space
    rw [History.sessions_beginEnd]
    refine (hk.filed id space).trans (exists_congr fun x => and_congr_right fun hx => ?_)
    refine and_congr_right fun hid => and_congr_right fun _ => ?_
    rw [← hid, hk.phase_beginEnd hx]
    split
    · rename_i hlive
      rw [hlive.2]
      exact ⟨fun _ => Phase.noConfusion, fun _ => Phase.noConfusion⟩
    · rfl
  mapped := by
    intro t id
    rw [History.sessions_beginEnd]
    have hlookup : (SessionMaps.forgetSession tid maps).1.threadSession[t]? =
        if tid = t then none else maps.threadSession[t]? := by
      simp only [SessionMaps.forgetSession, getElem?_erase_eq, getElem?_subscript_eq]
      split
      · rfl
      · rfl
    rw [hlookup]
    constructor
    · intro hsome
      split at hsome
      · exact absurd hsome (Option.some_ne_none id).symm
      · rename_i ht
        obtain ⟨x, hx, howner, rfl, hlive⟩ := (hk.mapped t id).mp hsome
        refine ⟨x, hx, howner, rfl, ?_⟩
        rw [hk.phase_beginEnd hx, if_neg fun hand => ht (hand.1.symm.trans howner), hlive]
    · rintro ⟨x, hx, howner, rfl, hlive⟩
      rw [hk.phase_beginEnd hx] at hlive
      split at hlive
      · exact Phase.noConfusion hlive
      · rename_i hnot
        have ht : ¬ tid = t := fun heq => hnot ⟨howner.trans heq.symm, hlive⟩
        rw [if_neg ht]
        exact (hk.mapped t x.id).mpr ⟨x, hx, howner, rfl, hlive⟩

/-- Erasing the space of a session that is not live. -/
theorem KeptMaps.erase (hk : KeptMaps maps h) {id : Int} {h' : History}
    (hsessions : h'.sessions = h.sessions)
    (hlive : ∀ x ∈ h.sessions, h'.phase x.id = .live ↔ h.phase x.id = .live)
    (hended : ∀ x ∈ h.sessions, h'.phase x.id = .ended ↔ x.id = id ∨ h.phase x.id = .ended) :
    KeptMaps (SessionMaps.endSessionOf id maps).1 h' where
  ids := by rw [hsessions]; exact hk.ids
  spaces := by rw [hsessions]; exact hk.spaces
  space_lt := by rw [hsessions]; exact hk.space_lt
  filed := by
    intro k space
    simp only [SessionMaps.endSessionOf, getElem?_erase_eq]
    rw [hsessions]
    constructor
    · intro hsome
      split at hsome
      · exact absurd hsome (Option.some_ne_none space).symm
      · rename_i hk'
        obtain ⟨x, hx, rfl, hspace, hnot⟩ := (hk.filed k space).mp hsome
        refine ⟨x, hx, rfl, hspace, fun hphase => ?_⟩
        rcases (hended x hx).mp hphase with heq | hold
        · exact hk' heq.symm
        · exact hnot hold
    · rintro ⟨x, hx, rfl, hspace, hnot⟩
      have hne : ¬ id = x.id := fun heq => hnot ((hended x hx).mpr (Or.inl heq.symm))
      rw [if_neg hne, hk.filed]
      exact ⟨x, hx, rfl, hspace, fun hold => hnot ((hended x hx).mpr (Or.inr hold))⟩
  mapped := by
    intro t k
    rw [hsessions]
    refine (hk.mapped t k).trans (exists_congr fun x => and_congr_right fun hx => ?_)
    refine and_congr_right fun _ => and_congr_right fun hid => ?_
    rw [← hid]
    exact (hlive x hx).symm

end Maps

section Calls

variable {sessionCounter : Int} {pending : ThreadId → Pending} {h : History}
  {tid : ThreadId}

variable {next : Pending}

/-- A thread that is at another place than `tid` has gone to is another thread, where it was. -/
theorem at_of_update {t : ThreadId} {place : Pending}
    (h : Function.update pending tid next t = place) (hne : next ≠ place) :
    t ≠ tid ∧ pending t = place := by
  rw [Function.update_apply] at h
  split at h
  · exact absurd h hne
  · rename_i hother
    exact ⟨hother, h⟩

variable (hk : KeptCalls sessionCounter pending h)

include hk

/-- Reserved ids stay apart when a thread goes where it has reserved none. -/
theorem KeptCalls.starting_inj_update (hnext : ∀ ntid, next ≠ .starting ntid) (t t' : ThreadId)
    (ntid : Int) (ht : Function.update pending tid next t = .starting ntid)
    (ht' : Function.update pending tid next t' = .starting ntid) : t = t' :=
  hk.starting_inj t t' ntid (at_of_update ht (hnext ntid)).2 (at_of_update ht' (hnext ntid)).2

/-- A thread that is in no end has no session whose end it has begun. -/
theorem KeptCalls.not_ending (hpending : ∀ ntid, pending tid ≠ .ending ntid) :
    ∀ x ∈ h.sessions, h.phase x.id ≠ .ending tid :=
  fun x hx hphase => hpending x.id (hk.closing tid x hx hphase)

/-- A thread goes to a place that asks nothing of the sessions but its own live one. -/
theorem KeptCalls.moved (hclosed : ∀ x ∈ h.sessions, h.phase x.id ≠ .ending tid)
    (hnext : next = .idle ∨ next = .ending 0 ∨
      ∃ x ∈ h.sessions, x.owner = tid ∧ next = .looking x.id ∧ h.phase x.id = .live) :
    KeptCalls sessionCounter (Function.update pending tid next) h where
  counter_pos := hk.counter_pos
  id_range := hk.id_range
  starting := by
    intro t ntid ht
    rw [Function.update_apply] at ht
    split at ht
    · rcases hnext with rfl | rfl | ⟨x, -, -, rfl, -⟩ <;> exact Pending.noConfusion ht
    · exact hk.starting t ntid ht
  starting_inj := by
    apply hk.starting_inj_update
    intro ntid heq
    rcases hnext with rfl | rfl | ⟨x, -, -, rfl, -⟩ <;> exact Pending.noConfusion heq
  ending := by
    intro t ntid ht x hx hid
    rw [Function.update_apply] at ht
    split at ht
    · rcases hnext with rfl | rfl | ⟨y, -, -, rfl, -⟩
      · exact Pending.noConfusion ht
      · obtain rfl := Pending.ending.inj ht
        exact absurd (hk.id_range x hx).1 (by omega)
      · exact Pending.noConfusion ht
    · exact hk.ending t ntid ht x hx hid
  ending_known := by
    intro t ntid ht
    rw [Function.update_apply] at ht
    split at ht
    · rcases hnext with rfl | rfl | ⟨y, -, -, rfl, -⟩
      · exact Pending.noConfusion ht
      · exact Or.inl (Pending.ending.inj ht).symm
      · exact Pending.noConfusion ht
    · exact hk.ending_known t ntid ht
  closing := by
    intro t x hx hphase
    have hne : t ≠ tid := by
      rintro rfl
      exact hclosed x hx hphase
    rw [Function.update_of_ne hne]
    exact hk.closing t x hx hphase
  looking := by
    intro t ntid ht
    rw [Function.update_apply] at ht
    split at ht
    · rename_i heq
      subst heq
      rcases hnext with rfl | rfl | ⟨x, hx, howner, rfl, hlive⟩
      · exact Pending.noConfusion ht
      · exact Pending.noConfusion ht
      · obtain rfl := Pending.looking.inj ht
        exact ⟨x, hx, howner, rfl, hlive⟩
    · exact hk.looking t ntid ht

/-- A thread reserves the next session id. -/
theorem KeptCalls.reserve (hidle : pending tid = .idle) :
    KeptCalls (sessionCounter + 1) (Function.update pending tid (.starting sessionCounter)) h where
  counter_pos := by
    have := hk.counter_pos
    omega
  id_range := by
    intro x hx
    have := hk.id_range x hx
    omega
  starting := by
    intro t ntid ht
    rw [Function.update_apply] at ht
    split at ht
    · obtain rfl := Pending.starting.inj ht
      refine ⟨⟨hk.counter_pos, by omega⟩, fun x hx hid => ?_⟩
      have := hk.id_range x hx
      omega
    · obtain ⟨hrange, hnew⟩ := hk.starting t ntid ht
      exact ⟨by omega, hnew⟩
  starting_inj := by
    intro t t' ntid ht ht'
    rw [Function.update_apply] at ht ht'
    split at ht
    · obtain rfl := Pending.starting.inj ht
      split at ht'
      · simp_all only
      · have := (hk.starting t' _ ht').1
        omega
    · split at ht'
      · obtain rfl := Pending.starting.inj ht'
        have := (hk.starting t _ ht).1
        omega
      · exact hk.starting_inj t t' ntid ht ht'
  ending := by
    intro t ntid ht
    obtain ⟨-, ht⟩ := at_of_update ht nofun
    exact hk.ending t ntid ht
  ending_known := by
    intro t ntid ht
    obtain ⟨-, ht⟩ := at_of_update ht nofun
    exact hk.ending_known t ntid ht
  closing := by
    intro t x hx hphase
    have hold := hk.closing t x hx hphase
    have hne : t ≠ tid := by
      rintro rfl
      rw [hidle] at hold
      exact Pending.noConfusion hold
    rwa [Function.update_of_ne hne]
  looking := by
    intro t ntid ht
    obtain ⟨-, ht⟩ := at_of_update ht nofun
    exact hk.looking t ntid ht

/-- A reserved id becomes a session. -/
theorem KeptCalls.start {ntid : Int} (hpending : pending tid = .starting ntid) (space : SpaceRef) :
    KeptCalls sessionCounter (Function.update pending tid .idle)
      (h.start ⟨tid, ntid, space⟩) where
  counter_pos := hk.counter_pos
  id_range := by
    intro x hx
    rcases List.mem_cons.mp hx with rfl | hx
    · exact (hk.starting tid ntid hpending).1
    · exact hk.id_range x hx
  starting := by
    intro t n ht
    obtain ⟨hne, ht⟩ := at_of_update ht nofun
    obtain ⟨hrange, hfresh⟩ := hk.starting t n ht
    refine ⟨hrange, fun x hx => ?_⟩
    rcases List.mem_cons.mp hx with rfl | hx
    · rintro rfl
      exact hne (hk.starting_inj t tid _ ht hpending)
    · exact hfresh x hx
  starting_inj := hk.starting_inj_update fun _ => nofun
  ending := by
    intro t n ht x hx hid
    obtain ⟨hrange, hnew⟩ := hk.starting tid ntid hpending
    obtain ⟨-, ht⟩ := at_of_update ht nofun
    rcases List.mem_cons.mp hx with rfl | hx
    · -- an id that is being ended is not a reserved one
      rcases hk.ending_known t n ht with rfl | ⟨y, hy, hyid⟩
      · simp only at hid
        omega
      · exact absurd (hyid.trans hid.symm) (hnew y hy)
    · have hold := hk.ending t n ht x hx hid
      rwa [h.phase_start_of_ne (hid ▸ hnew x hx)]
  ending_known := by
    intro t n ht
    obtain ⟨-, ht⟩ := at_of_update ht nofun
    refine (hk.ending_known t n ht).imp_right ?_
    rintro ⟨x, hx, hid⟩
    exact ⟨x, List.mem_cons_of_mem _ hx, hid⟩
  closing := by
    intro t x hx hphase
    obtain ⟨hrange, hnew⟩ := hk.starting tid ntid hpending
    rcases List.mem_cons.mp hx with rfl | hx
    · rw [h.phase_start_self] at hphase
      exact Phase.noConfusion hphase
    · rw [h.phase_start_of_ne (hnew x hx)] at hphase
      have hold := hk.closing t x hx hphase
      have hne : t ≠ tid := by
        rintro rfl
        rw [hpending] at hold
        exact Pending.noConfusion hold
      rwa [Function.update_of_ne hne]
  looking := by
    intro t n ht
    obtain ⟨hrange, hnew⟩ := hk.starting tid ntid hpending
    obtain ⟨-, ht⟩ := at_of_update ht nofun
    obtain ⟨x, hx, howner, rfl, hlive⟩ := hk.looking t n ht
    refine ⟨x, List.mem_cons_of_mem _ hx, howner, rfl, ?_⟩
    rwa [h.phase_start_of_ne (hnew x hx)]

/-- A thread begins to end its latest live session. -/
theorem KeptCalls.beginEnd {maps : SessionMaps} (hmaps : KeptMaps maps h)
    (hidle : pending tid = .idle) {x : Session} (hlatest : h.latest tid = some x) :
    KeptCalls sessionCounter (Function.update pending tid (.ending x.id)) (h.beginEnd tid) := by
  obtain ⟨hx, howner, hlive⟩ := History.latest_spec hlatest
  have hsame : ∀ y ∈ h.sessions, h.phase y.id ≠ .live ∨ y.owner ≠ tid →
      (h.beginEnd tid).phase y.id = h.phase y.id := by
    intro y hy hnot
    rw [hmaps.phase_beginEnd hy, if_neg]
    rintro ⟨hyowner, hylive⟩
    exact hnot.elim (fun hdead => hdead hylive) fun hother => hother hyowner
  have hself : (h.beginEnd tid).phase x.id = .ending tid := by
    rw [hmaps.phase_beginEnd hx, if_pos ⟨howner, hlive⟩]
  constructor
  · exact hk.counter_pos
  · rw [History.sessions_beginEnd]
    exact hk.id_range
  · intro t n ht
    obtain ⟨-, ht⟩ := at_of_update ht nofun
    rw [History.sessions_beginEnd]
    exact hk.starting t n ht
  · exact hk.starting_inj_update fun _ => nofun
  · intro t n ht y hy hid
    rw [History.sessions_beginEnd] at hy
    rw [Function.update_apply] at ht
    split at ht
    · rename_i heq
      subst heq
      obtain rfl := Pending.ending.inj ht
      exact Or.inl hself
    · have hold := hk.ending t n ht y hy hid
      subst hid
      rw [hsame y hy]
      · exact hold
      · left
        rcases hold with hold | hold <;> rw [hold] <;> exact Phase.noConfusion
  · intro t n ht
    rw [History.sessions_beginEnd]
    rw [Function.update_apply] at ht
    split at ht
    · obtain rfl := Pending.ending.inj ht
      exact Or.inr ⟨x, hx, rfl⟩
    · exact hk.ending_known t n ht
  · intro t y hy hphase
    rw [History.sessions_beginEnd] at hy
    rw [hmaps.phase_beginEnd hy] at hphase
    split at hphase
    · rename_i hyself
      obtain rfl := Phase.ending.inj hphase
      have hyx := hmaps.latest_eq_some_iff.mpr ⟨hy, hyself⟩
      rw [hlatest] at hyx
      rw [Function.update_self, Option.some.inj hyx]
    · have hold := hk.closing t y hy hphase
      have hne : t ≠ tid := by
        rintro rfl
        rw [hidle] at hold
        exact Pending.noConfusion hold
      rwa [Function.update_of_ne hne]
  · intro t n ht
    obtain ⟨hne, ht⟩ := at_of_update ht nofun
    obtain ⟨y, hy, hyowner, rfl, hylive⟩ := hk.looking t n ht
    refine ⟨y, by rwa [History.sessions_beginEnd], hyowner, rfl, ?_⟩
    rw [hsame y hy (Or.inr (hyowner ▸ hne))]
    exact hylive

omit hk

/-- Ending sessions that are not live keeps the live ones. -/
theorem live_iff_of_ended {h' : History} {x : Session}
    (hphase : h'.phase x.id = h.phase x.id ∨ h.phase x.id ≠ .live ∧ h'.phase x.id = .ended) :
    h'.phase x.id = .live ↔ h.phase x.id = .live := by
  rcases hphase with heq | ⟨hnot, hended⟩
  · rw [heq]
  · rw [hended]
    exact ⟨fun hlive => Phase.noConfusion hlive, fun hlive => absurd hlive hnot⟩

/-- Sessions end that no thread relies on. -/
theorem KeptCalls.ended (hk : KeptCalls sessionCounter pending h) {h' : History}
    (hsessions : h'.sessions = h.sessions)
    (hphase : ∀ x ∈ h.sessions, h'.phase x.id = h.phase x.id ∨
      h.phase x.id ≠ .live ∧ h'.phase x.id = .ended) :
    KeptCalls sessionCounter pending h' where
  counter_pos := hk.counter_pos
  id_range := by rw [hsessions]; exact hk.id_range
  starting := by rw [hsessions]; exact hk.starting
  starting_inj := hk.starting_inj
  ending := by
    rw [hsessions]
    intro t n ht x hx hid
    have hold := hk.ending t n ht x hx hid
    subst hid
    rcases hphase x hx with heq | ⟨-, hended⟩
    · rwa [heq]
    · exact Or.inr hended
  ending_known := by rw [hsessions]; exact hk.ending_known
  closing := by
    rw [hsessions]
    intro t x hx hend
    rcases hphase x hx with heq | ⟨-, hended⟩
    · exact hk.closing t x hx (heq ▸ hend)
    · rw [hended] at hend
      exact Phase.noConfusion hend
  looking := by
    rw [hsessions]
    intro t n ht
    obtain ⟨x, hx, howner, rfl, hlive⟩ := hk.looking t n ht
    rcases hphase x hx with heq | ⟨hdead, -⟩
    · exact ⟨x, hx, howner, rfl, heq.trans hlive⟩
    · exact absurd hlive hdead

end Calls

section Invariant

variable {p : Recorded}

/-- The space that a session id leads to. -/
theorem Kept.localVariableSpaceOf_eq_iff (h : Kept p) (id : Int) (space : SpaceRef) :
    p.1.localVariableSpaceOf id = .returned space ↔
      ∃ x ∈ p.2.sessions, x.id = id ∧ x.space = space ∧ p.2.phase id ≠ .ended := by
  rw [localVariableSpaceOf_of_free h.free, ← h.maps.filed]
  cases p.1.maps.state.threadVariableSpace[id]? with
  | none => simp [lookupOutcome]
  | some found => simp [lookupOutcome]

/-- A space that is found belongs to a session that has not ended. -/
theorem Kept.not_found_of_ended (h : Kept p) {x : Session} (hx : x ∈ p.2.sessions)
    (hended : p.2.phase x.id = .ended) (id : Int) :
    p.1.localVariableSpaceOf id ≠ .returned x.space := by
  intro hfound
  obtain ⟨y, hy, rfl, hspace, hnot⟩ := (h.localVariableSpaceOf_eq_iff id x.space).mp hfound
  have hsame : y = x := List.inj_on_of_nodup_map h.maps.spaces hy hx hspace
  exact hnot (hsame ▸ hended)

/-- A live session is found under its id. -/
theorem Kept.localVariableSpaceOf_of_live (h : Kept p) {x : Session} (hx : x ∈ p.2.sessions)
    (hlive : p.2.phase x.id = .live) : p.1.localVariableSpaceOf x.id = .returned x.space := by
  rw [h.localVariableSpaceOf_eq_iff]
  exact ⟨x, hx, rfl, rfl, by rw [hlive]; exact Phase.noConfusion⟩

theorem Kept.orderly (h : Kept p) : Orderly p where
  counted := by rw [numberOfSessions_of_free h.free, h.maps.size_eq]
  own_space := by
    intro tid x hlatest
    obtain ⟨hx, -, hlive⟩ := History.latest_spec hlatest
    rw [localVariableSpace_of_free h.free, h.maps.threadSession_eq, hlatest, Option.map_some,
      Option.getD_some, ← localVariableSpaceOf_of_free h.free]
    exact h.localVariableSpaceOf_of_live hx hlive
  looking := by
    intro tid ntid hpending
    obtain ⟨x, hx, howner, rfl, hlive⟩ := h.calls.looking tid ntid hpending
    exact ⟨x, h.maps.latest_eq_some_iff.mpr ⟨hx, howner, hlive⟩,
      h.localVariableSpaceOf_of_live hx hlive⟩
  apart := h.maps.spaces.sublist (List.filter_sublist.map _)
  forgotten := by
    intro x hx hended
    refine ⟨h.not_found_of_ended hx hended, fun tid => ?_⟩
    rw [localVariableSpace_of_free h.free, ← localVariableSpaceOf_of_free h.free]
    exact h.not_found_of_ended hx hended _

/-! ## Steps -/

theorem Kept.record_eq (h : Kept p) (e : Event) : p.2.record p.1 e =
    match e with
    | .endSession tid => if p.1.pending tid = .idle then p.2.beginEnd tid else p.2
    | .endSessionOf tid id => if p.1.pending tid = .idle then p.2.endById id else p.2
    | .resume tid =>
        match p.1.pending tid with
        | .starting ntid => p.2.start ⟨tid, ntid, p.1.maps.state.nextSpace⟩
        | .ending _ => p.2.finishEnd tid
        | _ => p.2
    | _ => p.2 := by
  unfold History.record
  exact if_neg (by rw [h.free]; exact Bool.false_ne_true)

variable {tid : ThreadId} {id ntid : Int}

theorem Kept.not_ending_of_idle (h : Kept p) (hidle : p.1.pending tid = .idle) :
    ∀ x ∈ p.2.sessions, p.2.phase x.id ≠ .ending tid :=
  h.calls.not_ending fun ntid hending => by rw [hidle] at hending; exact Pending.noConfusion hending

/-- The session id that a thread reads, zero without a live session. -/
theorem Kept.read_eq (h : Kept p) (tid : ThreadId) :
    (subscript p.1.maps.state.threadSession tid 0).2 =
      ((p.2.latest tid).map Session.id).getD 0 := by
  rw [subscript, h.maps.threadSession_eq]

theorem Kept.endSession (h : Kept p) (hidle : p.1.pending tid = .idle) :
    Kept (p.1.begin (.endSession tid), p.2.beginEnd tid) := by
  rw [begin, enter_of_returns h.free rfl]
  refine ⟨rfl, h.maps.beginEnd tid, ?_⟩
  simp only [h.read_eq]
  cases hlatest : p.2.latest tid with
  | none =>
      have hsame : p.2.beginEnd tid = p.2 := by rw [History.beginEnd, hlatest]
      rw [hsame]
      exact h.calls.moved (h.not_ending_of_idle hidle) (Or.inr (Or.inl rfl))
  | some x => exact h.calls.beginEnd h.maps hidle hlatest

theorem Kept.endSessionOf (h : Kept p) (hidle : p.1.pending tid = .idle)
    (hdead : ∀ x ∈ p.2.live, x.id ≠ id) :
    Kept (p.1.begin (.endSessionOf tid id), p.2.endById id) := by
  have hphase : ∀ x ∈ p.2.sessions, (p.2.endById id).phase x.id = p.2.phase x.id ∨
      p.2.phase x.id ≠ .live ∧ (p.2.endById id).phase x.id = .ended := by
    intro x hx
    by_cases hid : x.id = id
    · refine Or.inr ⟨fun hlive => hdead x (History.mem_live.mpr ⟨hx, hlive⟩) hid, ?_⟩
      rw [hid]
      exact Function.update_self _ _ _
    · exact Or.inl (Function.update_of_ne hid _ _)
  rw [begin, enter_of_returns h.free rfl]
  refine ⟨rfl, h.maps.erase rfl ?_ ?_, ?_⟩
  · exact fun x hx => live_iff_of_ended (hphase x hx)
  · intro x hx
    simp only [History.endById, Function.update_apply]
    split
    · rename_i hid
      exact ⟨fun _ => Or.inl hid, fun _ => rfl⟩
    · rename_i hid
      exact ⟨Or.inr, fun hor => hor.resolve_left hid⟩
  · have hpending : Function.update p.1.pending tid .idle = p.1.pending := by
      rw [← hidle, Function.update_eq_self]
    simp only [hpending]
    exact h.calls.ended rfl hphase

theorem Kept.localVariableSpace (h : Kept p) (hidle : p.1.pending tid = .idle)
    (hlatest : (p.2.latest tid).isSome) : Kept (p.1.begin (.localVariableSpace tid), p.2) := by
  obtain ⟨x, hx⟩ := Option.isSome_iff_exists.mp hlatest
  obtain ⟨hmem, howner, hlive⟩ := History.latest_spec hx
  have hread : p.1.maps.state.threadSession[tid]? = some x.id := by
    rw [h.maps.threadSession_eq, hx, Option.map_some]
  rw [begin, enter_of_returns h.free rfl]
  refine ⟨rfl, h.maps.congr (fun t => ?_) rfl rfl, ?_⟩
  · rw [getElem?_subscript_eq]
    split
    · rename_i ht
      rw [← ht, hread, Option.getD_some]
    · rfl
  · simp only [h.read_eq, hx, Option.map_some, Option.getD_some]
    exact h.calls.moved (h.not_ending_of_idle hidle)
      (Or.inr (Or.inr ⟨x, hmem, howner, rfl, hlive⟩))

/-- A lookup that finds a space changes nothing but where its thread is. -/
theorem Kept.found (h : Kept p) (hpending : ∀ ntid, p.1.pending tid ≠ .ending ntid)
    (hfound : ∃ x ∈ p.2.sessions, x.id = id ∧ p.2.phase id ≠ .ended) :
    Kept (p.1.enter tid (SessionMaps.localVariableSpaceOf id) fun _ => .idle, p.2) := by
  obtain ⟨x, hx, hid, hphase⟩ := hfound
  have hspace := (h.maps.filed id x.space).mpr ⟨x, hx, hid, rfl, hphase⟩
  rw [enter_of_returns h.free (Prod.ext rfl hspace)]
  exact ⟨rfl, h.maps, h.calls.moved (h.calls.not_ending hpending) (Or.inl rfl)⟩

/-- A thread without a live session goes on to start the one it has reserved an id for. -/
theorem Kept.started (h : Kept p) (hpending : p.1.pending tid = .starting ntid)
    (hnone : p.2.latest tid = none) :
    Kept (p.1.enter tid (SessionMaps.startSession tid ntid) fun _ => .idle,
      p.2.start ⟨tid, ntid, p.1.maps.state.nextSpace⟩) := by
  rw [enter_of_returns h.free rfl]
  exact ⟨rfl, h.maps.start (h.calls.starting tid ntid hpending).2 hnone,
    h.calls.start hpending _⟩

/-- A thread goes on to erase the space of the session it has forgotten. -/
theorem Kept.finished (h : Kept p) (hpending : p.1.pending tid = .ending ntid) :
    Kept (p.1.enter tid (SessionMaps.endSessionOf ntid) fun _ => .idle, p.2.finishEnd tid) := by
  have hphase : ∀ x ∈ p.2.sessions, (p.2.finishEnd tid).phase x.id = p.2.phase x.id ∨
      p.2.phase x.id ≠ .live ∧ (p.2.finishEnd tid).phase x.id = .ended := by
    intro x hx
    simp only [History.finishEnd]
    split
    · rename_i hending
      exact Or.inr ⟨by rw [hending]; exact Phase.noConfusion, rfl⟩
    · exact Or.inl rfl
  have hsessions : (p.2.finishEnd tid).sessions = p.2.sessions := rfl
  have hcalls := h.calls.ended hsessions hphase
  rw [enter_of_returns h.free rfl]
  refine ⟨rfl, h.maps.erase rfl ?_ ?_, hcalls.moved ?_ (Or.inl rfl)⟩
  · exact fun x hx => live_iff_of_ended (hphase x hx)
  · intro x hx
    simp only [History.finishEnd]
    split
    · rename_i hending
      have hid := h.calls.closing tid x hx hending
      rw [hpending] at hid
      exact ⟨fun _ => Or.inl (Pending.ending.inj hid).symm, fun _ => rfl⟩
    · rename_i hnot
      refine ⟨Or.inr, fun hor => ?_⟩
      rcases hor with hid | hended
      · have hold := h.calls.ending tid ntid hpending x hx hid
        rw [hid] at hnot ⊢
        exact hold.resolve_left hnot
      · exact hended
  · intro x hx hending
    simp only [History.finishEnd] at hending
    split at hending
    · exact Phase.noConfusion hending
    · rename_i hnot
      exact hnot hending

/-- A thread in a call starts no other one. -/
theorem Kept.step_of_busy (h : Kept p) {e : Event} (hcall : ∀ tid, e ≠ .resume tid)
    (hbusy : p.1.pending e.thread ≠ .idle) : recordedStep p e = p := by
  have hstep : p.1.step e = p.1 := by
    unfold step
    cases e with
    | resume tid => exact absurd rfl (hcall tid)
    | startSession tid => exact if_neg hbusy
    | endSession tid => exact if_neg hbusy
    | endSessionOf tid id => exact if_neg hbusy
    | localVariableSpace tid => exact if_neg hbusy
    | localVariableSpaceOf tid id => exact if_neg hbusy
  have hrecord : p.2.record p.1 e = p.2 := by
    rw [h.record_eq]
    cases e with
    | resume tid => exact absurd rfl (hcall tid)
    | startSession tid => rfl
    | endSession tid => exact if_neg hbusy
    | endSessionOf tid id => exact if_neg hbusy
    | localVariableSpace tid => rfl
    | localVariableSpaceOf tid id => rfl
  exact Prod.ext hstep hrecord

theorem step_of_idle {s : SessionLocalStorage} (e : Event) (hcall : ∀ tid, e ≠ .resume tid)
    (hidle : s.pending e.thread = .idle) : s.step e = s.begin e := by
  unfold step
  cases e with
  | resume tid => exact absurd rfl (hcall tid)
  | startSession tid => exact if_pos hidle
  | endSession tid => exact if_pos hidle
  | endSessionOf tid id => exact if_pos hidle
  | localVariableSpace tid => exact if_pos hidle
  | localVariableSpaceOf tid id => exact if_pos hidle

/-- A step that meets the condition keeps the invariant. -/
theorem Kept.step (h : Kept p) {e : Event} (hadm : Admissible p e) : Kept (recordedStep p e) := by
  by_cases hresume : ∃ tid, e = .resume tid
  · obtain ⟨tid, rfl⟩ := hresume
    simp only [recordedStep, h.record_eq, SessionLocalStorage.step, proceed]
    cases hpending : p.1.pending tid with
    | idle => exact h
    | starting ntid => exact h.started hpending (hadm ntid hpending)
    | ending ntid => exact h.finished hpending
    | looking ntid =>
        obtain ⟨x, hx, -, hid, hlive⟩ := h.calls.looking tid ntid hpending
        refine h.found (fun n hn => ?_) ⟨x, hx, hid, by rw [hlive]; exact Phase.noConfusion⟩
        rw [hpending] at hn
        exact Pending.noConfusion hn
  · have hcall : ∀ tid, e ≠ .resume tid := fun tid heq => hresume ⟨tid, heq⟩
    by_cases hidle : p.1.pending e.thread = .idle
    · rw [recordedStep, step_of_idle e hcall hidle, h.record_eq]
      cases e with
      | resume tid => exact absurd rfl (hcall tid)
      | startSession tid => exact ⟨h.free, h.maps, h.calls.reserve hidle⟩
      | endSession tid =>
          simp only [show p.1.pending tid = .idle from hidle, if_true]
          exact h.endSession hidle
      | endSessionOf tid id =>
          simp only [show p.1.pending tid = .idle from hidle, if_true]
          exact h.endSessionOf hidle (hadm hidle)
      | localVariableSpace tid => exact h.localVariableSpace hidle (hadm hidle)
      | localVariableSpaceOf tid id =>
          refine h.found (fun n hn => ?_) (hadm hidle)
          rw [show p.1.pending tid = .idle from hidle] at hn
          exact Pending.noConfusion hn
    · rw [h.step_of_busy hcall hidle]
      exact h

/-! ## Steps that meet the condition, and only those -/

/-- A storage that counts too few or too many sessions is not orderly. -/
theorem Orderly.size_eq {q : Recorded} (h : Orderly q) (hfree : q.1.maps.held = false) :
    q.1.maps.state.threadSession.size = q.2.live.length := by
  have hcounted := h.counted
  rw [numberOfSessions_of_free hfree] at hcounted
  exact Outcome.returned.inj hcounted

theorem Kept.necessary_endSessionOf (h : Kept p)
    (hgood : Orderly (recordedStep p (.endSessionOf tid id))) (hidle : p.1.pending tid = .idle) :
    ∀ x ∈ p.2.live, x.id ≠ id := by
  rintro x hx rfl
  have hstep : recordedStep p (.endSessionOf tid x.id) =
      (p.1.begin (.endSessionOf tid x.id), p.2.endById x.id) := by
    rw [recordedStep, step_of_idle (.endSessionOf tid x.id) (fun _ heq => by cases heq) hidle,
      h.record_eq]
    simp only [hidle, if_true]
  rw [hstep, begin, enter_of_returns h.free rfl] at hgood
  have hsize := hgood.size_eq rfl
  simp only [h.maps.size_eq] at hsize
  have hlive : (p.2.endById x.id).live = p.2.live.filter fun y => y.id ≠ x.id := by
    simp only [History.live, History.endById, List.filter_filter, Function.update_apply]
    apply List.filter_congr
    intro y _
    by_cases hy : y.id = x.id <;> simp [hy]
  have hlt : (p.2.live.filter fun y => y.id ≠ x.id).length < p.2.live.length :=
    List.length_filter_lt_length_iff_exists.mpr ⟨x, hx, by simp⟩
  rw [hlive] at hsize
  omega

theorem Kept.necessary_localVariableSpace (h : Kept p)
    (hgood : Orderly (recordedStep p (.localVariableSpace tid))) (hidle : p.1.pending tid = .idle) :
    (p.2.latest tid).isSome := by
  by_contra hnone
  have hnone := Option.not_isSome_iff_eq_none.mp hnone
  have hstep : recordedStep p (.localVariableSpace tid) =
      (p.1.begin (.localVariableSpace tid), p.2) := by
    rw [recordedStep, step_of_idle (.localVariableSpace tid) (fun _ heq => by cases heq) hidle,
      h.record_eq]
  rw [hstep, begin, enter_of_returns h.free rfl] at hgood
  have hsize := hgood.size_eq rfl
  have habsent : tid ∉ p.1.maps.state.threadSession := by
    rw [TreeMap.mem_iff_isSome_getElem?, h.maps.threadSession_eq, hnone]
    exact Bool.false_ne_true
  -- the subscript files the thread under session zero
  simp only [subscript, TreeMap.size_insertIfNew, if_neg habsent, h.maps.size_eq] at hsize
  omega

theorem Kept.necessary_localVariableSpaceOf (h : Kept p)
    (hgood : Orderly (recordedStep p (.localVariableSpaceOf tid id)))
    (hidle : p.1.pending tid = .idle) : ∃ x ∈ p.2.sessions, x.id = id ∧ p.2.phase id ≠ .ended := by
  by_contra hnone
  have hstep : recordedStep p (.localVariableSpaceOf tid id) =
      (p.1.begin (.localVariableSpaceOf tid id), p.2) := by
    rw [recordedStep, step_of_idle (.localVariableSpaceOf tid id) (fun _ heq => by cases heq) hidle,
      h.record_eq]
  have habsent : p.1.maps.state.threadVariableSpace[id]? = none := by
    rw [Option.eq_none_iff_forall_ne_some]
    intro space hspace
    obtain ⟨x, hx, hid, -, hphase⟩ := (h.maps.filed id space).mp hspace
    exact hnone ⟨x, hx, hid, hphase⟩
  rw [hstep, begin, enter_of_throws h.free (Prod.ext rfl habsent)] at hgood
  -- the mutex is held for good, so that no session is counted any more
  have hcounted := hgood.counted
  rw [numberOfSessions_of_held rfl] at hcounted
  cases hcounted

theorem Kept.necessary_resume (h : Kept p) (hgood : Orderly (recordedStep p (.resume tid)))
    (hpending : p.1.pending tid = .starting ntid) : p.2.latest tid = none := by
  by_contra hsome
  obtain ⟨x, hlatest⟩ := Option.ne_none_iff_exists'.mp hsome
  have hstep : recordedStep p (.resume tid) =
      (p.1.enter tid (SessionMaps.startSession tid ntid) fun _ => .idle,
        p.2.start ⟨tid, ntid, p.1.maps.state.nextSpace⟩) := by
    simp only [recordedStep, h.record_eq, SessionLocalStorage.step, proceed, hpending]
  rw [hstep, enter_of_returns h.free rfl] at hgood
  have hsize : (p.1.maps.state.threadSession.insert tid ntid).size = _ := hgood.size_eq rfl
  have hmem : p.1.maps.state.threadSession.contains tid = true := by
    rw [TreeMap.contains_eq_isSome_getElem?, h.maps.threadSession_eq, hlatest]
    rfl
  -- the entry of the thread is overwritten, and its old session lives on
  rw [TreeMap.size_insert, if_pos hmem, h.maps.size_eq] at hsize
  have hnew := (h.calls.starting tid ntid hpending).2
  have hlive : (p.2.start ⟨tid, ntid, p.1.maps.state.nextSpace⟩).live =
      ⟨tid, ntid, p.1.maps.state.nextSpace⟩ :: p.2.live := by
    simp only [History.live, History.start]
    rw [List.filter_cons_of_pos (by simp)]
    congr 1
    apply List.filter_congr
    intro y hy
    simp only [Function.update_of_ne (hnew y hy)]
  rw [hlive, List.length_cons] at hsize
  omega

end Invariant

/-- The step rule of sessions: the admissible steps, and only those, keep them orderly. -/
theorem stepRule_recordedStep : Runs.StepRule recordedStep Kept Orderly Admissible where
  good_of_inv := fun _ h => h.orderly
  preserved := fun _ _ h hadm => h.step hadm
  necessary := by
    intro p e h hgood
    cases e with
    | startSession tid => trivial
    | endSession tid => trivial
    | endSessionOf tid id => exact h.necessary_endSessionOf hgood
    | localVariableSpace tid => exact h.necessary_localVariableSpace hgood
    | localVariableSpaceOf tid id => exact h.necessary_localVariableSpaceOf hgood
    | resume tid => exact fun ntid => h.necessary_resume hgood

/-- Over any interleaving of the calls of any number of threads, every state reached is
orderly exactly when every step is admissible. -/
theorem orderly_iff_meets (events : List Event) :
    (∀ p ∈ Runs.trace recordedStep (initial, History.initial) events, Orderly p) ↔
      Runs.Meets recordedStep Admissible (initial, History.initial) events :=
  stepRule_recordedStep.forall_trace_iff kept_initial

/-- A thread that starts two sessions is counted once. -/
theorem not_orderly_always : ¬ ∀ events : List Event,
    ∀ p ∈ Runs.trace recordedStep (initial, History.initial) events, Orderly p := by
  intro h
  have hmeets := (stepRule_recordedStep.forall_trace_iff kept_initial).mp
    (h [.startSession 3, .resume 3, .startSession 3, .resume 3])
  have hnone := hmeets.2.2.2.1 2 rfl
  exact absurd hnone (by decide)

end SessionLocalStorage

end Graph
end LibND4J
