import Mathlib.Logic.Basic

/-!
# Critical sections with a manual lock

A section locks a mutex by hand, runs, and unlocks it at its end.  A section that throws on
the way leaves the mutex locked, and every later section waits forever.

Main results:

- Theorem `critical_of_held`: no section enters while the mutex is held.
-/

namespace Mutexes

/-- How a call ends. -/
inductive Outcome (α : Type*)
  | returned (a : α)
  | threw
  | blocked
deriving DecidableEq, Repr

/-- What the caller makes of a result. -/
def Outcome.map {α β : Type*} (f : α → β) : Outcome α → Outcome β
  | .returned a => .returned (f a)
  | .threw => .threw
  | .blocked => .blocked

/-- A state behind a mutex; `held` when a section was left without unlocking. -/
structure Guarded (σ : Type*) where
  state : σ
  held : Bool

variable {σ α ω β : Type*}

/-- Run a section under the mutex; a section that throws answers `none`. -/
def critical (body : σ → σ × Option α) (g : Guarded σ) : Guarded σ × Outcome α :=
  if g.held then
    (g, .blocked)
  else
    match body g.state with
    | (s, some a) => ({ state := s, held := false }, .returned a)
    | (s, none) => ({ state := s, held := true }, .threw)

variable {g : Guarded σ} {s : σ}

theorem critical_of_held (body : σ → σ × Option α) (h : g.held = true) :
    critical body g = (g, .blocked) := by
  rw [critical, if_pos h]

theorem critical_of_returns {body : σ → σ × Option α} (hfree : g.held = false) {a : α}
    (h : body g.state = (s, some a)) :
    critical body g = ({ state := s, held := false }, .returned a) := by
  rw [critical, hfree, if_neg Bool.false_ne_true, h]

theorem critical_of_throws {body : σ → σ × Option α} (hfree : g.held = false)
    (h : body g.state = (s, none)) : critical body g = ({ state := s, held := true }, .threw) := by
  rw [critical, hfree, if_neg Bool.false_ne_true, h]

/-- Go on after a section that returned. -/
def andThen (r : Guarded σ × Outcome α) (next : Guarded σ → α → Guarded σ × Outcome β) :
    Guarded σ × Outcome β :=
  match r with
  | (g, .returned a) => next g a
  | (g, .threw) => (g, .threw)
  | (g, .blocked) => (g, .blocked)

@[simp]
theorem andThen_returned (g : Guarded σ) (a : α) (next : Guarded σ → α → Guarded σ × Outcome β) :
    andThen (g, .returned a) next = next g a :=
  rfl

@[simp]
theorem andThen_blocked (g : Guarded σ) (next : Guarded σ → α → Guarded σ × Outcome β) :
    andThen (g, .blocked) next = (g, .blocked) :=
  rfl

/-- What a list of calls answers, one after the other. -/
def outcomes (exec : σ → ω → σ × β) : σ → List ω → List β
  | _, [] => []
  | s, op :: ops => (exec s op).2 :: outcomes exec (exec s op).1 ops

/-- Nobody can tell whether the call was made: it leaves the state as it was, and every list
of later calls answers as without it. -/
def Unnoticed (exec : σ → ω → σ × β) (s : σ) (op : ω) : Prop :=
  (exec s op).1 = s ∧ ∀ later : List ω, outcomes exec (exec s op).1 later = outcomes exec s later

/-- A call that changes the state is noticed. -/
theorem not_unnoticed_of_ne {exec : σ → ω → σ × β} {op : ω} (h : (exec s op).1 ≠ s) :
    ¬ Unnoticed exec s op :=
  fun hunnoticed => h hunnoticed.1

end Mutexes
