import Mathlib.Algebra.Order.BigOperators.Group.List
import Mathlib.Data.Fintype.EquivFin
import Mathlib.Data.List.FinRange
import Mathlib.Data.List.Nodup
import Mathlib.Data.List.Pairwise
import Mathlib.Tactic.Linarith

/-!
# Quicksort with a two-sided scan, in tasks

A range is partitioned by two scans that run towards each other and exchange what they stop at.
The two parts are sorted afterwards: below a cutoff by calls of the same task, and by two new
tasks otherwise.  The tasks share one state and take their steps in any order.  The pivot may be a
value or a place, and the ranges may belong to several arrays of one state.

A `Rule` names an invariant of the scans that keeps them inside their range and makes both parts
smaller than the range.  It may rest on a condition that the exchanges of a run meet.

Main results:

- Theorem `Rule.valid_of_steps`: the ranges of all pending calls stay inside the arrays and
  apart from each other, whatever the schedule.
- Theorem `Rule.accesses_inside`: every access is inside the arrays.
- Theorem `Rule.steps_le`: no run takes more steps than the weight of its start.
- Theorem `Rule.perm_of_steps`: a run permutes the elements.
- Theorem `Rule.ordered_of_steps`: if the parts are in order when a partition ends, a run that
  has ended leaves the elements in order.
- Theorem `Permuted.unique`: that order is unique.
-/

namespace HoareSort

/-- What a loop does next: test the scans, move one of them, or exchange. -/
inductive Phase
  | outer
  | up
  | down
  | exchange
  deriving DecidableEq

/-- A pending call, or a call in its loop, on a range of an array. -/
inductive Frame (τ P : Type*)
  | call (t : τ) (left right : Int)
  | loop (t : τ) (left right i j : Int) (pivot : P) (phase : Phase)

/-- What the sort does with a state: fetch a pivot, compare an element with it, exchange two
elements. -/
structure Machine (σ τ P : Type*) where
  /-- The place of the pivot of a range. -/
  mid : Int → Int → Int
  pivotAt : τ → σ → Int → P
  below : τ → σ → Int → P → Bool
  above : τ → σ → Int → P → Bool
  swap : τ → σ → Int → Int → σ
  cutoff : Int
  /-- The places that are read to fetch the pivot at a place. -/
  fetchReads : Int → List Int
  /-- The places that a comparison reads besides its own. -/
  pivotReads : P → List Int

/-- A state with the stacks of the tasks. -/
structure Config (σ τ P : Type*) where
  state : σ
  tasks : List (List (Frame τ P))

section Steps

variable {σ τ P : Type*}

/-- One step of a frame: the state, what takes its place on the stack, and the new tasks. -/
def Machine.stepFrame (m : Machine σ τ P) (s : σ) :
    Frame τ P → σ × List (Frame τ P) × List (Frame τ P)
  | .call t left right =>
      (s, [.loop t left right left right (m.pivotAt t s (m.mid left right)) .outer], [])
  | .loop t left right i j pivot .outer =>
      if i ≤ j then
        (s, [.loop t left right i j pivot .up], [])
      else if right - left < m.cutoff then
        (s, (if left < j then [.call t left j] else []) ++
          (if i < right then [.call t i right] else []), [])
      else
        (s, [], [.call t left j, .call t i right])
  | .loop t left right i j pivot .up =>
      if m.below t s i pivot then
        (s, [.loop t left right (i + 1) j pivot .up], [])
      else
        (s, [.loop t left right i j pivot .down], [])
  | .loop t left right i j pivot .down =>
      if m.above t s j pivot then
        (s, [.loop t left right i (j - 1) pivot .down], [])
      else
        (s, [.loop t left right i j pivot .exchange], [])
  | .loop t left right i j pivot .exchange =>
      if i ≤ j then
        (m.swap t s i j, [.loop t left right (i + 1) (j - 1) pivot .outer], [])
      else
        (s, [.loop t left right i j pivot .outer], [])

/-- The places that the next step of a frame reads or writes. -/
def Machine.accesses (m : Machine σ τ P) : Frame τ P → List Int
  | .call _ left right => m.fetchReads (m.mid left right)
  | .loop _ _ _ i _ pivot .up => i :: m.pivotReads pivot
  | .loop _ _ _ _ j pivot .down => j :: m.pivotReads pivot
  | .loop _ _ _ i j _ .exchange => if i ≤ j then [i, j] else []
  | .loop _ _ _ _ _ _ .outer => []

/-- What a step of a frame leaves to do. -/
def Machine.children (m : Machine σ τ P) (s : σ) (f : Frame τ P) : List (Frame τ P) :=
  (m.stepFrame s f).2.1 ++ (m.stepFrame s f).2.2

/-- A condition on the exchanges of a run: in an array and a state, of the range, the scans and
the pivot. -/
abbrev Condition (σ τ P : Type*) :=
  τ → σ → Int → Int → Int → Int → P → Prop

/-- No condition. -/
def anyExchange : Condition σ τ P :=
  fun _ _ _ _ _ _ _ => True

/-- The next step of a frame is not an exchange, or one that meets the condition. -/
def Frame.Meets (may : Condition σ τ P) (s : σ) : Frame τ P → Prop
  | .loop t left right i j pivot .exchange => i ≤ j → may t s left right i j pivot
  | _ => True

/-- Some task takes a step. -/
inductive Step (m : Machine σ τ P) (may : Condition σ τ P) : Config σ τ P → Config σ τ P → Prop
  | mk (s : σ) (before after : List (List (Frame τ P))) (f : Frame τ P) (stack : List (Frame τ P))
      (hmeets : f.Meets may s) :
      Step m may ⟨s, before ++ (f :: stack) :: after⟩
        ⟨(m.stepFrame s f).1,
          before ++ ((m.stepFrame s f).2.1 ++ stack) :: after ++
            (m.stepFrame s f).2.2.map fun g => [g]⟩

/-- A run of some number of steps. -/
inductive Steps (m : Machine σ τ P) (may : Condition σ τ P) :
    Nat → Config σ τ P → Config σ τ P → Prop
  | refl (c : Config σ τ P) : Steps m may 0 c c
  | tail {k : Nat} {c d e : Config σ τ P} :
      Steps m may k c d → Step m may d e → Steps m may (k + 1) c e

/-- All pending frames. -/
def Config.frames (c : Config σ τ P) : List (Frame τ P) :=
  c.tasks.flatten

variable {m : Machine σ τ P} {may : Condition σ τ P}

theorem Frame.meets_anyExchange (f : Frame τ P) (s : σ) : f.Meets anyExchange s := by
  cases f with
  | call => trivial
  | loop t l r i j p phase => cases phase <;> first | trivial | exact fun _ => trivial

theorem Step.of_stepFrame {s s' : σ} {f : Frame τ P} {continued spawned : List (Frame τ P)}
    (h : m.stepFrame s f = (s', continued, spawned)) (before after : List (List (Frame τ P)))
    (stack : List (Frame τ P)) :
    Step m anyExchange ⟨s, before ++ (f :: stack) :: after⟩
      ⟨s', before ++ (continued ++ stack) :: (after ++ spawned.map fun g => [g])⟩ := by
  have hstep : Step m anyExchange _ _ := Step.mk s before after f stack (f.meets_anyExchange s)
  rw [h, List.append_assoc, List.cons_append] at hstep
  exact hstep

variable {c d : Config σ τ P}

/-- A step takes one frame and leaves its children. -/
theorem Step.frames (h : Step m may c d) :
    ∃ f others, c.frames.Perm (f :: others) ∧ d.frames.Perm (m.children c.state f ++ others) ∧
      d.state = (m.stepFrame c.state f).1 ∧ f.Meets may c.state := by
  obtain ⟨s, before, after, f, stack, hmeets⟩ := h
  refine ⟨f, before.flatten ++ stack ++ after.flatten, ?_, ?_, rfl, hmeets⟩
  · simp only [Config.frames, List.flatten_append, List.flatten_cons, List.cons_append]
    rw [List.append_assoc]
    exact List.perm_middle
  · have hspawned : ((m.stepFrame s f).2.2.map fun g => [g]).flatten = (m.stepFrame s f).2.2 := by
      rw [← List.flatMap_def, List.flatMap_singleton']
    simp only [Config.frames, List.flatten_append, List.flatten_cons, hspawned, Machine.children]
    generalize (m.stepFrame s f).2.1 = continued
    generalize (m.stepFrame s f).2.2 = spawned
    classical
    rw [List.perm_iff_count]
    intro g
    simp only [List.count_append]
    omega

/-- A task that has something left to do can do it. -/
theorem exists_step (h : c.frames ≠ []) : ∃ d, Step m anyExchange c d := by
  obtain ⟨s, tasks⟩ := c
  have hstack : ∃ stack ∈ tasks, stack ≠ [] := by
    by_contra hnone
    refine h (List.flatten_eq_nil_iff.mpr fun stack hstack => ?_)
    by_contra hne
    exact hnone ⟨stack, hstack, hne⟩
  obtain ⟨stack, hmem, hne⟩ := hstack
  obtain ⟨before, after, rfl⟩ := List.append_of_mem hmem
  obtain ⟨f, rest, rfl⟩ := List.exists_cons_of_ne_nil hne
  exact ⟨_, Step.mk s before after f rest (f.meets_anyExchange s)⟩

/-- What every step keeps holds after a run. -/
theorem Steps.invariant (good : Config σ τ P → Prop)
    (hstep : ∀ c d, good c → Step m may c d → good d) {k : Nat} (h : Steps m may k c d)
    (hc : good c) : good d := by
  induction h with
  | refl => exact hc
  | tail _ hlast ih => exact hstep _ _ (ih hc) hlast

theorem Steps.trans {k k' : Nat} {e : Config σ τ P} (h : Steps m may k c d)
    (h' : Steps m may k' d e) : Steps m may (k + k') c e := by
  induction h' with
  | refl => exact h
  | tail _ hlast ih => exact (ih h).tail hlast

/-- One task with one frame. -/
def alone (s : σ) (f : Frame τ P) : Config σ τ P :=
  ⟨s, [[f]]⟩

variable {t : τ} {l r i j : Int} {p : P} {s s' : σ}

/-- A step that replaces the frame. -/
theorem step_alone {f g : Frame τ P} (h : m.stepFrame s f = (s', [g], [])) :
    Step m anyExchange (alone s f) (alone s' g) :=
  Step.of_stepFrame h [] [] []

theorem step_call : Step m anyExchange (alone s (.call t l r))
    (alone s (.loop t l r l r (m.pivotAt t s (m.mid l r)) .outer)) :=
  step_alone rfl

theorem step_outer (hij : i ≤ j) : Step m anyExchange (alone s (.loop t l r i j p .outer))
    (alone s (.loop t l r i j p .up)) :=
  step_alone (by simp [Machine.stepFrame, hij])

theorem step_up (h : m.below t s i p = true) :
    Step m anyExchange (alone s (.loop t l r i j p .up)) (alone s (.loop t l r (i + 1) j p .up)) :=
  step_alone (by simp [Machine.stepFrame, h])

theorem step_up_stop (h : m.below t s i p = false) :
    Step m anyExchange (alone s (.loop t l r i j p .up)) (alone s (.loop t l r i j p .down)) :=
  step_alone (by simp [Machine.stepFrame, h])

theorem step_down (h : m.above t s j p = true) :
    Step m anyExchange (alone s (.loop t l r i j p .down))
      (alone s (.loop t l r i (j - 1) p .down)) :=
  step_alone (by simp [Machine.stepFrame, h])

theorem step_down_stop (h : m.above t s j p = false) :
    Step m anyExchange (alone s (.loop t l r i j p .down))
      (alone s (.loop t l r i j p .exchange)) :=
  step_alone (by simp [Machine.stepFrame, h])

theorem step_exchange (hij : i ≤ j) : Step m anyExchange (alone s (.loop t l r i j p .exchange))
    (alone (m.swap t s i j) (.loop t l r (i + 1) (j - 1) p .outer)) :=
  step_alone (by simp [Machine.stepFrame, hij])

theorem step_skip (hji : j < i) : Step m anyExchange (alone s (.loop t l r i j p .exchange))
    (alone s (.loop t l r i j p .outer)) :=
  step_alone (by simp [Machine.stepFrame, not_le.mpr hji])

/-- The first scan moves over elements below the pivot. -/
theorem steps_up (count : Nat) (hbelow : ∀ k, i ≤ k → k < i + count → m.below t s k p = true) :
    Steps m anyExchange count (alone s (.loop t l r i j p .up))
      (alone s (.loop t l r (i + count) j p .up)) := by
  induction count with
  | zero => simpa using Steps.refl _
  | succ count ih =>
      have h := (ih fun k hk hk' => hbelow k hk (by omega)).tail
        (step_up (hbelow (i + count) (by omega) (by omega)))
      simpa [add_assoc] using h

/-- The second scan moves over elements above the pivot. -/
theorem steps_down (count : Nat) (habove : ∀ k, j - count < k → k ≤ j → m.above t s k p = true) :
    Steps m anyExchange count (alone s (.loop t l r i j p .down))
      (alone s (.loop t l r i (j - count) p .down)) := by
  induction count with
  | zero => simpa using Steps.refl _
  | succ count ih =>
      have h := (ih fun k hk hk' => habove k (by omega) hk').tail
        (step_down (habove (j - count) (by omega) (by omega)))
      simpa [sub_sub] using h

/-- The parts of an ended partition that are not empty are called next. -/
theorem step_parts (hji : j < i) (hlj : l < j) (hir : i < r) :
    ∃ d, Step m anyExchange (alone s (.loop t l r i j p .outer)) d ∧ d.state = s ∧
      d.frames = [.call t l j, .call t i r] := by
  by_cases hcut : r - l < m.cutoff
  · have hstep : m.stepFrame s (.loop t l r i j p .outer) =
        (s, [.call t l j, .call t i r], []) := by
      simp [Machine.stepFrame, not_le.mpr hji, hcut, hlj, hir]
    exact ⟨_, Step.of_stepFrame hstep [] [] [], rfl, rfl⟩
  · have hstep : m.stepFrame s (.loop t l r i j p .outer) =
        (s, [], [.call t l j, .call t i r]) := by
      simp [Machine.stepFrame, not_le.mpr hji, hcut]
    exact ⟨_, Step.of_stepFrame hstep [] [] [], rfl, rfl⟩

end Steps

/-! ## Ranges -/

section Ranges

variable {σ τ P : Type*}

def Frame.tag : Frame τ P → τ
  | .call t _ _ => t
  | .loop t _ _ _ _ _ _ => t

def Frame.left : Frame τ P → Int
  | .call _ left _ => left
  | .loop _ left _ _ _ _ _ => left

def Frame.right : Frame τ P → Int
  | .call _ _ right => right
  | .loop _ _ right _ _ _ _ => right

/-- A place of an array is in the range of a frame. -/
def Frame.Covers (f : Frame τ P) (t : τ) (k : Int) : Prop :=
  f.tag = t ∧ f.left ≤ k ∧ k ≤ f.right

/-- No place is in both ranges. -/
def Apart (f g : Frame τ P) : Prop :=
  ∀ t k, f.Covers t k → ¬ g.Covers t k

theorem Apart.symm {f g : Frame τ P} (h : Apart f g) : Apart g f :=
  fun t k hg hf => h t k hf hg

/-- A range of an array of length `n`, possibly empty. -/
def InRange (n left right : Int) : Prop :=
  0 ≤ left ∧ right < n ∧ left ≤ right + 1

/-- An invariant of the scans that keeps them inside their range, makes both parts smaller, and
is not affected by exchanges elsewhere. -/
structure Rule (m : Machine σ τ P) (may : Condition σ τ P) (n : Int)
    (inv : τ → σ → Int → Int → Int → Int → P → Phase → Prop) : Prop where
  start : ∀ {t s l r}, InRange n l r →
    inv t s l r l r (m.pivotAt t s (m.mid l r)) .outer
  bounds : ∀ {t s l r i j p phase}, inv t s l r i j p phase →
    l ≤ i ∧ i ≤ r + 1 ∧ l - 1 ≤ j ∧ j ≤ r
  again : ∀ {t s l r i j p}, inv t s l r i j p .outer → i ≤ j → inv t s l r i j p .up
  up_le : ∀ {t s l r i j p}, inv t s l r i j p .up → i ≤ r
  up_step : ∀ {t s l r i j p}, inv t s l r i j p .up → m.below t s i p = true →
    inv t s l r (i + 1) j p .up
  up_stop : ∀ {t s l r i j p}, inv t s l r i j p .up → m.below t s i p = false →
    inv t s l r i j p .down
  down_le : ∀ {t s l r i j p}, inv t s l r i j p .down → l ≤ j
  down_step : ∀ {t s l r i j p}, inv t s l r i j p .down → m.above t s j p = true →
    inv t s l r i (j - 1) p .down
  down_stop : ∀ {t s l r i j p}, inv t s l r i j p .down → m.above t s j p = false →
    inv t s l r i j p .exchange
  swap : ∀ {t s l r i j p}, InRange n l r → inv t s l r i j p .exchange → i ≤ j →
    may t s l r i j p → inv t (m.swap t s i j) l r (i + 1) (j - 1) p .outer
  skip : ∀ {t s l r i j p}, inv t s l r i j p .exchange → j < i → inv t s l r i j p .outer
  smaller : ∀ {t s l r i j p}, inv t s l r i j p .outer → j < i → l ≤ r → l < i ∧ j < r
  fetch_inside : ∀ {l r}, InRange n l r → ∀ k ∈ m.fetchReads (m.mid l r), 0 ≤ k ∧ k < n
  pivot_inside : ∀ {t s l r i j p phase}, inv t s l r i j p phase → phase = .up ∨ phase = .down →
    ∀ k ∈ m.pivotReads p, l ≤ k ∧ k ≤ r
  elsewhere : ∀ {t s l r i j p phase t' u v}, InRange n l r → inv t s l r i j p phase →
    0 ≤ u ∧ u < n → 0 ≤ v ∧ v < n →
    (t' = t → ¬ (l ≤ u ∧ u ≤ r) ∧ ¬ (l ≤ v ∧ v ≤ r)) →
    inv t (m.swap t' s u v) l r i j p phase

/-- A frame in a range, and its loop in the invariant. -/
def FrameOk (n : Int) (inv : τ → σ → Int → Int → Int → Int → P → Phase → Prop) (s : σ) :
    Frame τ P → Prop
  | .call _ left right => InRange n left right
  | .loop t left right i j pivot phase =>
      InRange n left right ∧ inv t s left right i j pivot phase

/-- All frames are in the invariant, and their ranges are apart. -/
structure Valid (n : Int) (inv : τ → σ → Int → Int → Int → Int → P → Phase → Prop)
    (c : Config σ τ P) : Prop where
  frame : ∀ f ∈ c.frames, FrameOk n inv c.state f
  apart : c.frames.Pairwise Apart

theorem FrameOk.inRange {n : Int} {inv : τ → σ → Int → Int → Int → Int → P → Phase → Prop} {s : σ}
    {f : Frame τ P} (h : FrameOk n inv s f) : InRange n f.left f.right := by
  cases f with
  | call => exact h
  | loop => exact h.1

end Ranges

/-! ## One step -/

section OneStep

variable {σ τ P : Type*} {m : Machine σ τ P} {may : Condition σ τ P} {n : Int}
variable {inv : τ → σ → Int → Int → Int → Int → P → Phase → Prop}

/-- What a step of a frame in the invariant leaves: frames in the invariant, apart from each
other, in the range of the frame. -/
structure Leaves (m : Machine σ τ P) (n : Int)
    (inv : τ → σ → Int → Int → Int → Int → P → Phase → Prop) (s : σ) (f : Frame τ P) : Prop where
  frame : ∀ g ∈ m.children s f, FrameOk n inv (m.stepFrame s f).1 g
  apart : (m.children s f).Pairwise Apart
  covers : ∀ g ∈ m.children s f, ∀ t k, g.Covers t k → f.Covers t k
  exchange : (m.stepFrame s f).1 = s ∨
    ∃ u v, f.Covers f.tag u ∧ f.Covers f.tag v ∧ (m.stepFrame s f).1 = m.swap f.tag s u v
  goes_on : (∃ g ∈ m.children s f, ∀ t k, f.Covers t k → g.Covers t k) ∨
    ∃ t l r i j p, f = .loop t l r i j p .outer ∧ j < i

variable {s : σ} {f : Frame τ P} {c d : Config σ τ P} {k : Nat}

/-- A step that goes on in the same range. -/
theorem leaves_of_loop {s' : σ} {t : τ} {l r i j : Int} {p : P} {phase : Phase}
    (hrange : InRange n l r) (hinv : inv t s' l r i j p phase)
    (hstep : m.stepFrame s f = (s', [.loop t l r i j p phase], []))
    (hf : f.tag = t ∧ f.left = l ∧ f.right = r) (hexchange : s' = s ∨
      ∃ u v, f.Covers f.tag u ∧ f.Covers f.tag v ∧ s' = m.swap f.tag s u v) :
    Leaves m n inv s f := by
  obtain ⟨rfl, rfl, rfl⟩ := hf
  have hchildren : m.children s f = [.loop f.tag f.left f.right i j p phase] := by
    simp [Machine.children, hstep]
  refine ⟨fun g hg => ?_, ?_, fun g hg t k hk => ?_, ?_,
    Or.inl ⟨.loop f.tag f.left f.right i j p phase, ?_, fun _ _ hk => hk⟩⟩
  · rw [hchildren, List.mem_singleton] at hg
    subst hg
    rw [hstep]
    exact ⟨hrange, hinv⟩
  · rw [hchildren]
    exact List.pairwise_singleton _ _
  · rw [hchildren, List.mem_singleton] at hg
    subst hg
    exact hk
  · rwa [hstep]
  · rw [hchildren, List.mem_singleton]

variable (R : Rule m may n inv)

include R

/-- The parts of a partition that has ended. -/
theorem leaves_of_parts {t : τ} {l r i j : Int} {p : P} (hrange : InRange n l r)
    (hinv : inv t s l r i j p .outer) (hji : j < i) :
    Leaves m n inv s (.loop t l r i j p .outer) := by
  have hbounds := R.bounds hinv
  have hstate : (m.stepFrame s (.loop t l r i j p .outer)).1 = s := by
    simp only [Machine.stepFrame, if_neg (not_le.mpr hji)]
    split <;> rfl
  have hsub : (m.children s (.loop t l r i j p .outer)).Sublist [.call t l j, .call t i r] := by
    simp only [Machine.children, Machine.stepFrame, if_neg (not_le.mpr hji)]
    split
    · split <;> split <;> simp
    · simp
  have hleft : FrameOk n inv s (.call t l j : Frame τ P) := by
    obtain ⟨h1, h2, h3⟩ := hrange
    exact ⟨h1, by omega, by omega⟩
  have hright : FrameOk n inv s (.call t i r : Frame τ P) := by
    obtain ⟨h1, h2, h3⟩ := hrange
    exact ⟨by omega, h2, by omega⟩
  refine ⟨fun g hg => ?_, ?_, fun g hg t' k hk => ?_, Or.inl hstate,
    Or.inr ⟨t, l, r, i, j, p, rfl, hji⟩⟩
  · rw [hstate]
    have hmem := hsub.subset hg
    simp only [List.mem_cons, List.not_mem_nil, or_false] at hmem
    rcases hmem with rfl | rfl
    · exact hleft
    · exact hright
  · refine List.Pairwise.sublist hsub ?_
    simp only [List.pairwise_cons, List.mem_cons, List.not_mem_nil, or_false, forall_eq,
      List.Pairwise.nil, and_true, IsEmpty.forall_iff, implies_true]
    rintro t' k ⟨-, -, hkj⟩ ⟨-, hik, -⟩
    simp only [Frame.right, Frame.left] at hkj hik
    omega
  · have hmem := hsub.subset hg
    simp only [List.mem_cons, List.not_mem_nil, or_false] at hmem
    rcases hmem with rfl | rfl
    · obtain ⟨htag, h1, h2⟩ := hk
      simp only [Frame.right, Frame.left, Frame.tag] at htag h1 h2
      exact ⟨htag, h1, by simp only [Frame.right]; omega⟩
    · obtain ⟨htag, h1, h2⟩ := hk
      simp only [Frame.right, Frame.left, Frame.tag] at htag h1 h2
      exact ⟨htag, by simp only [Frame.left]; omega, h2⟩

theorem FrameOk.leaves (h : FrameOk n inv s f) (hmeets : f.Meets may s) : Leaves m n inv s f := by
  cases f with
  | call t l r => exact leaves_of_loop h (R.start h) rfl ⟨rfl, rfl, rfl⟩ (Or.inl rfl)
  | loop t l r i j p phase =>
      obtain ⟨hrange, hinv⟩ := h
      cases phase with
      | outer =>
          by_cases hij : i ≤ j
          · exact leaves_of_loop hrange (R.again hinv hij) (by simp [Machine.stepFrame, hij])
              ⟨rfl, rfl, rfl⟩ (Or.inl rfl)
          · exact leaves_of_parts R hrange hinv (not_le.mp hij)
      | up =>
          cases hb : m.below t s i p with
          | true =>
              exact leaves_of_loop hrange (R.up_step hinv hb) (by simp [Machine.stepFrame, hb])
                ⟨rfl, rfl, rfl⟩ (Or.inl rfl)
          | false =>
              exact leaves_of_loop hrange (R.up_stop hinv hb) (by simp [Machine.stepFrame, hb])
                ⟨rfl, rfl, rfl⟩ (Or.inl rfl)
      | down =>
          cases ha : m.above t s j p with
          | true =>
              exact leaves_of_loop hrange (R.down_step hinv ha) (by simp [Machine.stepFrame, ha])
                ⟨rfl, rfl, rfl⟩ (Or.inl rfl)
          | false =>
              exact leaves_of_loop hrange (R.down_stop hinv ha) (by simp [Machine.stepFrame, ha])
                ⟨rfl, rfl, rfl⟩ (Or.inl rfl)
      | exchange =>
          have hbounds := R.bounds hinv
          by_cases hij : i ≤ j
          · refine leaves_of_loop hrange (R.swap hrange hinv hij (hmeets hij))
              (by simp [Machine.stepFrame, hij]) ⟨rfl, rfl, rfl⟩ (Or.inr ⟨i, j, ?_, ?_, rfl⟩)
            · exact ⟨rfl, hbounds.1, hij.trans hbounds.2.2.2⟩
            · exact ⟨rfl, hbounds.1.trans hij, hbounds.2.2.2⟩
          · exact leaves_of_loop hrange (R.skip hinv (not_le.mp hij))
              (by simp [Machine.stepFrame, hij]) ⟨rfl, rfl, rfl⟩ (Or.inl rfl)

/-- An exchange in another range leaves a frame in the invariant. -/
theorem FrameOk.elsewhere {g : Frame τ P} (hg : FrameOk n inv s g) (hf : InRange n f.left f.right)
    (hapart : Apart f g) {u v : Int} (hu : f.Covers f.tag u) (hv : f.Covers f.tag v) :
    FrameOk n inv (m.swap f.tag s u v) g := by
  cases g with
  | call t l r => exact hg
  | loop t l r i j p phase =>
      obtain ⟨h0, hn, -⟩ := hf
      have hu' := hapart _ _ hu
      have hv' := hapart _ _ hv
      obtain ⟨-, hu1, hu2⟩ := hu
      obtain ⟨-, hv1, hv2⟩ := hv
      refine ⟨hg.1, R.elsewhere hg.1 hg.2 (by omega) (by omega) fun htag => ⟨?_, ?_⟩⟩
      · exact fun hin => hu' ⟨htag.symm, hin.1, hin.2⟩
      · exact fun hin => hv' ⟨htag.symm, hin.1, hin.2⟩

theorem Valid.step (hc : Valid n inv c) (h : Step m may c d) : Valid n inv d := by
  obtain ⟨f, others, hbefore, hafter, hstate, hmeets⟩ := h.frames
  have hpairs := (hbefore.pairwise_iff Apart.symm).mp hc.apart
  rw [List.pairwise_cons] at hpairs
  have hf := hc.frame f (hbefore.mem_iff.mpr List.mem_cons_self)
  have hleaves := hf.leaves R hmeets
  refine ⟨fun g hg => ?_, ?_⟩
  · rw [hstate]
    rcases List.mem_append.mp (hafter.mem_iff.mp hg) with hchild | hother
    · exact hleaves.frame g hchild
    · have hg' := hc.frame g (hbefore.mem_iff.mpr (List.mem_cons_of_mem _ hother))
      rcases hleaves.exchange with hsame | ⟨u, v, hu, hv, hswap⟩
      · rwa [hsame]
      · rw [hswap]
        exact hg'.elsewhere R hf.inRange (hpairs.1 g hother) hu hv
  · rw [hafter.pairwise_iff Apart.symm, List.pairwise_append]
    refine ⟨hleaves.apart, hpairs.2, fun g hg o ho t k hk => ?_⟩
    exact hpairs.1 o ho t k (hleaves.covers g hg t k hk)

theorem Rule.valid_of_steps (hc : Valid n inv c) (h : Steps m may k c d) : Valid n inv d :=
  h.invariant (Valid n inv) (fun _ _ hgood hstep => hgood.step R hstep) hc

/-- Runs from a valid start meet a condition that all its frames meet. -/
theorem Rule.steps_of_meets {may' : Condition σ τ P}
    (hmeets : ∀ s f, FrameOk n inv s f → f.Meets may' s) (hc : Valid n inv c)
    (h : Steps m may k c d) : Steps m may' k c d := by
  induction h with
  | refl => exact Steps.refl _
  | tail hfirst hlast ih =>
      have hvalid := R.valid_of_steps hc hfirst
      obtain ⟨s, before, after, f, stack, -⟩ := hlast
      have hf := hvalid.frame f (by simp [Config.frames])
      exact (ih hc).tail (Step.mk s before after f stack (hmeets s f hf))

/-- The accesses of a frame in the invariant are inside the array. -/
theorem FrameOk.accesses_inside (h : FrameOk n inv s f) : ∀ k ∈ m.accesses f, 0 ≤ k ∧ k < n := by
  cases f with
  | call t l r => exact R.fetch_inside h
  | loop t l r i j p phase =>
      obtain ⟨⟨h0, hn, -⟩, hinv⟩ := h
      have hbounds := R.bounds hinv
      intro k hk
      cases phase with
      | outer => simp [Machine.accesses] at hk
      | up =>
          rcases List.mem_cons.mp hk with rfl | hk
          · have := R.up_le hinv
            omega
          · have := R.pivot_inside hinv (Or.inl rfl) k hk
            omega
      | down =>
          rcases List.mem_cons.mp hk with rfl | hk
          · have := R.down_le hinv
            omega
          · have := R.pivot_inside hinv (Or.inr rfl) k hk
            omega
      | exchange =>
          simp only [Machine.accesses] at hk
          split at hk
          · simp only [List.mem_cons, List.not_mem_nil, or_false] at hk
            omega
          · simp at hk

theorem Rule.accesses_inside (hc : Valid n inv c) (h : Steps m may k c d) :
    ∀ f ∈ d.frames, ∀ place ∈ m.accesses f, 0 ≤ place ∧ place < n :=
  fun f hf => ((R.valid_of_steps hc h).frame f hf).accesses_inside R

end OneStep

/-! ## Termination -/

section Termination

variable {σ τ P : Type*} {m : Machine σ τ P} {may : Condition σ τ P} {n : Int}
variable {inv : τ → σ → Int → Int → Int → Int → P → Phase → Prop}

def Phase.weight : Phase → Int
  | .outer => 0
  | .up => 3
  | .down => 2
  | .exchange => 1

/-- The length of a range. -/
def size (left right : Int) : Int :=
  max (right + 1 - left) 0

/-- A bound on the steps that a frame and what it leaves can take. -/
def Frame.weight : Frame τ P → Int
  | .call _ left right => 24 * size left right ^ 2 + 8 * size left right + 8
  | .loop _ left right i j _ phase =>
      24 * size left right ^ 2 + 4 * (size i right + size left j) + phase.weight +
        (if phase = .outer ∧ i ≤ j then 4 else 0) + 1

def Config.weight (c : Config σ τ P) : Int :=
  (c.frames.map Frame.weight).sum

theorem size_nonneg (left right : Int) : 0 ≤ size left right :=
  le_max_right _ _

theorem size_eq {left right : Int} (h : left ≤ right + 1) :
    size left right = right + 1 - left :=
  max_eq_left (by omega)

theorem Phase.weight_nonneg (phase : Phase) : 0 ≤ phase.weight := by
  cases phase <;> decide

theorem Frame.weight_pos (f : Frame τ P) : 0 < f.weight := by
  cases f with
  | call t l r =>
      have hsize := size_nonneg l r
      simp only [Frame.weight]
      positivity
  | loop t l r i j p phase =>
      have h1 := size_nonneg l r
      have h2 := size_nonneg i r
      have h3 := size_nonneg l j
      have h4 := phase.weight_nonneg
      simp only [Frame.weight]
      split <;> positivity

theorem Config.weight_nonneg (c : Config σ τ P) : 0 ≤ c.weight :=
  List.sum_nonneg fun _ hw => by
    obtain ⟨f, -, rfl⟩ := List.mem_map.mp hw
    exact f.weight_pos.le

/-- Two parts, both smaller than a range and together no larger, weigh less than its loop. -/
theorem parts_weight_lt {whole low high : Int} (hlow : 0 ≤ low) (hhigh : 0 ≤ high)
    (hlow' : low ≤ whole - 1) (hhigh' : high ≤ whole - 1) (hsum : low + high ≤ whole) :
    (24 * low ^ 2 + 8 * low + 8) + (24 * high ^ 2 + 8 * high + 8) <
      24 * whole ^ 2 + 4 * (high + low) + 1 := by
  have hl : low ^ 2 ≤ (whole - 1) * low := by
    rw [pow_two]
    exact mul_le_mul_of_nonneg_right hlow' hlow
  have hh : high ^ 2 ≤ (whole - 1) * high := by
    rw [pow_two]
    exact mul_le_mul_of_nonneg_right hhigh' hhigh
  have hboth : (whole - 1) * (low + high) ≤ (whole - 1) * whole :=
    mul_le_mul_of_nonneg_left hsum (by omega)
  nlinarith

/-- The parts of a partition that has ended weigh less than its loop. -/
theorem parts_weight (R : Rule m may n inv) (hcut : 0 ≤ m.cutoff) {s : σ} {t : τ} {l r i j : Int}
    {p : P} (hinv : inv t s l r i j p .outer) (hji : j < i) :
    ((m.children s (.loop t l r i j p .outer)).map Frame.weight).sum <
      (Frame.loop t l r i j p Phase.outer).weight := by
  have hbounds := R.bounds hinv
  have hcalls : ∀ a b : Int, 0 < (Frame.call t a b : Frame τ P).weight := fun a b =>
    Frame.weight_pos _
  rcases lt_or_ge r l with hempty | hsome
  · -- an empty range is below the cutoff and leaves nothing
    have hnone : m.children s (.loop t l r i j p .outer) = [] := by
      simp only [Machine.children, Machine.stepFrame, if_neg (not_le.mpr hji)]
      rw [if_pos (by omega), if_neg (by omega), if_neg (by omega)]
      rfl
    rw [hnone]
    exact Frame.weight_pos _
  · have hsmaller := R.smaller hinv hji hsome
    have hlt : (Frame.call t l j : Frame τ P).weight + (Frame.call t i r : Frame τ P).weight <
        (Frame.loop t l r i j p Phase.outer).weight := by
      have hs : size l r = r + 1 - l := size_eq (by omega)
      have h1 : size l j = j + 1 - l := size_eq (by omega)
      have h2 : size i r = r + 1 - i := size_eq (by omega)
      have h := @parts_weight_lt (size l r) (size l j) (size i r) (size_nonneg _ _)
        (size_nonneg _ _) (by omega) (by omega) (by omega)
      simp only [Frame.weight, Phase.weight]
      rw [if_neg (by omega)]
      omega
    refine lt_of_le_of_lt ?_ hlt
    have hl := hcalls l j
    have hr := hcalls i r
    simp only [Machine.children, Machine.stepFrame, if_neg (not_le.mpr hji)]
    split
    · split <;> split <;> simp <;> omega
    · simp

theorem FrameOk.weight_children (R : Rule m may n inv) (hcut : 0 ≤ m.cutoff) {s : σ} {f : Frame τ P}
    (h : FrameOk n inv s f) : ((m.children s f).map Frame.weight).sum < f.weight := by
  cases f with
  | call t l r =>
      have hsize := size_nonneg l r
      simp only [Machine.children, Machine.stepFrame, List.append_nil, List.map_cons, List.map_nil,
        List.sum_cons, List.sum_nil, Frame.weight, Phase.weight]
      split <;> omega
  | loop t l r i j p phase =>
      obtain ⟨hrange, hinv⟩ := h
      have hbounds := R.bounds hinv
      cases phase with
      | outer =>
          by_cases hij : i ≤ j
          · simp [Machine.children, Machine.stepFrame, hij, Frame.weight, Phase.weight]
          · exact parts_weight R hcut hinv (not_le.mp hij)
      | up =>
          have hle := R.up_le hinv
          have h1 : size i r = r + 1 - i := size_eq (by omega)
          have h2 : size (i + 1) r = r + 1 - (i + 1) := size_eq (by omega)
          cases hb : m.below t s i p with
          | true =>
              simp [Machine.children, Machine.stepFrame, hb, Frame.weight, Phase.weight]
              omega
          | false => simp [Machine.children, Machine.stepFrame, hb, Frame.weight, Phase.weight]
      | down =>
          have hle := R.down_le hinv
          have h1 : size l j = j + 1 - l := size_eq (by omega)
          have h2 : size l (j - 1) = j - 1 + 1 - l := size_eq (by omega)
          cases ha : m.above t s j p with
          | true =>
              simp [Machine.children, Machine.stepFrame, ha, Frame.weight, Phase.weight]
              omega
          | false => simp [Machine.children, Machine.stepFrame, ha, Frame.weight, Phase.weight]
      | exchange =>
          by_cases hij : i ≤ j
          · have h1 : size i r = r + 1 - i := size_eq (by omega)
            have h2 : size (i + 1) r = r + 1 - (i + 1) := size_eq (by omega)
            have h3 : size l j = j + 1 - l := size_eq (by omega)
            have h4 : size l (j - 1) = j - 1 + 1 - l := size_eq (by omega)
            simp only [Machine.children, Machine.stepFrame, if_pos hij, List.append_nil,
              List.map_cons, List.map_nil, List.sum_cons, List.sum_nil, Frame.weight, Phase.weight]
            split <;> split <;> omega
          · simp [Machine.children, Machine.stepFrame, hij, Frame.weight, Phase.weight]

variable {c d : Config σ τ P}

theorem Valid.weight_step (R : Rule m may n inv) (hcut : 0 ≤ m.cutoff) (hc : Valid n inv c)
    (h : Step m may c d) : d.weight < c.weight := by
  obtain ⟨f, others, hbefore, hafter, -, -⟩ := h.frames
  have hlt := (hc.frame f (hbefore.mem_iff.mpr List.mem_cons_self)).weight_children R hcut
  have h1 := (hbefore.map Frame.weight).sum_eq
  have h2 := (hafter.map Frame.weight).sum_eq
  simp only [List.map_cons, List.sum_cons, List.map_append, List.sum_append] at h1 h2
  simp only [Config.weight]
  omega

theorem Rule.weight_add_le (R : Rule m may n inv) (hcut : 0 ≤ m.cutoff) {k : Nat}
    (hc : Valid n inv c) (h : Steps m may k c d) : d.weight + k ≤ c.weight := by
  induction h with
  | refl => simp
  | tail hfirst hlast ih =>
      have hstep := (R.valid_of_steps hc hfirst).weight_step R hcut hlast
      have hle := ih hc
      push_cast
      omega

theorem Rule.steps_le (R : Rule m may n inv) (hcut : 0 ≤ m.cutoff) {k : Nat} (hc : Valid n inv c)
    (h : Steps m may k c d) : (k : Int) ≤ c.weight := by
  have hle := R.weight_add_le hcut hc h
  have hnonneg := d.weight_nonneg
  omega

/-- Every run goes on to an end. -/
theorem Rule.exists_end (R : Rule m anyExchange n inv) (hcut : 0 ≤ m.cutoff) (hc : Valid n inv c) :
    ∃ k d, Steps m anyExchange k c d ∧ d.frames = [] := by
  obtain ⟨w, hw⟩ : ∃ w : Nat, c.weight ≤ w := ⟨c.weight.toNat, by omega⟩
  induction w generalizing c with
  | zero =>
      refine ⟨0, c, Steps.refl c, ?_⟩
      by_contra hne
      obtain ⟨d, hd⟩ := exists_step (m := m) hne
      have hlt := hc.weight_step R hcut hd
      have hnonneg := d.weight_nonneg
      omega
  | succ w ih =>
      by_cases hend : c.frames = []
      · exact ⟨0, c, Steps.refl c, hend⟩
      · obtain ⟨d, hd⟩ := exists_step (m := m) hend
        have hlt := hc.weight_step R hcut hd
        obtain ⟨k, e, hrun, he⟩ := ih (hc.step R hd) (by omega)
        exact ⟨1 + k, e, ((Steps.refl c).tail hd).trans hrun, he⟩

end Termination

/-! ## Elements -/

section Elements

variable {σ τ P E : Type*} {m : Machine σ τ P} {may : Condition σ τ P} {n : Int}
variable {inv : τ → σ → Int → Int → Int → Int → P → Phase → Prop} {k : Nat} {c d : Config σ τ P}

/-- What exchanges inside the arrays keep is kept by runs. -/
theorem Rule.stable_of_steps (R : Rule m may n inv) (good : σ → Prop)
    (hswap : ∀ t s u v, 0 ≤ u → u < n → 0 ≤ v → v < n → good s → good (m.swap t s u v))
    (hc : Valid n inv c) (h : Steps m may k c d) (hgood : good c.state) : good d.state := by
  induction h with
  | refl => exact hgood
  | tail hfirst hlast ih =>
      have hvalid := R.valid_of_steps hc hfirst
      obtain ⟨f, others, hbefore, -, hstate, hmeets⟩ := hlast.frames
      have hf := hvalid.frame f (hbefore.mem_iff.mpr List.mem_cons_self)
      rw [hstate]
      rcases (hf.leaves R hmeets).exchange with hsame |
        ⟨u, v, ⟨-, hu1, hu2⟩, ⟨-, hv1, hv2⟩, hexchange⟩
      · rw [hsame]
        exact ih hc hgood
      · obtain ⟨h0, hn, -⟩ := hf.inRange
        rw [hexchange]
        exact hswap _ _ _ _ (by omega) (by omega) (by omega) (by omega) (ih hc hgood)

/-- Reading the elements of the arrays, which an exchange permutes. -/
structure Observes (m : Machine σ τ P) (n : Int) (elem : τ → σ → Int → E) : Prop where
  exchanged : ∀ {t s u v k}, 0 ≤ u → u < n → 0 ≤ v → v < n → 0 ≤ k → k < n →
    elem t (m.swap t s u v) k = elem t s (Equiv.swap u v k)
  others : ∀ {t t' s u v k}, t ≠ t' → 0 ≤ u → u < n → 0 ≤ v → v < n → 0 ≤ k → k < n →
    elem t (m.swap t' s u v) k = elem t s k

/-- One list of places below `n` is a permutation of the other. -/
def Permuted (n : Int) (before after : Int → E) : Prop :=
  ∃ p : Equiv.Perm Int, (∀ k, (0 ≤ k ∧ k < n) ↔ (0 ≤ p k ∧ p k < n)) ∧
    ∀ k, 0 ≤ k → k < n → after k = before (p k)

theorem swap_inside {u v : Int} (hu : 0 ≤ u) (hu' : u < n) (hv : 0 ≤ v) (hv' : v < n) (k : Int) :
    (0 ≤ k ∧ k < n) ↔ (0 ≤ Equiv.swap u v k ∧ Equiv.swap u v k < n) := by
  rw [Equiv.swap_apply_def]
  split
  · omega
  · split <;> omega

theorem Rule.perm_of_steps (R : Rule m may n inv) {elem : τ → σ → Int → E} (O : Observes m n elem)
    (hc : Valid n inv c) (h : Steps m may k c d) (t : τ) :
    Permuted n (elem t c.state) (elem t d.state) := by
  refine R.stable_of_steps (fun s => Permuted n (elem t c.state) (elem t s)) ?_ hc h
    ⟨Equiv.refl _, fun _ => Iff.rfl, fun _ _ _ => rfl⟩
  rintro t' s u v hu hu' hv hv' ⟨p, hp, helem⟩
  by_cases htag : t = t'
  · subst htag
    refine ⟨(Equiv.swap u v).trans p, fun k => ?_, fun k hk hk' => ?_⟩
    · exact (swap_inside hu hu' hv hv' k).trans (hp _)
    · have hin := (swap_inside hu hu' hv hv' k).mp ⟨hk, hk'⟩
      rw [O.exchanged hu hu' hv hv' hk hk']
      exact helem _ hin.1 hin.2
  · refine ⟨p, hp, fun k hk hk' => ?_⟩
    rw [O.others htag hu hu' hv hv' hk hk']
    exact helem k hk hk'

/-- No range crosses a cut. -/
def Uncrossed (t : τ) (cut : Int) (c : Config σ τ P) : Prop :=
  ∀ f ∈ c.frames, (∀ k, f.Covers t k → k ≤ cut) ∨ (∀ k, f.Covers t k → cut < k)

/-- A run that no range crosses a cut in keeps the elements on their side of it. -/
theorem Rule.sides_of_steps (R : Rule m may n inv) {elem : τ → σ → Int → E} (O : Observes m n elem)
    {t : τ} {cut : Int} (hc : Valid n inv c) (h : Steps m may k c d) (hcut : Uncrossed t cut c) :
    Uncrossed t cut d ∧ ∀ a, 0 ≤ a → a < n → ∃ b, 0 ≤ b ∧ b < n ∧ (a ≤ cut ↔ b ≤ cut) ∧
      elem t d.state b = elem t c.state a := by
  induction h with
  | refl => exact ⟨hcut, fun a ha ha' => ⟨a, ha, ha', Iff.rfl, rfl⟩⟩
  | tail hfirst hlast ih =>
      obtain ⟨hsides, helems⟩ := ih hc hcut
      have hvalid := R.valid_of_steps hc hfirst
      obtain ⟨f, others, hbefore, hafter, hstate, hmeets⟩ := hlast.frames
      have hf := hvalid.frame f (hbefore.mem_iff.mpr List.mem_cons_self)
      have hleaves := hf.leaves R hmeets
      have hside := hsides f (hbefore.mem_iff.mpr List.mem_cons_self)
      refine ⟨fun g hg => ?_, fun a ha ha' => ?_⟩
      · rcases List.mem_append.mp (hafter.mem_iff.mp hg) with hchild | hother
        · exact hside.imp (fun hle k hk => hle k (hleaves.covers g hchild t k hk))
            (fun hlt k hk => hlt k (hleaves.covers g hchild t k hk))
        · exact hsides g (hbefore.mem_iff.mpr (List.mem_cons_of_mem _ hother))
      · obtain ⟨b, hb, hb', hab, helem⟩ := helems a ha ha'
        rw [hstate]
        rcases hleaves.exchange with hsame | ⟨u, v, hu, hv, hexchange⟩
        · rw [hsame]
          exact ⟨b, hb, hb', hab, helem⟩
        · obtain ⟨h0, hn, -⟩ := hf.inRange
          have hu0 : 0 ≤ u := h0.trans hu.2.1
          have hun : u < n := hu.2.2.trans_lt hn
          have hv0 : 0 ≤ v := h0.trans hv.2.1
          have hvn : v < n := hv.2.2.trans_lt hn
          rw [hexchange]
          by_cases htag : t = f.tag
          · subst htag
            have hin := (swap_inside hu0 hun hv0 hvn b).mp ⟨hb, hb'⟩
            refine ⟨Equiv.swap u v b, hin.1, hin.2, hab.trans ?_, ?_⟩
            · have huv : u ≤ cut ↔ v ≤ cut := by
                rcases hside with hle | hlt
                · exact iff_of_true (hle u hu) (hle v hv)
                · exact iff_of_false (not_le.mpr (hlt u hu)) (not_le.mpr (hlt v hv))
              rw [Equiv.swap_apply_def]
              split
              · next heq => rw [heq, huv]
              · split
                · next heq => rw [heq, huv]
                · rfl
            · rw [O.exchanged hu0 hun hv0 hvn hin.1 hin.2, Equiv.swap_apply_self, helem]
          · refine ⟨b, hb, hb', hab, ?_⟩
            rw [O.others htag hu0 hun hv0 hvn hb hb', helem]

end Elements

/-! ## Order -/

section Order

variable {σ τ P E : Type*} {m : Machine σ τ P} {may : Condition σ τ P} {n : Int}
variable {inv : τ → σ → Int → Int → Int → Int → P → Phase → Prop}

/-- Every two places are in order, or in the range of one frame. -/
def Sorting (n : Int) (le : E → E → Prop) (elem : τ → σ → Int → E) (c : Config σ τ P) : Prop :=
  ∀ t a b, 0 ≤ a → a < b → b < n →
    (∃ f ∈ c.frames, f.Covers t a ∧ f.Covers t b) ∨ le (elem t c.state a) (elem t c.state b)

/-- When a partition ends, the elements of its left part are below those of its right part. -/
def Parts (n : Int) (le : E → E → Prop) (elem : τ → σ → Int → E)
    (inv : τ → σ → Int → Int → Int → Int → P → Phase → Prop) : Prop :=
  ∀ t s l r i j p, InRange n l r → inv t s l r i j p .outer → j < i →
    ∀ a b, l ≤ a → a < i → j < b → b ≤ r → a < b → le (elem t s a) (elem t s b)

variable {le : E → E → Prop} {elem : τ → σ → Int → E} {a b : Int}

/-- A step keeps two places of its range together, unless they are in order. -/
theorem FrameOk.together (R : Rule m may n inv) (hparts : Parts n le elem inv) {s : σ}
    {f : Frame τ P} (h : FrameOk n inv s f) (hmeets : f.Meets may s) {t : τ} (ha : f.Covers t a)
    (hb : f.Covers t b) (hab : a < b) :
    (∃ g ∈ m.children s f, g.Covers t a ∧ g.Covers t b) ∨
      ((m.stepFrame s f).1 = s ∧ le (elem t s a) (elem t s b)) := by
  rcases (h.leaves R hmeets).goes_on with ⟨g, hg, hcovers⟩ | ⟨t', l, r, i, j, p, rfl, hji⟩
  · exact Or.inl ⟨g, hg, hcovers t a ha, hcovers t b hb⟩
  · obtain ⟨htag, hla, har⟩ := ha
    obtain ⟨-, hlb, hbr⟩ := hb
    simp only [Frame.tag, Frame.left, Frame.right] at htag hla har hlb hbr
    subst htag
    have hstate : (m.stepFrame s (.loop t' l r i j p .outer)).1 = s := by
      simp only [Machine.stepFrame, if_neg (not_le.mpr hji)]
      split <;> rfl
    by_cases hleft : b ≤ j
    · refine Or.inl ⟨.call t' l j, ?_, ⟨rfl, hla, hab.le.trans hleft⟩, ⟨rfl, hlb, hleft⟩⟩
      simp only [Machine.children, Machine.stepFrame, if_neg (not_le.mpr hji)]
      split
      · simp [show l < j by omega]
      · simp
    · by_cases hright : i ≤ a
      · refine Or.inl ⟨.call t' i r, ?_, ⟨rfl, hright, har⟩, ⟨rfl, hright.trans hab.le, hbr⟩⟩
        simp only [Machine.children, Machine.stepFrame, if_neg (not_le.mpr hji)]
        split
        · simp [show i < r by omega]
        · simp
      · have hle := hparts _ _ _ _ _ _ _ h.1 h.2 hji a b hla (not_le.mp hright)
          (not_le.mp hleft) hbr hab
        exact Or.inr ⟨hstate, hle⟩

/-- An exchange in the range of a frame keeps the order of two places that are not both in it,
and does not bring them into one range. -/
theorem swap_apart {f : Frame τ P} {others : List (Frame τ P)} (hapart : ∀ g ∈ others, Apart f g)
    {t : τ} {u v : Int} (hab : a < b) (hu : f.Covers t u) (hv : f.Covers t v)
    (hsplit : ¬ (f.Covers t a ∧ f.Covers t b))
    (hothers : ∀ g ∈ others, ¬ (g.Covers t a ∧ g.Covers t b)) :
    Equiv.swap u v a < Equiv.swap u v b ∧
      ∀ g ∈ f :: others, ¬ (g.Covers t (Equiv.swap u v a) ∧ g.Covers t (Equiv.swap u v b)) := by
  have hmoved : ∀ k, f.Covers t (Equiv.swap u v k) ↔ f.Covers t k := by
    intro k
    rw [Equiv.swap_apply_def]
    split
    · next h => exact ⟨fun _ => h ▸ hu, fun _ => hv⟩
    · split
      · next h => exact ⟨fun _ => h ▸ hv, fun _ => hu⟩
      · rfl
  have hfixed : ∀ k, ¬ f.Covers t k → Equiv.swap u v k = k := fun k hk =>
    Equiv.swap_apply_of_ne_of_ne (fun h => hk (h ▸ hu)) (fun h => hk (h ▸ hv))
  have hinside : ∀ k, f.Covers t k → f.left ≤ k ∧ k ≤ f.right := fun k hk => ⟨hk.2.1, hk.2.2⟩
  have houtside : ∀ k, ¬ f.Covers t k → k < f.left ∨ f.right < k := by
    intro k hk
    by_contra hnot
    exact hk ⟨hu.1, by omega, by omega⟩
  by_cases ha : f.Covers t a
  · have hb : ¬ f.Covers t b := fun hb => hsplit ⟨ha, hb⟩
    have ha' := (hmoved a).mpr ha
    rw [hfixed b hb]
    have h1 := hinside a ha
    have h2 := hinside _ ha'
    have h3 := houtside b hb
    refine ⟨by omega, fun g hg hboth => ?_⟩
    rcases List.mem_cons.mp hg with rfl | hg
    · exact hb hboth.2
    · exact hapart g hg t _ ha' hboth.1
  · rw [hfixed a ha]
    by_cases hb : f.Covers t b
    · have hb' := (hmoved b).mpr hb
      have h1 := hinside b hb
      have h2 := hinside _ hb'
      have h3 := houtside a ha
      refine ⟨by omega, fun g hg hboth => ?_⟩
      rcases List.mem_cons.mp hg with rfl | hg
      · exact ha hboth.1
      · exact hapart g hg t _ hb' hboth.2
    · rw [hfixed b hb]
      refine ⟨hab, fun g hg => ?_⟩
      rcases List.mem_cons.mp hg with rfl | hg
      · exact hsplit
      · exact hothers g hg

theorem Sorting.step (R : Rule m may n inv) (O : Observes m n elem) (hparts : Parts n le elem inv)
    {c d : Config σ τ P} (hvalid : Valid n inv c) (hc : Sorting n le elem c) (h : Step m may c d) :
    Sorting n le elem d := by
  obtain ⟨f, others, hbefore, hafter, hstate, hmeets⟩ := h.frames
  have hpairs := (hbefore.pairwise_iff Apart.symm).mp hvalid.apart
  rw [List.pairwise_cons] at hpairs
  have hf := hvalid.frame f (hbefore.mem_iff.mpr List.mem_cons_self)
  intro t a b ha hab hb
  by_cases hcommon : ∃ g ∈ d.frames, g.Covers t a ∧ g.Covers t b
  · exact Or.inl hcommon
  have hchild : ∀ g ∈ m.children c.state f, ¬ (g.Covers t a ∧ g.Covers t b) := fun g hg hboth =>
    hcommon ⟨g, hafter.mem_iff.mpr (List.mem_append_left _ hg), hboth⟩
  have hothers : ∀ g ∈ others, ¬ (g.Covers t a ∧ g.Covers t b) := fun g hg hboth =>
    hcommon ⟨g, hafter.mem_iff.mpr (List.mem_append_right _ hg), hboth⟩
  refine Or.inr ?_
  rw [hstate]
  by_cases hboth : f.Covers t a ∧ f.Covers t b
  · rcases hf.together R hparts hmeets hboth.1 hboth.2 hab with ⟨g, hg, hg'⟩ | ⟨hsame, hle⟩
    · exact absurd hg' (hchild g hg)
    · rwa [hsame]
  · have hordered : ∀ x y, 0 ≤ x → x < y → y < n →
        (∀ g ∈ f :: others, ¬ (g.Covers t x ∧ g.Covers t y)) →
        le (elem t c.state x) (elem t c.state y) := by
      intro x y hx hxy hy hnone
      rcases hc t x y hx hxy hy with ⟨g, hg, hg'⟩ | hle
      · exact absurd hg' (hnone g (hbefore.mem_iff.mp hg))
      · exact hle
    have hnone : ∀ g ∈ f :: others, ¬ (g.Covers t a ∧ g.Covers t b) := by
      intro g hg
      rcases List.mem_cons.mp hg with rfl | hg
      · exact hboth
      · exact hothers g hg
    rcases (hf.leaves R hmeets).exchange with hsame | ⟨u, v, hu, hv, hexchange⟩
    · rw [hsame]
      exact hordered a b ha hab hb hnone
    · obtain ⟨h0, hn, -⟩ := hf.inRange
      have hu0 : 0 ≤ u := h0.trans hu.2.1
      have hun : u < n := hu.2.2.trans_lt hn
      have hv0 : 0 ≤ v := h0.trans hv.2.1
      have hvn : v < n := hv.2.2.trans_lt hn
      rw [hexchange]
      by_cases htag : t = f.tag
      · subst htag
        rw [O.exchanged hu0 hun hv0 hvn ha (hab.trans hb),
          O.exchanged hu0 hun hv0 hvn (ha.trans hab.le) hb]
        have hswap := swap_apart hpairs.1 hab hu hv hboth hothers
        exact hordered _ _ ((swap_inside hu0 hun hv0 hvn a).mp ⟨ha, hab.trans hb⟩).1 hswap.1
          ((swap_inside hu0 hun hv0 hvn b).mp ⟨ha.trans hab.le, hb⟩).2 hswap.2
      · rw [O.others htag hu0 hun hv0 hvn ha (hab.trans hb),
          O.others htag hu0 hun hv0 hvn (ha.trans hab.le) hb]
        exact hordered a b ha hab hb hnone

theorem Rule.ordered_of_steps (R : Rule m may n inv) (O : Observes m n elem)
    (hparts : Parts n le elem inv) {k : Nat} {c d : Config σ τ P} (hvalid : Valid n inv c)
    (hc : Sorting n le elem c) (h : Steps m may k c d) (hend : d.frames = []) (t : τ) (ha : 0 ≤ a)
    (hab : a < b) (hb : b < n) : le (elem t d.state a) (elem t d.state b) := by
  have hd : Valid n inv d ∧ Sorting n le elem d :=
    h.invariant (fun c => Valid n inv c ∧ Sorting n le elem c)
      (fun _ _ hgood hstep => ⟨hgood.1.step R hstep, hgood.2.step R O hparts hgood.1 hstep⟩)
      ⟨hvalid, hc⟩
  rcases hd.2 t a b ha hab hb with ⟨f, hf, -⟩ | hle
  · rw [hend] at hf
    cases hf
  · exact hle

/-- Two permutations of the same elements that are in order are the same. -/
theorem Permuted.unique {size : Nat} {before e e' : Int → E} (le : E → E → Prop)
    (hle : ∀ a b, le a b → le b a → a = b) (h : Permuted size before e)
    (h' : Permuted size before e') (ho : ∀ i j : Int, 0 ≤ i → i < j → j < size → le (e i) (e j))
    (ho' : ∀ i j : Int, 0 ≤ i → i < j → j < size → le (e' i) (e' j)) {k : Int} (hk : 0 ≤ k)
    (hkn : k < size) : e k = e' k := by
  have hlist {after : Int → E} (h : Permuted size before after) :
      (List.ofFn fun k : Fin size => after k).Perm (List.ofFn fun k : Fin size => before k) := by
    obtain ⟨p, hinside, hafter⟩ := h
    have hin (k : Fin size) : 0 ≤ p k ∧ p k < size := (hinside k).mp ⟨by omega, by omega⟩
    let image (k : Fin size) : Fin size := ⟨(p k).toNat, by have := hin k; omega⟩
    have himage (k : Fin size) : (image k : Int) = p k := Int.toNat_of_nonneg (hin k).1
    have hinj : Function.Injective image := fun i j hij => Fin.ext (by
      exact_mod_cast p.injective (by rw [← himage, ← himage, hij] : p i = p j))
    have hcomp : (fun k : Fin size => after k) =
        (fun k : Fin size => before k) ∘ Equiv.ofBijective image hinj.bijective_of_finite :=
      funext fun k => (hafter k (by omega) (by omega)).trans (congrArg before (himage k).symm)
    rw [hcomp]
    exact Equiv.Perm.ofFn_comp_perm _ _
  have heq := ((hlist h).trans (hlist h').symm).eq_of_pairwise (fun a b _ _ => hle a b)
    (List.pairwise_ofFn.mpr fun i j hij => ho i j (by omega) (by simpa using hij) (by omega))
    (List.pairwise_ofFn.mpr fun i j hij => ho' i j (by omega) (by simpa using hij) (by omega))
  simpa [hk] using congrFun (List.ofFn_injective heq) ⟨k.toNat, by omega⟩

end Order
end HoareSort
