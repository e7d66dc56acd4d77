import Mathlib.Data.List.Basic

/-!
# Runs of a state machine

A run applies a list of events to a state, one after the other.  The file relates a
property of every state a run reaches to a condition on each of its steps.

Main results:

- Theorem `pairwise_trace`: what every step relates in order, a run relates in order.
- Theorem `foldlM_invariant`: what every event keeps holds after a run that does not fail.
- Theorem `foldlM_simulates`: a run that cannot fail follows an abstract one.
- Theorem `StepRule.forall_trace_iff`: when an invariant is preserved exactly by
  the steps that meet the condition, every reached state is good exactly when every
  step meets the condition.
-/

namespace Runs

variable {σ ε : Type*}

/-- All states a run goes through, the first one included. -/
def trace (step : σ → ε → σ) : σ → List ε → List σ
  | s, [] => [s]
  | s, e :: es => s :: trace step (step s e) es

/-- Every step of the run meets a condition on the state before it and its event. -/
def Meets (step : σ → ε → σ) (cond : σ → ε → Prop) : σ → List ε → Prop
  | _, [] => True
  | s, e :: es => cond s e ∧ Meets step cond (step s e) es

/-- The rule of a step: the invariant implies the property, survives a step that meets
the condition, and a step into the property meets the condition. -/
structure StepRule (step : σ → ε → σ) (inv good : σ → Prop) (cond : σ → ε → Prop) : Prop where
  good_of_inv : ∀ s, inv s → good s
  preserved : ∀ s e, inv s → cond s e → inv (step s e)
  necessary : ∀ s e, inv s → good (step s e) → cond s e

section Rules

variable {step : σ → ε → σ} {inv good : σ → Prop} {cond : σ → ε → Prop}

theorem mem_trace_self (step : σ → ε → σ) (s : σ) (es : List ε) : s ∈ trace step s es := by
  cases es <;> simp [trace]

theorem trace_eq_cons (step : σ → ε → σ) (s : σ) (es : List ε) :
    trace step s es = s :: (trace step s es).tail := by
  cases es <;> rfl

/-- An invariant of every step holds in every state reached. -/
theorem forall_mem_trace (hstep : ∀ s e, inv s → inv (step s e)) {s : σ} (es : List ε)
    (hs : inv s) : ∀ t ∈ trace step s es, inv t := by
  induction es generalizing s with
  | nil =>
      intro t ht
      rw [trace, List.mem_singleton] at ht
      exact ht ▸ hs
  | cons e es ih =>
      intro t ht
      rcases List.mem_cons.mp ht with rfl | ht
      · exact hs
      · exact ih (hstep s e hs) t ht

/-- A transitive relation that holds along every step holds along the whole run. -/
theorem pairwise_trace {r : σ → σ → Prop}
    (htrans : ∀ {s t u}, r s t → r t u → r s u) (hstep : ∀ s e, r s (step s e)) (s : σ)
    (es : List ε) : (trace step s es).Pairwise r := by
  induction es generalizing s with
  | nil => exact List.pairwise_singleton r s
  | cons e es ih =>
      rw [trace, List.pairwise_cons]
      refine ⟨fun t ht => ?_, ih (step s e)⟩
      have hreach := @forall_mem_trace _ _ step (fun t => r s t)
        (fun t e hst => htrans hst (hstep t e)) (step s e) es (hstep s e)
      exact hreach t ht

theorem foldl_mem_trace (step : σ → ε → σ) (s : σ) (es : List ε) :
    es.foldl step s ∈ trace step s es := by
  induction es generalizing s with
  | nil => exact List.mem_singleton_self s
  | cons e es ih => exact List.mem_cons_of_mem _ (ih (step s e))

/-- What every event keeps, knowing those that came before it, holds after a run that does
not fail. -/
theorem foldlM_invariant {step : σ → ε → Option σ} {inv : List ε → σ → Prop} {all : List ε}
    (hstep : ∀ done e rest s t, all = done ++ e :: rest → inv done s → step s e = some t →
      inv (done ++ [e]) t)
    {s t : σ} (hs : inv [] s) (hrun : all.foldlM step s = some t) : inv all t := by
  have hrest : ∀ rest done s, all = done ++ rest → inv done s → rest.foldlM step s = some t →
      inv all t := by
    intro rest
    induction rest with
    | nil =>
        intro done s hall hs hrun
        rw [List.append_nil] at hall
        rw [List.foldlM_nil] at hrun
        exact hall ▸ Option.some.inj hrun ▸ hs
    | cons e rest ih =>
        intro done s hall hs hrun
        rw [List.foldlM_cons] at hrun
        obtain ⟨u, hu, hrun⟩ := Option.bind_eq_some_iff.mp hrun
        exact ih (done ++ [e]) u (by rw [hall, List.append_assoc, List.singleton_append])
          (hstep done e rest s u hall hs hu) hrun
  exact hrest all [] s rfl hs hrun

variable {κ : Type*}

/-- A run whose steps return follows an abstract run, if every step does. -/
theorem foldlM_simulates {τ : Type*} {step : σ → ε → Except κ σ} {next : τ → ε → τ}
    {R : σ → τ → Prop} {es : List ε}
    (hstep : ∀ e ∈ es, ∀ s t, R s t → ∃ s', step s e = .ok s' ∧ R s' (next t e)) {s : σ} {t : τ}
    (h : R s t) : ∃ s', es.foldlM step s = .ok s' ∧ R s' (es.foldl next t) := by
  induction es generalizing s t with
  | nil => exact ⟨s, rfl, h⟩
  | cons e es ih =>
      obtain ⟨s', hs', hR⟩ := hstep e List.mem_cons_self s t h
      obtain ⟨s'', hrun, hR'⟩ := ih (fun d hd => hstep d (List.mem_cons_of_mem _ hd)) hR
      exact ⟨s'', by rw [List.foldlM_cons, hs']; exact hrun, hR'⟩

/-- A run whose events all keep a state stays there. -/
theorem foldlM_of_fixed {step : σ → ε → Except κ σ} {s : σ} {es : List ε}
    (hfixed : ∀ e ∈ es, step s e = .ok s) : es.foldlM step s = .ok s := by
  induction es with
  | nil => rfl
  | cons e es ih =>
      rw [List.foldlM_cons, hfixed e List.mem_cons_self]
      exact ih fun d hd => hfixed d (List.mem_cons_of_mem _ hd)

/-- A run with an event that fails in every state fails. -/
theorem foldlM_of_failing {step : σ → ε → Except κ σ} {e : ε}
    (hfails : ∀ s, ∃ x, step s e = .error x) {es : List ε} (he : e ∈ es) (s : σ) :
    ∃ x, es.foldlM step s = .error x := by
  induction es generalizing s with
  | nil => cases he
  | cons d es ih =>
      rw [List.foldlM_cons]
      cases hd : step s d with
      | error x => exact ⟨x, rfl⟩
      | ok t =>
          rcases List.mem_cons.mp he with rfl | he
          · obtain ⟨x, hx⟩ := hfails s
            rw [hd] at hx
            cases hx
          · exact ih he t

/-- A run meets a condition when its first part does, and the rest does from there. -/
theorem meets_append {s : σ} {es fs : List ε} :
    Meets step cond s (es ++ fs) ↔ Meets step cond s es ∧ Meets step cond (es.foldl step s) fs := by
  induction es generalizing s with
  | nil => exact (true_and _).to_iff.symm
  | cons e es ih =>
      simp only [List.cons_append, Meets, List.foldl_cons]
      rw [ih, and_assoc]

/-- A run whose steps all meet the condition keeps the invariant. -/
theorem StepRule.inv_of_meets (h : StepRule step inv good cond) {s : σ} {es : List ε}
    (hs : inv s) (hmeets : Meets step cond s es) : ∀ t ∈ trace step s es, inv t := by
  induction es generalizing s with
  | nil =>
      intro t ht
      rw [trace, List.mem_singleton] at ht
      exact ht ▸ hs
  | cons e es ih =>
      intro t ht
      rcases List.mem_cons.mp ht with rfl | ht
      · exact hs
      · exact ih (h.preserved s e hs hmeets.1) hmeets.2 t ht

/-- Every reached state is good exactly when every step meets the condition. -/
theorem StepRule.forall_trace_iff (h : StepRule step inv good cond) {s : σ} {es : List ε}
    (hs : inv s) : (∀ t ∈ trace step s es, good t) ↔ Meets step cond s es := by
  constructor
  · intro hgood
    induction es generalizing s with
    | nil => trivial
    | cons e es ih =>
        have hnext : good (step s e) :=
          hgood _ (List.mem_cons_of_mem _ (mem_trace_self step (step s e) es))
        have hcond : cond s e := h.necessary s e hs hnext
        exact ⟨hcond, ih (h.preserved s e hs hcond) fun t ht =>
          hgood t (List.mem_cons_of_mem _ ht)⟩
  · intro hmeets t ht
    exact h.good_of_inv t (h.inv_of_meets hs hmeets t ht)

end Rules
end Runs
