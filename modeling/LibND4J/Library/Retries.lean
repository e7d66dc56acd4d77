import Mathlib.Data.List.Forall2
import Mathlib.Data.Nat.Find
import Mathlib.Logic.Function.Iterate

/-!
# Loops that retry until an attempt is accepted

Such a loop makes an attempt from a state, and moves on to the next state while the attempt is
rejected.  It ends exactly if some attempt is accepted, with the first such attempt.  Several
loops that do not depend on each other all end if each of them does.

Main results:

- Theorem `retry_eq_some_iff`: the result of a loop is its first accepted attempt.
- Theorem `exists_retry_iff`: a loop ends exactly if some attempt is accepted.
- Theorem `exists_mapM_retry`: a list of loops that all end.
-/

namespace Retries

variable {σ α ι : Type*} {attempt : σ → α} {rejected : α → Prop} [DecidablePred rejected]
  {next : σ → σ}

/-- Attempts from the states `s`, `next s`, ... until one is not rejected. -/
def retry (attempt : σ → α) (rejected : α → Prop) [DecidablePred rejected] (next : σ → σ) :
    Nat → σ → Option α
  | 0, _ => none
  | fuel + 1, s =>
      if rejected (attempt s) then retry attempt rejected next fuel (next s) else some (attempt s)

variable {s : σ}

/-- The loop returns the first attempt that is not rejected. -/
theorem retry_eq_some_iff {fuel : Nat} {a : α} :
    retry attempt rejected next fuel s = some a ↔
      ∃ k < fuel, (∀ j < k, rejected (attempt (next^[j] s))) ∧
        ¬ rejected (attempt (next^[k] s)) ∧ attempt (next^[k] s) = a := by
  induction fuel generalizing s with
  | zero => simp [retry]
  | succ fuel ih =>
      rw [retry]
      by_cases hfirst : rejected (attempt s)
      · rw [if_pos hfirst, ih]
        constructor
        · rintro ⟨k, hk, hbefore, haccepted, heq⟩
          refine ⟨k + 1, Nat.succ_lt_succ hk, fun j hj => ?_, haccepted, heq⟩
          cases j with
          | zero => exact hfirst
          | succ j => exact hbefore j (Nat.lt_of_succ_lt_succ hj)
        · rintro ⟨k, hk, hbefore, haccepted, heq⟩
          cases k with
          | zero => exact absurd hfirst haccepted
          | succ k =>
              exact ⟨k, Nat.lt_of_succ_lt_succ hk,
                fun j hj => hbefore (j + 1) (Nat.succ_lt_succ hj), haccepted, heq⟩
      · rw [if_neg hfirst, Option.some.injEq]
        constructor
        · intro heq
          exact ⟨0, Nat.succ_pos fuel, fun j hj => absurd hj (Nat.not_lt_zero j), hfirst, heq⟩
        · rintro ⟨k, -, hbefore, -, heq⟩
          cases k with
          | zero => exact heq
          | succ k => exact absurd (hbefore 0 (Nat.succ_pos k)) hfirst

/-- More fuel does not change a result. -/
theorem retry_of_le {fuel fuel' : Nat} (hle : fuel ≤ fuel') {a : α}
    (h : retry attempt rejected next fuel s = some a) :
    retry attempt rejected next fuel' s = some a := by
  obtain ⟨k, hk, hrest⟩ := retry_eq_some_iff.mp h
  exact retry_eq_some_iff.mpr ⟨k, Nat.lt_of_lt_of_le hk hle, hrest⟩

/-- The loop ends exactly if some attempt is accepted. -/
theorem exists_retry_iff :
    (∃ fuel a, retry attempt rejected next fuel s = some a) ↔
      ∃ k, ¬ rejected (attempt (next^[k] s)) := by
  classical
  constructor
  · rintro ⟨fuel, a, h⟩
    obtain ⟨k, -, -, haccepted, -⟩ := retry_eq_some_iff.mp h
    exact ⟨k, haccepted⟩
  · intro h
    refine ⟨Nat.find h + 1, attempt (next^[Nat.find h] s), retry_eq_some_iff.mpr
      ⟨Nat.find h, Nat.lt_succ_self _, fun j hj => ?_, Nat.find_spec h, rfl⟩⟩
    exact not_not.mp (Nat.find_min h hj)

/-! ## Several loops -/

theorem mapM_eq_some_iff {β : Type*} {f : ι → Option β} {is : List ι} {as : List β} :
    is.mapM f = some as ↔ List.Forall₂ (fun i a => f i = some a) is as := by
  induction is generalizing as with
  | nil =>
      rw [List.mapM_nil, List.forall₂_nil_left_iff]
      exact Option.some_inj.trans eq_comm
  | cons i is ih =>
      rw [List.mapM_cons, List.forall₂_cons_left_iff]
      cases hf : f i with
      | none => simp
      | some a =>
          have hsplit : (do let b ← some a; let bs ← is.mapM f; pure (b :: bs)) = some as ↔
              ∃ bs, is.mapM f = some bs ∧ a :: bs = as := by
            cases is.mapM f <;> simp
          rw [hsplit]
          constructor
          · rintro ⟨bs, hbs, rfl⟩
            exact ⟨a, bs, rfl, ih.mp hbs, rfl⟩
          · rintro ⟨b, bs, hb, hall, rfl⟩
            exact ⟨bs, ih.mpr hall, by rw [Option.some.inj hb]⟩

variable {attempts : ι → σ → α} {rejects : ι → α → Prop} [∀ i, DecidablePred (rejects i)]

/-- Loops that all end, end with a common fuel. -/
theorem exists_mapM_retry {is : List ι} {start : ι → σ}
    (h : ∀ i ∈ is, ∃ k, ¬ rejects i (attempts i (next^[k] (start i)))) :
    ∃ fuel as,
      is.mapM (fun i => retry (attempts i) (rejects i) next fuel (start i)) = some as := by
  induction is with
  | nil => exact ⟨0, [], rfl⟩
  | cons i is ih =>
      obtain ⟨fuel, as, hrest⟩ := ih fun j hj => h j (List.mem_cons_of_mem _ hj)
      obtain ⟨fuel', a, hfirst⟩ := exists_retry_iff.mpr (h i List.mem_cons_self)
      refine ⟨max fuel fuel', a :: as, mapM_eq_some_iff.mpr (.cons ?_ ?_)⟩
      · exact retry_of_le (Nat.le_max_right _ _) hfirst
      · exact (mapM_eq_some_iff.mp hrest).imp fun _ _ hj => retry_of_le (Nat.le_max_left _ _) hj

end Retries
