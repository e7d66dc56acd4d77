import LibND4J.Library.FirstBest
import LibND4J.Library.Runs

/-!
# Merging private results

The workers of a team have lists of blocks.  A worker absorbs the elements of its blocks into a
private result, and behind every block it merges the private result into one that all share.  The
merges of different workers come in any order.

Main results:

- Theorem `run_induction`: the rule for what the merges keep.
- Theorem `exists_run`: every run can be carried on until all blocks are done.
- Theorem `scan_run_cases` and theorem `exists_scan_run`: scans for a maximum end with
  the first of the greatest values of some worker, and with that of any worker that has one.
-/

namespace TeamMerges

variable {σ ι : Type*}

/-- The shared result, the private ones, and how many blocks the workers have done. -/
structure State (σ : Type*) where
  shared : σ
  own : Nat → σ
  next : Nat → Nat

/-- Nothing is done yet. -/
def State.initial (start : σ) : State σ where
  shared := start
  own := fun _ => start
  next := fun _ => 0

section Runs

variable (blocks : Nat → List (List ι)) (absorb : σ → ι → σ) (merge : σ → σ → σ)

/-- A worker does its next block and merges its result. -/
def step (s : State σ) (w : Nat) : Option (State σ) :=
  (blocks w)[s.next w]?.map fun block =>
    let own := block.foldl absorb (s.own w)
    { shared := merge s.shared own
      own := Function.update s.own w own
      next := Function.update s.next w (s.next w + 1) }

/-- The workers take turns. -/
def run (start : σ) (schedule : List Nat) : Option (State σ) :=
  schedule.foldlM (step blocks absorb merge) (.initial start)

/-- All blocks are done. -/
def Complete (s : State σ) : Prop :=
  ∀ w, (blocks w).length ≤ s.next w

/-- The elements of the first blocks of a worker. -/
def elements (w n : Nat) : List ι :=
  ((blocks w).take n).flatten

variable {blocks absorb merge} {w n : Nat} {s t : State σ} {start : σ}

theorem elements_succ {block : List ι} (h : (blocks w)[n]? = some block) :
    elements blocks w (n + 1) = elements blocks w n ++ block := by
  rw [elements, List.take_add_one, h, List.flatten_append]
  simp [elements]

theorem elements_prefix (blocks : Nat → List (List ι)) (w n : Nat) :
    elements blocks w n <+: (blocks w).flatten :=
  ⟨((blocks w).drop n).flatten, by
    rw [elements, ← List.flatten_append, List.take_append_drop]⟩

theorem elements_mono (w : Nat) {m : Nat} (h : n ≤ m) {p : ι} (hp : p ∈ elements blocks w n) :
    p ∈ elements blocks w m := by
  obtain ⟨block, hblock, hp⟩ := List.mem_flatten.mp hp
  exact List.mem_flatten.mpr ⟨block, (List.take_sublist_take_left h).subset hblock, hp⟩

theorem elements_of_le (h : (blocks w).length ≤ n) : elements blocks w n = (blocks w).flatten := by
  rw [elements, List.take_of_length_le h]

/-- What a step does. -/
theorem step_eq_some (h : step blocks absorb merge s w = some t) :
    ∃ block, (blocks w)[s.next w]? = some block ∧
      t.own = Function.update s.own w (block.foldl absorb (s.own w)) ∧
      t.next = Function.update s.next w (s.next w + 1) ∧
      t.shared = merge s.shared (block.foldl absorb (s.own w)) := by
  obtain ⟨block, hblock, rfl⟩ := Option.map_eq_some_iff.mp h
  exact ⟨block, hblock, rfl, rfl, rfl⟩

/-- A step is possible while a block is left. -/
theorem exists_step (absorb : σ → ι → σ) (merge : σ → σ → σ) (s : State σ)
    (h : s.next w < (blocks w).length) : ∃ t, step blocks absorb merge s w = some t := by
  rw [step, List.getElem?_eq_getElem h]
  exact ⟨_, rfl⟩

/-- The private results are the folds over the blocks done. -/
def Faithful (blocks : Nat → List (List ι)) (absorb : σ → ι → σ) (start : σ) (s : State σ) :
    Prop :=
  ∀ w, s.own w = (elements blocks w (s.next w)).foldl absorb start

theorem faithful_initial (start : σ) :
    Faithful blocks absorb start (.initial start) := by
  intro w
  rfl

theorem Faithful.step (hs : Faithful blocks absorb start s)
    (h : step blocks absorb merge s w = some t) :
    Faithful blocks absorb start t ∧ t.next = Function.update s.next w (s.next w + 1) ∧
      s.next w < (blocks w).length ∧
      t.shared = merge s.shared ((elements blocks w (s.next w + 1)).foldl absorb start) := by
  obtain ⟨block, hblock, hown, hnext, hshared⟩ := step_eq_some h
  have hfold : block.foldl absorb (s.own w) =
      (elements blocks w (s.next w + 1)).foldl absorb start := by
    rw [elements_succ hblock, List.foldl_append, hs w]
  refine ⟨fun v => ?_, hnext, (List.getElem?_eq_some_iff.mp hblock).1, hfold ▸ hshared⟩
  rw [hown, hnext]
  by_cases hv : v = w
  · subst hv
    rw [Function.update_self, Function.update_self, hfold]
  · rw [Function.update_of_ne hv, Function.update_of_ne hv, hs v]

/-- What holds at the start and is kept by the merge of the first blocks of any worker holds after
a run from a faithful state. -/
theorem foldlM_induction (inv : (Nat → Nat) → σ → Prop) {schedule : List Nat}
    (hstep : ∀ next shared, ∀ w ∈ schedule, inv next shared → next w < (blocks w).length →
      inv (Function.update next w (next w + 1))
        (merge shared ((elements blocks w (next w + 1)).foldl absorb start)))
    (hs : Faithful blocks absorb start s) (hinv : inv s.next s.shared)
    (hrun : schedule.foldlM (step blocks absorb merge) s = some t) :
    Faithful blocks absorb start t ∧ inv t.next t.shared := by
  refine @Runs.foldlM_invariant _ _ _
    (fun _ u => Faithful blocks absorb start u ∧ inv u.next u.shared) schedule ?_ s t
    ⟨hs, hinv⟩ hrun
  rintro done w rest u v hall ⟨hu, hinvu⟩ hv
  obtain ⟨hfaithful, hnext, hlt, hshared⟩ := hu.step hv
  rw [hnext, hshared]
  exact ⟨hfaithful, hstep _ _ w (hall ▸ List.mem_append_right _ (List.mem_cons_self ..)) hinvu hlt⟩

/-- What holds at the start and is kept by every merge holds after every run. -/
theorem run_induction (inv : (Nat → Nat) → σ → Prop) (hinitial : inv (fun _ => 0) start)
    (hstep : ∀ next shared w, inv next shared → next w < (blocks w).length →
      inv (Function.update next w (next w + 1))
        (merge shared ((elements blocks w (next w + 1)).foldl absorb start))) {schedule : List Nat}
    (hrun : run blocks absorb merge start schedule = some t) : inv t.next t.shared :=
  (foldlM_induction inv (fun next shared w _ => hstep next shared w) (faithful_initial start)
    hinitial hrun).2

/-- The state with its results mapped. -/
def State.map {τ : Type*} (f : σ → τ) (s : State σ) : State τ where
  shared := f s.shared
  own := fun w => f (s.own w)
  next := s.next

/-- Results that are mapped with what is done to them are those of the mapped run. -/
theorem run_map {τ : Type*} {f : σ → τ} {absorb' : τ → ι → τ} {merge' : τ → τ → τ}
    (habsorb : ∀ s i, f (absorb s i) = absorb' (f s) i)
    (hmerge : ∀ s t, f (merge s t) = merge' (f s) (f t)) (start : σ) (schedule : List Nat) :
    run blocks absorb' merge' (f start) schedule =
      (run blocks absorb merge start schedule).map (State.map f) := by
  have hfold : ∀ (block : List ι) (s : σ),
      f (block.foldl absorb s) = block.foldl absorb' (f s) := by
    intro block
    induction block with
    | nil => exact fun s => rfl
    | cons i block ih => exact fun s => by rw [List.foldl_cons, ih, habsorb, List.foldl_cons]
  have hstep : ∀ (s : State σ) (w : Nat), step blocks absorb' merge' (s.map f) w =
      (step blocks absorb merge s w).map (State.map f) := by
    intro s w
    rw [step, step, Option.map_map]
    congr 1
    funext block
    simp only [State.map, Function.comp_apply, hmerge, hfold]
    congr 1
    funext v
    by_cases hv : v = w
    · rw [hv, Function.update_self, Function.update_self, hfold]
    · rw [Function.update_of_ne hv, Function.update_of_ne hv]
  have hrun : ∀ (s : State σ), schedule.foldlM (step blocks absorb' merge') (s.map f) =
      (schedule.foldlM (step blocks absorb merge) s).map (State.map f) := by
    induction schedule with
    | nil => exact fun s => rfl
    | cons w schedule ih =>
        intro s
        rw [List.foldlM_cons, List.foldlM_cons, hstep]
        cases hs : step blocks absorb merge s w with
        | none => rfl
        | some t => exact ih t
  exact hrun (.initial start)

/-! ## Runs to the end -/

/-- A worker can do all of its blocks by itself. -/
theorem exists_solo (absorb : σ → ι → σ) (merge : σ → σ → σ) (s : State σ) (w : Nat) :
    ∃ (schedule : List Nat) (t : State σ), (∀ v ∈ schedule, v = w) ∧
      schedule.foldlM (step blocks absorb merge) s = some t ∧
      (blocks w).length ≤ t.next w ∧ ∀ v ≠ w, t.next v = s.next v := by
  generalize hleft : (blocks w).length - s.next w = left
  induction left generalizing s with
  | zero => exact ⟨[], s, by simp, rfl, by omega, fun v _ => rfl⟩
  | succ left ih =>
      obtain ⟨u, hu⟩ := exists_step absorb merge s
        (show s.next w < (blocks w).length by omega)
      obtain ⟨block, -, -, hnext, -⟩ := step_eq_some hu
      have hself : u.next w = s.next w + 1 := by rw [hnext, Function.update_self]
      obtain ⟨schedule, t, honly, hrun, hdone, hothers⟩ := ih u (by omega)
      refine ⟨w :: schedule, t, ?_, ?_, hdone, fun v hv => ?_⟩
      · intro v hv
        rcases List.mem_cons.mp hv with rfl | hv
        · rfl
        · exact honly v hv
      · rw [List.foldlM_cons, hu]
        exact hrun
      · rw [hothers v hv, hnext, Function.update_of_ne hv]

/-- Several workers can do all of their blocks, one after the other. -/
theorem exists_team (absorb : σ → ι → σ) (merge : σ → σ → σ) (s : State σ) (team : List Nat) :
    ∃ (schedule : List Nat) (t : State σ), (∀ v ∈ schedule, v ∈ team) ∧
      schedule.foldlM (step blocks absorb merge) s = some t ∧
      (∀ w ∈ team, (blocks w).length ≤ t.next w) ∧ ∀ v ∉ team, t.next v = s.next v := by
  induction team generalizing s with
  | nil => exact ⟨[], s, by simp, rfl, by simp, fun v _ => rfl⟩
  | cons w team ih =>
      obtain ⟨first, u, honly, hfirst, hdone, hothers⟩ :=
        exists_solo absorb merge s w
      obtain ⟨rest, t, hteam, hrest, hall, hkept⟩ := ih u
      refine ⟨first ++ rest, t, ?_, ?_, ?_, ?_⟩
      · intro v hv
        rcases List.mem_append.mp hv with hv | hv
        · exact honly v hv ▸ List.mem_cons_self ..
        · exact List.mem_cons_of_mem _ (hteam v hv)
      · rw [List.foldlM_append, hfirst]
        exact hrest
      · intro v hv
        by_cases hin : v ∈ team
        · exact hall v hin
        · rcases List.mem_cons.mp hv with rfl | hv
          · exact hkept v hin ▸ hdone
          · exact absurd hv hin
      · intro v hv
        rw [List.mem_cons, not_or] at hv
        rw [hkept v hv.2, hothers v hv.1]

/-- Every run of a team can be carried on to its end. -/
theorem exists_run (absorb : σ → ι → σ) (merge : σ → σ → σ) {threads : Nat}
    (hteam : ∀ w, threads ≤ w → blocks w = []) (s : State σ) :
    ∃ (schedule : List Nat) (t : State σ),
      schedule.foldlM (step blocks absorb merge) s = some t ∧ Complete blocks t := by
  obtain ⟨schedule, t, -, hrun, hdone, -⟩ :=
    exists_team absorb merge s (List.range threads)
  refine ⟨schedule, t, hrun, fun w => ?_⟩
  by_cases hw : w < threads
  · exact hdone w (List.mem_range.mpr hw)
  · rw [hteam w (Nat.le_of_not_lt hw)]
    exact Nat.zero_le _

/-- A run can leave any worker to the end. -/
theorem exists_run_last (absorb : σ → ι → σ) (merge : σ → σ → σ) {threads : Nat}
    (hteam : ∀ w, threads ≤ w → blocks w = []) (s : State σ) (w : Nat) :
    ∃ (others last : List Nat) (u t : State σ), (∀ v ∈ last, v = w) ∧
      others.foldlM (step blocks absorb merge) s = some u ∧
      last.foldlM (step blocks absorb merge) u = some t ∧ u.next w = s.next w ∧
      Complete blocks t := by
  obtain ⟨others, u, -, hothers, hdone, hkept⟩ :=
    exists_team absorb merge s ((List.range threads).filter (· ≠ w))
  obtain ⟨last, t, hlast, hrun, hself, hstay⟩ := exists_solo absorb merge u w
  refine ⟨others, last, u, t, hlast, hothers, hrun, hkept w (by simp), fun v => ?_⟩
  by_cases hv : v = w
  · rwa [hv]
  · rw [hstay v hv]
    by_cases hlt : v < threads
    · exact hdone v (by simpa using ⟨hlt, hv⟩)
    · rw [hteam v (Nat.le_of_not_lt hlt)]
      exact Nat.zero_le _

end Runs

/-! ## Scans for a maximum -/

section Scans

variable {κ T : Type*} [LinearOrder T]

/-- Keep a result unless another one is greater. -/
def pick (old new : T × κ) : T × κ :=
  if old.1 < new.1 then new else old

variable {blocks : Nat → List (List ι)} {before : ι → ι → Prop} {value : ι → T} {tag : ι → κ}
  {start : T × κ}

/-- The first of the greatest values of a worker so far, and no smaller than what was merged. -/
structure Leading (blocks : Nat → List (List ι)) (before : ι → ι → Prop) (value : ι → T)
    (next : Nat → Nat) (s : ι) : Prop where
  first : ∃ w, s ∈ elements blocks w (next w) ∧
    ∀ p ∈ (blocks w).flatten, before p s → value p < value s
  le : ∀ v, ∀ p ∈ elements blocks v (next v), value p ≤ value s

/-- The shared result is that of a leading element, or still the start. -/
def Merged (blocks : Nat → List (List ι)) (before : ι → ι → Prop) (value : ι → T) (tag : ι → κ)
    (start : T × κ) (next : Nat → Nat) (shared : T × κ) : Prop :=
  (shared = start ∧ ∀ v, ∀ p ∈ elements blocks v (next v), value p ≤ start.1) ∨
    ∃ s, Leading blocks before value next s ∧ start.1 < value s ∧ shared = (value s, tag s)

variable {next : Nat → Nat}

/-- A leading element stays the first of its worker. -/
theorem Leading.first_update {s : ι} (h : Leading blocks before value next s) (w : Nat) :
    ∃ v, s ∈ elements blocks v (Function.update next w (next w + 1) v) ∧
      ∀ p ∈ (blocks v).flatten, before p s → value p < value s := by
  obtain ⟨v, hs, hfirst⟩ := h.first
  refine ⟨v, ?_, hfirst⟩
  by_cases hv : v = w
  · subst hv
    rw [Function.update_self]
    exact elements_mono v (Nat.le_succ _) hs
  · rwa [Function.update_of_ne hv]

/-- Elements that exceed neither what was merged nor what is merged now. -/
theorem le_of_update {w : Nat} {bound : T}
    (hold : ∀ v, ∀ p ∈ elements blocks v (next v), value p ≤ bound)
    (hnew : ∀ p ∈ elements blocks w (next w + 1), value p ≤ bound) :
    ∀ v, ∀ p ∈ elements blocks v (Function.update next w (next w + 1) v), value p ≤ bound := by
  intro v p hp
  by_cases hv : v = w
  · subst hv
    rw [Function.update_self] at hp
    exact hnew p hp
  · rw [Function.update_of_ne hv] at hp
    exact hold v p hp

variable (hasymm : ∀ a b, before a b → ¬ before b a)

include hasymm

theorem Merged.step (hsorted : ∀ w, (blocks w).flatten.Pairwise before) {shared : T × κ}
    (h : Merged blocks before value tag start next shared) (w : Nat) :
    Merged blocks before value tag start (Function.update next w (next w + 1))
      (pick shared (FirstBest.scan value tag start (elements blocks w (next w + 1)))) := by
  obtain ⟨rest, hrest⟩ := elements_prefix blocks w (next w + 1)
  have hpairwise := hsorted w
  rw [← hrest, List.pairwise_append] at hpairwise
  obtain ⟨hpre, -, hafter⟩ := hpairwise
  rcases FirstBest.scan_cases hasymm value tag start hpre with ⟨hle, hscan⟩ | ⟨s, hs, hlt, hscan⟩
  · -- the worker brings nothing
    rw [hscan]
    rcases h with ⟨rfl, hall⟩ | ⟨s, hs, hlt, rfl⟩
    · refine Or.inl ⟨?_, le_of_update hall hle⟩
      rw [pick, ite_self]
    · exact Or.inr ⟨s, ⟨hs.first_update w, le_of_update hs.le fun p hp => (hle p hp).trans hlt.le⟩,
        hlt, if_neg hlt.le.not_gt⟩
  · rw [hscan]
    have hfirst : ∃ v, s ∈ elements blocks v (Function.update next w (next w + 1) v) ∧
        ∀ p ∈ (blocks v).flatten, before p s → value p < value s := by
      refine ⟨w, by rw [Function.update_self]; exact hs.mem, fun p hp hps => ?_⟩
      rw [← hrest] at hp
      rcases List.mem_append.mp hp with hp | hp
      · exact hs.lt p hp hps
      · exact absurd hps (hasymm s p (hafter s hs.mem p hp))
    rcases h with ⟨rfl, hall⟩ | ⟨u, hu, hult, rfl⟩
    · exact Or.inr ⟨s, ⟨hfirst, le_of_update (fun v p hp => (hall v p hp).trans hlt.le) hs.le⟩, hlt,
        if_pos hlt⟩
    · by_cases hus : value u < value s
      · exact Or.inr ⟨s, ⟨hfirst, le_of_update (fun v p hp => (hu.le v p hp).trans hus.le) hs.le⟩,
          hlt, if_pos hus⟩
      · have hsu := not_lt.mp hus
        exact Or.inr ⟨u, ⟨hu.first_update w, le_of_update hu.le fun p hp => (hs.le p hp).trans hsu⟩,
          hult, if_neg hus⟩

/-- At the end the shared result is that of the first of the greatest values of a worker, or no
value exceeds the start. -/
theorem scan_run_cases (hsorted : ∀ w, (blocks w).flatten.Pairwise before) {schedule : List Nat}
    {t : State (T × κ)}
    (hrun : run blocks (fun s p => pick s (value p, tag p)) pick start schedule = some t)
    (hcomplete : Complete blocks t) :
    ((∀ v, ∀ p ∈ (blocks v).flatten, value p ≤ start.1) ∧ t.shared = start) ∨
      ∃ w s, FirstBest.IsFirstMax before (blocks w).flatten value s ∧
        (∀ v, ∀ p ∈ (blocks v).flatten, value p ≤ value s) ∧ start.1 < value s ∧
          t.shared = (value s, tag s) := by
  have hmerged : Merged blocks before value tag start t.next t.shared := by
    refine run_induction (Merged blocks before value tag start) ?_ ?_ hrun
    · exact Or.inl ⟨rfl, by simp [elements]⟩
    · intro next shared w h _
      exact h.step hasymm hsorted w
  have hall : ∀ v, elements blocks v (t.next v) = (blocks v).flatten := fun v =>
    elements_of_le (hcomplete v)
  rcases hmerged with ⟨hshared, hle⟩ | ⟨s, ⟨⟨w, hs, hfirst⟩, hle⟩, hlt, hshared⟩
  · exact Or.inl ⟨fun v p hp => hle v p (by rwa [hall]), hshared⟩
  · have hle : ∀ v, ∀ p ∈ (blocks v).flatten, value p ≤ value s := fun v p hp =>
      hle v p (by rwa [hall])
    exact Or.inr ⟨w, s, ⟨hall w ▸ hs, hle w, hfirst⟩, hle, hlt, hshared⟩

/-- A result that nothing exceeds stays. -/
theorem pick_scan_of_le {shared : T × κ} {l : List ι} (hl : l.Pairwise before)
    (hstart : start.1 ≤ shared.1) (hle : ∀ p ∈ l, value p ≤ shared.1) :
    pick shared (FirstBest.scan value tag start l) = shared := by
  rcases FirstBest.scan_cases hasymm value tag start hl with ⟨-, hscan⟩ | ⟨s, hs, -, hscan⟩
  · rw [hscan]
    exact if_neg hstart.not_gt
  · rw [hscan]
    exact if_neg (hle s hs.mem).not_gt

omit hasymm

/-- The worker that comes first leaves its first greatest value, if no value is greater. -/
theorem exists_scan_run (tag : ι → κ) (start : T × κ) (hasymm : ∀ a b, before a b → ¬ before b a)
    (htotal : ∀ w, ∀ a ∈ (blocks w).flatten, ∀ b ∈ (blocks w).flatten, a ≠ b →
      before a b ∨ before b a)
    (hsorted : ∀ w, (blocks w).flatten.Pairwise before) {threads : Nat}
    (hteam : ∀ w, threads ≤ w → blocks w = []) {w : Nat} {s : ι}
    (hs : FirstBest.IsFirstMax before (blocks w).flatten value s) (hlt : start.1 < value s)
    (hle : ∀ v, ∀ p ∈ (blocks v).flatten, value p ≤ value s) :
    ∃ (schedule : List Nat) (t : State (T × κ)),
      run blocks (fun s p => pick s (value p, tag p)) pick start schedule = some t ∧
        Complete blocks t ∧ t.shared = (value s, tag s) := by
  let absorb (s : T × κ) (p : ι) := pick s (value p, tag p)
  obtain ⟨first, u, honly, hfirst, hdone, hothers⟩ :
      ∃ (schedule : List Nat) (t : State (T × κ)), (∀ v ∈ schedule, v = w) ∧
        schedule.foldlM (step blocks absorb pick) (.initial start) = some t ∧
        (blocks w).length ≤ t.next w ∧ ∀ v ≠ w, t.next v = 0 :=
    exists_solo absorb pick (.initial start) w
  obtain ⟨rest, t, hrest, hcomplete⟩ := exists_run absorb pick hteam u
  -- the first worker leaves its own first greatest value
  obtain ⟨hfaithful, hmerged⟩ : Faithful blocks absorb start u ∧
      Merged blocks before value tag start u.next u.shared := by
    refine foldlM_induction (Merged blocks before value tag start) ?_ (faithful_initial start) ?_
      hfirst
    · intro next shared v _ h _
      exact h.step hasymm hsorted v
    · exact Or.inl ⟨rfl, by simp [State.initial, elements]⟩
  have hseen : elements blocks w (u.next w) = (blocks w).flatten := elements_of_le hdone
  have hshared : u.shared = (value s, tag s) := by
    rcases hmerged with ⟨-, hbound⟩ | ⟨p, ⟨⟨v, hp, hbefore⟩, hbound⟩, -, hshared⟩
    · exact absurd hlt (hbound w s (hseen ▸ hs.mem)).not_gt
    · have hv : v = w := by
        by_contra hv
        rw [hothers v hv] at hp
        simp [elements] at hp
      subst hv
      rw [hseen] at hp
      have hpmax : FirstBest.IsFirstMax before (blocks v).flatten value p :=
        ⟨hp, fun q hq => hbound v q (by rwa [hseen]), hbefore⟩
      rw [hshared, hpmax.unique (htotal v) hs]
  have hkept : Faithful blocks absorb start t ∧ t.shared = (value s, tag s) := by
    refine foldlM_induction (fun _ shared => shared = (value s, tag s)) ?_ hfaithful hshared hrest
    rintro next shared v - rfl -
    have hinit := elements_prefix blocks v (next v + 1)
    exact pick_scan_of_le hasymm ((hsorted v).sublist hinit.sublist) hlt.le fun p hp =>
      hle v p (hinit.subset hp)
  refine ⟨first ++ rest, t, ?_, hcomplete, hkept.2⟩
  rw [run, List.foldlM_append, hfirst]
  exact hrest

end Scans
end TeamMerges
