import Mathlib.Data.List.Pairwise
import LibND4J.Graph.Executioner

/-!
# Execution and dataflow

A graph denotes a value for every node: a pure expression over the external variables.
In-place nodes destroy the values they read, so a run computes these values only as
long as nobody reads a buffer that has been written again.  The invariant of a run keeps
the values that are still to be read in buffers of their own.

Main results:

- Theorem `executeFlatNode_keeps`: one node keeps the invariant.
- Theorem `execute_dataflow`: when no external variable is used after it has been
  overwritten, the nodes without consumers end with the values of the dataflow graph,
  in whatever order a layer is executed.
- Theorem `not_execute_dataflow_always`: two nodes of one layer that consume the
  same external variable.
-/

namespace LibND4J
namespace Graph

open RunState

variable {T : Type}

/-! ## The dataflow graph -/

/-- The value of an id as a pure expression over the external variables. -/
inductive Evaluates (ops : List (Operation T)) (external : Int → Option (List T)) :
    Int → List T → Prop where
  | external {id : Int} {v : List T} : id < 0 → external id = some v → Evaluates ops external id v
  | unary {op : Operation T} {p : Int × Int} {v : List T} :
      op ∈ ops → op.input = [p] → Evaluates ops external p.1 v →
        Evaluates ops external op.id (op.unary v)
  | binary {op : Operation T} {p q : Int × Int} {v w : List T} :
      op ∈ ops → op.input = [p, q] → Evaluates ops external p.1 v → Evaluates ops external q.1 w →
        Evaluates ops external op.id (op.binary v w)

/-! ## What a run keeps -/

/-- The graphs covered: distinct positive ids, one or two inputs, and outputs that name the
consumers and are never 0. -/
structure Dataflow (ops : List (Operation T)) : Prop where
  ids : (ops.map fun n => n.id).Nodup
  positive : ∀ n ∈ ops, 0 < n.id
  arity : ∀ n ∈ ops, (∃ p, n.input = [p] ∧ p.2 = 0) ∨
    (n.opType = .transform ∧ ∃ p q, n.input = [p, q] ∧ p.2 = 0 ∧ q.2 = 0)
  consumers : ∀ n ∈ ops, ∀ p ∈ ops, p.id ∈ n.inputIds → n.id ∈ p.output
  nonzero : ∀ n ∈ ops, 0 ∉ n.output

/-- External variables named as outputs are filed, and all the results handed to one have the
length of the array it holds already. -/
def Fits (ops : List (Operation T)) (start : RunState T) (length : Int → Nat) : Prop :=
  ∀ n ∈ ops, ∀ e ∈ n.output, e < 0 → (start.vars e).isSome ∧
    (∀ v, Evaluates ops start.contents n.id v → v.length = length e) ∧
      ∀ w, start.contents e = some w → w.length = length e

/-- The states to start from: the nodes have no arrays, the arrays of other variables have
buffers of their own, and external variables can hold what is handed to them. -/
structure Prepared (ops : List (Operation T)) (start : RunState T) : Prop where
  empty : ∀ n ∈ ops, start.vars n.id = some none
  old : ∀ id a, start.array id = some a → a.buffer < start.next
  apart : ∀ id id' a a', start.array id = some a → start.array id' = some a' →
    a.buffer = a'.buffer → id = id'
  fits : ∃ length, Fits ops start length

/-- After the first node the second one must not run: an external variable that has been
consumed in place is used again, or one that has been written is consumed. -/
def Interferes (c n : Operation T) : Prop :=
  ∃ e, e < 0 ∧ ((c.inputIds = [e] ∧ (e ∈ n.inputIds ∨ e ∈ n.output)) ∨
    (e ∈ c.output ∧ e ∈ n.inputIds))

/-- Only the ids a node names can interfere, so that interference can be decided. -/
theorem interferes_iff (c n : Operation T) :
    Interferes c n ↔ ∃ e ∈ c.inputIds ++ c.output, e < 0 ∧
      ((c.inputIds = [e] ∧ (e ∈ n.inputIds ∨ e ∈ n.output)) ∨ (e ∈ c.output ∧ e ∈ n.inputIds)) := by
  constructor
  · rintro ⟨e, he, h⟩
    refine ⟨e, List.mem_append.mpr ?_, he, h⟩
    rcases h with ⟨hinput, -⟩ | ⟨hout, -⟩
    · left
      rw [hinput]
      exact List.mem_singleton_self e
    · exact Or.inr hout
  · rintro ⟨e, -, he, h⟩
    exact ⟨e, he, h⟩

instance (c n : Operation T) : Decidable (Interferes c n) :=
  decidable_of_iff _ (interferes_iff c n).symm

/-- No node of a list has worked in place on the array of the id. -/
def Untaken (mapped : Int → Option (Operation T)) (done : List (Operation T)) (id : Int) : Prop :=
  ∀ c ∈ done, ¬ (c.inputIds = [id] ∧ branches mapped id = some false)

/-- The ids that have a value: external variables with an array, and executed nodes. -/
def Available (start : RunState T) (done : List (Operation T)) (id : Int) : Prop :=
  (id < 0 ∧ (start.contents id).isSome) ∨ ∃ p ∈ done, p.id = id

/-- After some nodes have been executed and some external variables overwritten, the other
values are in buffers of their own. -/
structure Keeps (ops : List (Operation T)) (start : RunState T) (length : Int → Nat)
    (done : List (Operation T)) (overwritten : Set Int) (s : RunState T) : Prop where
  pending : ∀ n ∈ ops, n ∉ done → s.vars n.id = some none
  filed : ∀ e, e < 0 → (start.vars e).isSome → (s.vars e).isSome
  old : ∀ id a, s.array id = some a → a.buffer < s.next
  apart : ∀ id id' a a', Untaken (mappedIn ops) done id → Untaken (mappedIn ops) done id' →
    s.array id = some a → s.array id' = some a' → a.buffer = a'.buffer → id = id'
  values : ∀ id, Available start done id → Untaken (mappedIn ops) done id → id ∉ overwritten →
    ∃ a, s.array id = some a ∧ Evaluates ops start.contents id (s.heap a.buffer)
  lengths : ∀ e, e < 0 → Untaken (mappedIn ops) done e → (∃ n ∈ ops, e ∈ n.output) →
    ∀ a, s.array e = some a → (s.heap a.buffer).length = length e

theorem Untaken.subset {mapped : Int → Option (Operation T)} {done done' : List (Operation T)}
    {id : Int} (h : Untaken mapped done' id) (hsub : done ⊆ done') : Untaken mapped done id :=
  fun c hc => h c (hsub hc)

section Keeps

variable {ops done done' : List (Operation T)} {start s : RunState T} {length : Int → Nat}
  {overwritten overwritten' : Set Int}

/-- Filing an array whose buffer is not one of those to keep. -/
theorem Keeps.update (hs : Keeps ops start length done overwritten s) {s' : RunState T} {id : Int}
    {a : NDArray} {elements : List T}
    (hvars : s'.vars = Function.update s.vars id (some (some a)))
    (hheap : s'.heap = Function.update s.heap a.buffer elements)
    (hnext : s.next ≤ s'.next) (hbuffer : a.buffer < s'.next)
    (hdone : done ⊆ done') (hover : overwritten ⊆ overwritten')
    (hapart : ∀ k b, k ≠ id → Untaken (mappedIn ops) done' k → s.array k = some b →
      b.buffer ≠ a.buffer)
    (hpending : ∀ n ∈ ops, n ∉ done' → n.id ≠ id)
    (havailable : ∀ k, k ≠ id → Available start done' k → Available start done k)
    (hvalue : Available start done' id → Untaken (mappedIn ops) done' id → id ∉ overwritten' →
      Evaluates ops start.contents id elements)
    (hlength : id < 0 → Untaken (mappedIn ops) done' id → (∃ n ∈ ops, id ∈ n.output) →
      elements.length = length id) :
    Keeps ops start length done' overwritten' s' := by
  have hself : s'.array id = some a := by
    simp [array, hvars]
  have hothers : ∀ k, k ≠ id → s'.array k = s.array k := by
    intro k hk
    simp [array, hvars, hk]
  have hwritten : s'.heap a.buffer = elements := by
    rw [hheap, Function.update_self]
  have hkept : ∀ k b, k ≠ id → Untaken (mappedIn ops) done' k → s.array k = some b →
      s'.heap b.buffer = s.heap b.buffer := by
    intro k b hk huntaken hb
    rw [hheap, Function.update_of_ne (hapart k b hk huntaken hb)]
  constructor
  · intro n hn hnot
    rw [hvars, Function.update_of_ne (hpending n hn hnot)]
    exact hs.pending n hn fun h => hnot (hdone h)
  · intro e he hfiled
    rw [hvars, Function.update_apply]
    split
    · rfl
    · exact hs.filed e he hfiled
  · intro k b hb
    by_cases h : k = id
    · subst h
      rw [hself] at hb
      exact Option.some.inj hb ▸ hbuffer
    · rw [hothers k h] at hb
      exact (hs.old k b hb).trans_le hnext
  · intro k k' b b' hk hk' hb hb' hsame
    by_cases h : k = id <;> by_cases h' : k' = id
    · exact h.trans h'.symm
    · subst h
      rw [hself] at hb
      rw [hothers k' h'] at hb'
      obtain rfl := Option.some.inj hb
      exact absurd hsame.symm (hapart k' b' h' hk' hb')
    · subst h'
      rw [hothers k h] at hb
      rw [hself] at hb'
      obtain rfl := Option.some.inj hb'
      exact absurd hsame (hapart k b h hk hb)
    · rw [hothers k h] at hb
      rw [hothers k' h'] at hb'
      exact hs.apart k k' b b' (hk.subset hdone) (hk'.subset hdone) hb hb' hsame
  · intro k havail hk hnot
    by_cases h : k = id
    · subst h
      exact ⟨a, hself, hwritten ▸ hvalue havail hk hnot⟩
    · obtain ⟨b, hb, hvalue⟩ := hs.values k (havailable k h havail) (hk.subset hdone)
        fun hmem => hnot (hover hmem)
      refine ⟨b, (hothers k h).trans hb, ?_⟩
      rw [hkept k b h hk hb]
      exact hvalue
  · intro e he hk hnamed b hb
    by_cases h : e = id
    · subst h
      rw [hself] at hb
      rw [← Option.some.inj hb, hwritten]
      exact hlength he hk hnamed
    · rw [hothers e h] at hb
      rw [hkept e b h hk hb]
      exact hs.lengths e he (hk.subset hdone) hnamed b hb

/-- While a node hands out its result: a taken output still shares the buffer of the result. -/
structure Announces (ops : List (Operation T)) (start : RunState T) (length : Int → Nat)
    (done : List (Operation T)) (overwritten : Set Int) (n : Operation T) (z : NDArray)
    (s : RunState T) : Prop where
  keeps : Keeps ops start length done overwritten s
  result : s.array n.id = some z
  shared : ∀ e ∈ n.output, e < 0 → ¬ Untaken (mappedIn ops) done e →
    ∃ a, s.array e = some a ∧ a.buffer = z.buffer

variable {n : Operation T}

/-- Handing the result to one external variable. -/
theorem Announces.announceTo (hops : Dataflow ops) {z : NDArray}
    (hs : Announces ops start length done overwritten n z s) (hn : n ∈ ops)
    (huntaken : Untaken (mappedIn ops) done n.id) (hdone : n ∈ done)
    (hover : ∀ e ∈ overwritten, e < 0) {e : Int} (he : e < 0) (hout : e ∈ n.output)
    (hmem : e ∈ overwritten) (hfiled : (start.vars e).isSome)
    (hfits : ∀ v, Evaluates ops start.contents n.id v → v.length = length e) :
    ∃ s', Graph.announceTo z s e = some s' ∧
      Announces ops start length done overwritten n z s' := by
  have hpos := hops.positive n hn
  obtain ⟨z', hz', hvalue⟩ := hs.keeps.values n.id (Or.inr ⟨n, hdone, rfl⟩) huntaken
    fun h => absurd (hover _ h) (by omega)
  obtain rfl : z = z' := Option.some.inj (hs.result.symm.trans hz')
  have hlength := hfits _ hvalue
  obtain ⟨out, hout'⟩ := Option.isSome_iff_exists.mp (hs.keeps.filed e he hfiled)
  unfold Graph.announceTo
  rw [hout']
  cases out with
  | none =>
      have harray : s.array e = none := by
        rw [RunState.array, hout']
        rfl
      have hvars : (s.putCopy e z).vars =
          Function.update s.vars e (some (some ⟨s.next, s.next⟩)) := rfl
      refine ⟨_, rfl, ?_, ?_, ?_⟩
      · apply hs.keeps.update hvars rfl (Nat.le_succ _) (Nat.lt_succ_self _) (fun _ h => h)
          (fun _ h => h)
        · intro k b _ _ hb
          exact (hs.keeps.old k b hb).ne
        · intro m hm _
          have := hops.positive m hm
          omega
        · exact fun k _ h => h
        · exact fun _ _ hnot => absurd hmem hnot
        · exact fun _ _ _ => hlength
      · have hne : n.id ≠ e := by omega
        simpa [RunState.array, putCopy, hne] using hs.result
      · intro k hk hneg htaken
        obtain ⟨b, hb, hbuffer⟩ := hs.shared k hk hneg htaken
        have hne : k ≠ e := by
          rintro rfl
          rw [harray] at hb
          exact absurd hb (by simp)
        refine ⟨b, ?_, hbuffer⟩
        simpa [RunState.array, putCopy, hne] using hb
  | some a =>
      have harray : s.array e = some a := by
        rw [RunState.array, hout']
        rfl
      by_cases hobject : a.object = z.object
      · exact ⟨s, by simp [hobject], hs⟩
      · by_cases hbuffer : a.buffer = z.buffer
        · refine ⟨s, ?_, hs⟩
          simp only [if_neg hobject, hbuffer, ne_eq, not_true_eq_false, if_false]
          rw [write, Function.update_eq_self]
        · have hfree : Untaken (mappedIn ops) done e := by
            by_contra htaken
            obtain ⟨b, hb, hsame⟩ := hs.shared e hout he htaken
            obtain rfl := Option.some.inj (harray.symm.trans hb)
            exact hbuffer hsame
          have hold := hs.keeps.lengths e he hfree ⟨n, hn, hout⟩ a harray
          have hvars : (s.write a.buffer (s.heap z.buffer)).vars =
              Function.update s.vars e (some (some a)) := by
            rw [← hout', Function.update_eq_self]
            rfl
          refine ⟨s.write a.buffer (s.heap z.buffer), by simp [hobject, hold, hlength], ?_,
            hs.result, hs.shared⟩
          apply hs.keeps.update hvars rfl le_rfl (hs.keeps.old e a harray) (fun _ h => h)
            (fun _ h => h)
          · intro k b hk huntaken hb hsame
            exact hk (hs.keeps.apart k e b a huntaken hfree hb harray hsame)
          · intro m hm _
            have := hops.positive m hm
            omega
          · exact fun k _ h => h
          · exact fun _ _ hnot => absurd hmem hnot
          · exact fun _ _ _ => hlength

/-- The loop over the outputs hands the result to the external ones. -/
theorem Announces.foldlM (hops : Dataflow ops) {z : NDArray}
    (hs : Announces ops start length done overwritten n z s) (hn : n ∈ ops)
    (huntaken : Untaken (mappedIn ops) done n.id) (hdone : n ∈ done)
    (hover : ∀ e ∈ overwritten, e < 0) {skipped : Int → Bool} {outputs : List Int}
    (hskip : ∀ e ∈ n.output, skipped e = true ↔ 0 < e) (hsub : outputs ⊆ n.output)
    (hfits : ∀ e ∈ n.output, e < 0 → e ∈ overwritten ∧ (start.vars e).isSome ∧
      ∀ v, Evaluates ops start.contents n.id v → v.length = length e) :
    ∃ s', outputs.foldlM
        (fun s e => if skipped e then some s else Graph.announceTo z s e) s = some s' ∧
      Announces ops start length done overwritten n z s' := by
  induction outputs generalizing s with
  | nil => exact ⟨s, rfl, hs⟩
  | cons e outputs ih =>
      have hout : e ∈ n.output := hsub List.mem_cons_self
      have hrest : outputs ⊆ n.output := fun k hk => hsub (List.mem_cons_of_mem _ hk)
      rw [List.foldlM_cons]
      by_cases hskipped : skipped e = true
      · rw [if_pos hskipped]
        exact ih hs hrest
      · have hne : e ≠ 0 := fun h => hops.nonzero n hn (h ▸ hout)
        have hneg : e < 0 := by
          have := mt (hskip e hout).mpr hskipped
          omega
        obtain ⟨hmem, hfiled, hlength⟩ := hfits e hout hneg
        obtain ⟨s', hs', hnext⟩ :=
          hs.announceTo hops hn huntaken hdone hover hneg hout hmem hfiled hlength
        rw [if_neg hskipped, hs']
        exact ih hnext hrest

/-- The external variables that have been handed a result. -/
def written (done : List (Operation T)) : Set Int :=
  {e | e < 0 ∧ ∃ w ∈ done, e ∈ w.output}

/-- The producers of a list come first, and no node runs after one it must not follow. -/
structure Scheduled (start : RunState T) (ops : List (Operation T)) : Prop where
  known : ∀ n ∈ ops, ∀ q ∈ n.inputIds,
    (q < 0 ∧ (start.contents q).isSome) ∨ ∃ p ∈ ops, p.id = q
  proper : ∀ n ∈ ops, n.id ∉ n.inputIds
  order : ops.Pairwise fun c n => n.id ∉ c.inputIds ∧ ¬ Interferes c n

theorem Dataflow.eq_of_id_eq (hops : Dataflow ops) {m : Operation T} (hm : m ∈ ops) (hn : n ∈ ops)
    (h : m.id = n.id) : m = n :=
  List.inj_on_of_nodup_map hops.ids hm hn h

theorem mappedIn_eq (hops : Dataflow ops) {p : Operation T} (hp : p ∈ ops) :
    mappedIn ops p.id = some p :=
  find?_key_eq hops.ids hp

section Node

variable {n : Operation T} {rest : List (Operation T)} {q : Int} {buffer : Nat} {elements : List T}

/-- An input is the value of a node that has been executed, or of an external variable. -/
theorem Scheduled.available (hsched : Scheduled start ops) (hsplit : ops = done ++ n :: rest)
    (hq : q ∈ n.inputIds) : Available start done q := by
  have hn : n ∈ ops := by simp [hsplit]
  rcases hsched.known n hn q hq with hexternal | ⟨p, hp, rfl⟩
  · exact Or.inl hexternal
  · right
    have horder := hsched.order
    rw [hsplit, List.pairwise_append, List.pairwise_cons] at horder
    rw [hsplit, List.mem_append, List.mem_cons] at hp
    rcases hp with hp | rfl | hp
    · exact ⟨p, hp, rfl⟩
    · exact absurd hq (hsched.proper p hn)
    · exact absurd hq (horder.2.1.1 p hp).1

theorem Scheduled.not_interferes (hsched : Scheduled start ops)
    (hsplit : ops = done ++ n :: rest) {c : Operation T} (hc : c ∈ done) : ¬ Interferes c n := by
  have horder := hsched.order
  rw [hsplit, List.pairwise_append] at horder
  exact (horder.2.2 c hc n List.mem_cons_self).2

theorem notMem_done (hops : Dataflow ops) (hsplit : ops = done ++ n :: rest) : n ∉ done := by
  intro hn
  have hids := hops.ids
  rw [hsplit, List.map_append, List.nodup_append'] at hids
  exact hids.2.2 (List.mem_map_of_mem hn) (by simp)

/-- The array of an input has not been taken by a node that works in place. -/
theorem Scheduled.untaken (hops : Dataflow ops) (hsched : Scheduled start ops)
    (hsplit : ops = done ++ n :: rest) (hq : q ∈ n.inputIds) : Untaken (mappedIn ops) done q := by
  rintro c hc ⟨hinput, hbranches⟩
  have hn : n ∈ ops := by simp [hsplit]
  have hcops : c ∈ ops := by simp [hsplit, hc]
  rcases hsched.available hsplit hq with ⟨hneg, -⟩ | ⟨p, hp, rfl⟩
  · exact hsched.not_interferes hsplit hc ⟨q, hneg, Or.inl ⟨hinput, Or.inl hq⟩⟩
  · have hpops : p ∈ ops := by simp [hsplit, hp]
    rw [branches, if_pos (hops.positive p hpops), mappedIn_eq hops hpops, Option.map_some,
      Option.some.injEq, decide_eq_false_iff_not] at hbranches
    have hcout := hops.consumers c hcops p hpops (by rw [hinput]; exact List.mem_singleton_self _)
    have hnout := hops.consumers n hn p hpops hq
    have hsame : c.id = n.id := by
      obtain ⟨o, ho⟩ : ∃ o, p.output = [o] := by
        apply List.length_eq_one_iff.mp
        have := List.length_pos_of_mem hcout
        omega
      rw [ho, List.mem_singleton] at hcout hnout
      exact hcout.trans hnout.symm
    exact notMem_done hops hsplit (hops.eq_of_id_eq hcops hn hsame ▸ hc)

theorem Scheduled.notMem_written (hsched : Scheduled start ops) (hsplit : ops = done ++ n :: rest)
    (hq : q ∈ n.inputIds) : q ∉ written done := by
  rintro ⟨hneg, w, hw, hout⟩
  exact hsched.not_interferes hsplit hw ⟨q, hneg, Or.inr ⟨hout, hq⟩⟩

/-- An input is at hand with its value. -/
theorem Keeps.input (hs : Keeps ops start length done (written done) s) (hops : Dataflow ops)
    (hsched : Scheduled start ops) (hsplit : ops = done ++ n :: rest) (hq : q ∈ n.inputIds) :
    ∃ x, s.array q = some x ∧ Evaluates ops start.contents q (s.heap x.buffer) :=
  hs.values q (hsched.available hsplit hq) (hsched.untaken hops hsplit hq)
    (hsched.notMem_written hsplit hq)

/-- Nobody works in place on the result of the node that has just been executed. -/
theorem Scheduled.untaken_self (hsched : Scheduled start ops) (hsplit : ops = done ++ n :: rest) :
    Untaken (mappedIn ops) (done ++ [n]) n.id := by
  rintro c hc ⟨hinput, -⟩
  have hmem : n.id ∈ c.inputIds := by
    rw [hinput]
    exact List.mem_singleton_self _
  rcases List.mem_append.mp hc with hc | hc
  · have horder := hsched.order
    rw [hsplit, List.pairwise_append] at horder
    exact (horder.2.2 c hc n List.mem_cons_self).1 hmem
  · obtain rfl := List.mem_singleton.mp hc
    exact hsched.proper c (by simp [hsplit]) hmem

/-- What a node writes is its value. -/
theorem Keeps.evaluates (hs : Keeps ops start length done (written done) s) (hops : Dataflow ops)
    (hsched : Scheduled start ops) (hsplit : ops = done ++ n :: rest)
    (hwrites : Writes (mappedIn ops) n s buffer elements) :
    Evaluates ops start.contents n.id elements := by
  have hn : n ∈ ops := by simp [hsplit]
  have hvalue : ∀ p ∈ n.input, ∀ x, s.array p.1 = some x →
      Evaluates ops start.contents p.1 (s.heap x.buffer) := by
    intro p hp x hx
    obtain ⟨x', hx', hvalue⟩ := hs.input hops hsched hsplit (List.mem_map_of_mem hp)
    obtain rfl := Option.some.inj (hx.symm.trans hx')
    exact hvalue
  cases hwrites with
  | inPlace hinput _ hx => exact .unary hn hinput (hvalue _ (by simp [hinput]) _ hx)
  | copied hinput _ hx => exact .unary hn hinput (hvalue _ (by simp [hinput]) _ hx)
  | pairwise hinput hx hy =>
      exact .binary hn hinput (hvalue _ (by simp [hinput]) _ hx) (hvalue _ (by simp [hinput]) _ hy)

/-- A buffer that is written is new, or was the one of the input that is now taken. -/
theorem Keeps.buffer_ne (hs : Keeps ops start length done (written done) s) (hops : Dataflow ops)
    (hsched : Scheduled start ops) (hsplit : ops = done ++ n :: rest)
    (hwrites : Writes (mappedIn ops) n s buffer elements) {k : Int} {b : NDArray}
    (hk : Untaken (mappedIn ops) (done ++ [n]) k) (hb : s.array k = some b) :
    b.buffer ≠ buffer := by
  have hnew := hs.old k b hb
  cases hwrites with
  | inPlace hinput hbranches hx =>
      intro hsame
      have hinputs : n.inputIds = [_] := congrArg (List.map Prod.fst) hinput
      have huntaken := hsched.untaken hops hsplit (by rw [hinputs]; exact List.mem_cons_self)
      obtain rfl := hs.apart _ _ _ _ (hk.subset (List.subset_append_left _ _)) huntaken hb hx hsame
      exact hk n (by simp) ⟨hinputs, hbranches⟩
  | copied _ _ _ => exact hnew.ne
  | pairwise _ _ _ => exact hnew.ne

theorem Keeps.buffer_le (hs : Keeps ops start length done overwritten s)
    (hwrites : Writes (mappedIn ops) n s buffer elements) : buffer ≤ s.next := by
  cases hwrites with
  | inPlace _ _ hx => exact (hs.old _ _ hx).le
  | copied _ _ _ => exact le_rfl
  | pairwise _ _ _ => exact le_rfl

variable (hs : Keeps ops start length done (written done) s)

include hs

/-- Filing the result of a node. -/
theorem Keeps.compute (hops : Dataflow ops) (hsched : Scheduled start ops)
    (hsplit : ops = done ++ n :: rest) {z : NDArray}
    (hwrites : Writes (mappedIn ops) n s z.buffer elements) :
    Keeps ops start length (done ++ [n]) (written (done ++ [n])) (s.put n.id z elements) := by
  have hn : n ∈ ops := by simp [hsplit]
  have hpos := hops.positive n hn
  have hvars : (s.put n.id z elements).vars = Function.update s.vars n.id (some (some z)) := rfl
  apply hs.update hvars rfl (Nat.le_succ _) (Nat.lt_succ_of_le (hs.buffer_le hwrites))
    (List.subset_append_left _ _)
  · rintro e ⟨he, w, hw, hout⟩
    exact ⟨he, w, List.mem_append_left _ hw, hout⟩
  · intro k b _ hk hb
    exact hs.buffer_ne hops hsched hsplit hwrites hk hb
  · intro m hm hnot hid
    exact hnot (hops.eq_of_id_eq hm hn hid ▸ by simp)
  · rintro k hk (hexternal | ⟨p, hp, rfl⟩)
    · exact Or.inl hexternal
    · rcases List.mem_append.mp hp with hp | hp
      · exact Or.inr ⟨p, hp, rfl⟩
      · exact absurd (congrArg (fun m => m.id) (List.mem_singleton.mp hp)) hk
  · exact fun _ _ _ => hs.evaluates hops hsched hsplit hwrites
  · intro hneg
    omega

/-- An output that has been taken is the only input of the node, and shares the buffer of
the result. -/
theorem Keeps.announces (hops : Dataflow ops) (hsched : Scheduled start ops)
    (hsplit : ops = done ++ n :: rest) {z : NDArray}
    (hwrites : Writes (mappedIn ops) n s z.buffer elements) :
    Announces ops start length (done ++ [n]) (written (done ++ [n])) n z
      (s.put n.id z elements) where
  keeps := hs.compute hops hsched hsplit hwrites
  result := by simp
  shared := by
    intro e hout he htaken
    have hn : n ∈ ops := by simp [hsplit]
    have hpos := hops.positive n hn
    obtain ⟨c, hc, hinputs, hbranches⟩ : ∃ c ∈ done ++ [n], c.inputIds = [e] ∧
        branches (mappedIn ops) e = some false := by
      by_contra hnone
      exact htaken fun c hc h => hnone ⟨c, hc, h⟩
    rcases List.mem_append.mp hc with hc | hc
    · exact absurd ⟨e, he, Or.inl ⟨hinputs, Or.inr hout⟩⟩ (hsched.not_interferes hsplit hc)
    · obtain rfl := List.mem_singleton.mp hc
      have hne : e ≠ c.id := by omega
      generalize z.buffer = buffer at hwrites ⊢
      cases hwrites with
      | inPlace hinput _ hx =>
          have hid : c.inputIds = [_] := congrArg (List.map Prod.fst) hinput
          obtain rfl := List.singleton_inj.mp (hid.symm.trans hinputs)
          exact ⟨_, by simpa [hne] using hx, rfl⟩
      | copied hinput hshared _ =>
          have hid : c.inputIds = [_] := congrArg (List.map Prod.fst) hinput
          obtain rfl := List.singleton_inj.mp (hid.symm.trans hinputs)
          exact absurd (hshared.symm.trans hbranches) (by simp)
      | pairwise hinput _ _ =>
          have hid : c.inputIds = [_, _] := congrArg (List.map Prod.fst) hinput
          exact absurd (hid.symm.trans hinputs) (by simp)

/-- One node leaves the values that are still to be read in buffers of their own. -/
theorem executeFlatNode_keeps (hops : Dataflow ops) (hsched : Scheduled start ops)
    (hfits : Fits ops start length) (hnil : ∀ n ∈ ops, n.output ≠ [])
    (hsplit : ops = done ++ n :: rest) :
    ∃ s', executeFlatNode (mappedIn ops) n s = some s' ∧
      Keeps ops start length (done ++ [n]) (written (done ++ [n])) s' := by
  have hn : n ∈ ops := by simp [hsplit]
  have hempty : s.array n.id = none := by
    rw [array, hs.pending n hn (notMem_done hops hsplit)]
    rfl
  have hat : ∀ p ∈ n.input, ∃ x, s.array p.1 = some x ∧ x.buffer < s.next := by
    intro p hp
    obtain ⟨x, hx, -⟩ := hs.input hops hsched hsplit (List.mem_map_of_mem hp)
    exact ⟨x, hx, hs.old _ _ hx⟩
  obtain ⟨skipped, z, elements, hexecute, hskip, hwrites⟩ : ∃ skipped z elements,
      executeFlatNode (mappedIn ops) n s = announce skipped n z (s.put n.id z elements) ∧
      (∀ e ∈ n.output, skipped e = true ↔ 0 < e) ∧
      Writes (mappedIn ops) n s z.buffer elements := by
    rcases hops.arity n hn with ⟨p, hinput, hp⟩ | ⟨htype, p, q, hinput, hp, hq⟩
    · obtain ⟨x, hx, hold⟩ := hat p (by simp [hinput])
      obtain ⟨shared, hshared⟩ : ∃ shared, branches (mappedIn ops) p.1 = some shared := by
        unfold branches
        split
        · rename_i hpos
          rcases hsched.known n hn p.1 (List.mem_map_of_mem (by simp [hinput])) with
            ⟨hneg, -⟩ | ⟨m, hm, hid⟩
          · omega
          · rw [← hid, mappedIn_eq hops hm]
            exact ⟨_, rfl⟩
        · exact ⟨_, rfl⟩
      exact executeFlatNode_one (hops.nonzero n hn) hempty hinput hp hx hold hshared
    · obtain ⟨x, hx, hxold⟩ := hat p (by simp [hinput])
      obtain ⟨y, hy, hyold⟩ := hat q (by simp [hinput])
      exact executeFlatNode_two (hops.nonzero n hn) (hnil n hn) hempty htype hinput hp hq hx hy
        hxold hyold
  have hannounces := hs.announces hops hsched hsplit hwrites
  rw [hexecute]
  unfold announce
  split
  · obtain ⟨s', hs', hend⟩ := hannounces.foldlM hops hn (hsched.untaken_self hsplit) (by simp)
      (fun e he => he.1) hskip (fun _ h => h)
      (fun e hout he => ⟨⟨he, n, by simp, hout⟩, (hfits n hn e hout he).1,
        (hfits n hn e hout he).2.1⟩)
    exact ⟨s', hs', hend.keeps⟩
  · exact ⟨_, rfl, hannounces.keeps⟩

end Node

/-! ## The whole run -/

theorem Prepared.keeps (hstart : Prepared ops start) (hfits : Fits ops start length) :
    Keeps ops start length [] (written ([] : List (Operation T))) start where
  pending := fun n hn _ => hstart.empty n hn
  filed := fun _ _ h => h
  old := hstart.old
  apart := fun id id' a a' _ _ => hstart.apart id id' a a'
  values := by
    rintro id (⟨hneg, hsome⟩ | ⟨p, hp, -⟩) - -
    · obtain ⟨v, hv⟩ := Option.isSome_iff_exists.mp hsome
      obtain ⟨a, ha, rfl⟩ := Option.map_eq_some_iff.mp hv
      exact ⟨a, ha, .external hneg hv⟩
    · exact absurd hp (by simp)
  lengths := by
    rintro e he - ⟨n, hn, hout⟩ a ha
    apply (hfits n hn e hout he).2.2
    unfold contents
    rw [ha]
    rfl

/-- A run in schedule order ends with the values in buffers of their own. -/
theorem foldlM_keeps (hops : Dataflow ops) (hsched : Scheduled start ops)
    (hfits : Fits ops start length) (hnil : ∀ n ∈ ops, n.output ≠ [])
    {rest : List (Operation T)} (hs : Keeps ops start length done (written done) s)
    (hsplit : ops = done ++ rest) :
    ∃ s', rest.foldlM (fun s n => executeFlatNode (mappedIn ops) n s) s = some s' ∧
      Keeps ops start length ops (written ops) s' := by
  induction rest generalizing done s with
  | nil =>
      rw [List.append_nil] at hsplit
      exact ⟨s, rfl, hsplit ▸ hs⟩
  | cons n rest ih =>
      obtain ⟨s', hs', hnext⟩ := executeFlatNode_keeps hs hops hsched hfits hnil hsplit
      rw [List.foldlM_cons, hs']
      apply ih hnext
      rw [hsplit, List.append_assoc]
      rfl

/-- In schedule order the nodes without consumers end with their values. -/
theorem foldlM_dataflow (hops : Dataflow ops) (hsched : Scheduled start ops)
    (hstart : Prepared ops start) (hnil : ∀ n ∈ ops, n.output ≠ []) :
    ∃ s', ops.foldlM (fun s n => executeFlatNode (mappedIn ops) n s) start = some s' ∧
      ∀ n ∈ ops, (∀ m ∈ ops, n.id ∉ m.inputIds) →
        ∃ v, Evaluates ops start.contents n.id v ∧ s'.contents n.id = some v := by
  obtain ⟨length, hfits⟩ := hstart.fits
  obtain ⟨s', hs', hend⟩ := foldlM_keeps hops hsched hfits hnil (hstart.keeps hfits) rfl
  refine ⟨s', hs', ?_⟩
  intro n hn hsink
  have huntaken : Untaken (mappedIn ops) ops n.id := by
    rintro c hc ⟨hinput, -⟩
    apply hsink c hc
    rw [hinput]
    exact List.mem_singleton_self _
  have hkept : n.id ∉ written ops := fun h => absurd h.1 (by have := hops.positive n hn; omega)
  obtain ⟨a, ha, hvalue⟩ := hend.values n.id (Or.inr ⟨n, hn, rfl⟩) huntaken hkept
  refine ⟨_, hvalue, ?_⟩
  unfold contents
  rw [ha]
  rfl

end Keeps

/-! ## Graphs in layers -/

/-- An input is an external variable with an array or a node of the graph, and no node of
its own or a later layer. -/
structure CorrectlyLayered (start : RunState T) (layers : List (List (Operation T))) : Prop where
  known : ∀ n ∈ layers.flatten, ∀ q ∈ n.inputIds,
    (q < 0 ∧ (start.contents q).isSome) ∨ ∃ p ∈ layers.flatten, p.id = q
  beside : ∀ l ∈ layers, ∀ c ∈ l, ∀ n ∈ l, n.id ∉ c.inputIds
  below : layers.Pairwise fun earlier later => ∀ c ∈ earlier, ∀ n ∈ later, n.id ∉ c.inputIds

/-- An external variable that a node overwrites is not used by another node of the same or a
later layer. -/
structure Undisturbed (layers : List (List (Operation T))) : Prop where
  beside : ∀ l ∈ layers, ∀ c ∈ l, ∀ n ∈ l, c.id ≠ n.id → ¬ Interferes c n
  below : layers.Pairwise fun earlier later => ∀ c ∈ earlier, ∀ n ∈ later, ¬ Interferes c n

/-- In whatever order the layers are executed, the nodes without consumers end with the values
of the dataflow graph. -/
def ComputesDataflow (layers : List (List (Operation T))) (start : RunState T) : Prop :=
  ∀ order, List.Forall₂ List.Perm order layers →
    ∃ s', execute order.flatten start = some s' ∧
      ∀ n ∈ layers.flatten, (∀ m ∈ layers.flatten, n.id ∉ m.inputIds) →
        (∃ v, s'.contents n.id = some v) ∧
          ∀ v, s'.contents n.id = some v ↔ Evaluates layers.flatten start.contents n.id v

/-- A relation that holds inside the layers and between them holds along any order of them. -/
theorem pairwise_flatten_of_perm {α : Type*} {R : α → α → Prop} {order layers : List (List α)}
    (horder : List.Forall₂ List.Perm order layers)
    (hbeside : ∀ l ∈ layers, ∀ l' : List α, l'.Perm l → l'.Pairwise R)
    (hbelow : layers.Pairwise fun earlier later => ∀ x ∈ earlier, ∀ y ∈ later, R x y) :
    order.flatten.Pairwise R := by
  induction horder with
  | nil => exact List.Pairwise.nil
  | cons hperm hrest ih =>
      rename_i l' l order layers
      rw [List.pairwise_cons] at hbelow
      rw [List.flatten_cons, List.pairwise_append]
      refine ⟨hbeside l List.mem_cons_self l' hperm,
        ih (fun k hk => hbeside k (List.mem_cons_of_mem _ hk)) hbelow.2, ?_⟩
      intro x hx y hy
      obtain ⟨k, hk, hyk⟩ := List.mem_flatten.mp ((List.Perm.flatten_congr hrest).mem_iff.mp hy)
      exact hbelow.1 k hk x (hperm.mem_iff.mp hx) y hyk

section Added

variable {ops : List (Operation T)} {start : RunState T}

theorem mem_added_output {op : Operation T} {e : Int} (h : e ∈ op.added.output) :
    e ∈ op.output ∨ e = op.id := by
  unfold Operation.added autoOutput at h
  simp only at h
  split at h
  · simpa [Node.pickExternalOutput] using h
  · exact Or.inl h

variable (op : Operation T)

theorem added_output_subset : op.output ⊆ op.added.output := by
  unfold Operation.added autoOutput
  simp only
  split
  · exact List.subset_append_left _ _
  · exact fun _ h => h

theorem added_output_ne_nil : op.added.output ≠ [] := by
  unfold Operation.added autoOutput
  simp only
  split
  · simp [Node.pickExternalOutput]
  · rename_i h
    exact fun hnil => h (Or.inl hnil)

@[simp]
theorem added_id : op.added.id = op.id :=
  autoOutput_id op.toNode

@[simp]
theorem added_input : op.added.input = op.input :=
  (Node.wiring_inj (autoOutput_wiring op.toNode)).2.1

@[simp]
theorem added_inputIds : op.added.inputIds = op.inputIds := by
  unfold Node.inputIds
  rw [added_input]

variable {ops' : List (Operation T)}

/-- Adding the nodes of a graph, all or some of them, changes no value. -/
theorem Evaluates.of_added {external : Int → Option (List T)} {id : Int} {v : List T}
    (h : Evaluates (ops'.map Operation.added) external id v) (hsub : ops' ⊆ ops) :
    Evaluates ops external id v := by
  induction h with
  | external hneg hv => exact .external hneg hv
  | unary hop hinput _ ih =>
      obtain ⟨op, hmem, rfl⟩ := List.mem_map.mp hop
      rw [added_input] at hinput
      rw [added_id]
      exact .unary (hsub hmem) hinput ih
  | binary hop hinput _ _ ih ih' =>
      obtain ⟨op, hmem, rfl⟩ := List.mem_map.mp hop
      rw [added_input] at hinput
      rw [added_id]
      exact .binary (hsub hmem) hinput ih ih'

/-- An id has one value. -/
theorem Evaluates.unique (hops : Dataflow ops) {external : Int → Option (List T)} {id : Int}
    {v w : List T} (hv : Evaluates ops external id v) (hw : Evaluates ops external id w) :
    v = w := by
  induction hv generalizing w with
  | external hneg hv =>
      cases hw with
      | external _ hw => exact Option.some.inj (hv.symm.trans hw)
      | unary hop _ _ => exact absurd (hops.positive _ hop) (Int.not_lt.mpr hneg.le)
      | binary hop _ _ _ => exact absurd (hops.positive _ hop) (Int.not_lt.mpr hneg.le)
  | @unary op p v hop hinput _ ih =>
      have hpos := hops.positive _ hop
      generalize hid : op.id = id at hw hpos
      cases hw with
      | external hneg _ => exact absurd hneg (Int.not_lt.mpr hpos.le)
      | unary hop' hinput' hw =>
          obtain rfl := hops.eq_of_id_eq hop hop' hid
          obtain rfl := List.singleton_inj.mp (hinput.symm.trans hinput')
          rw [ih hw]
      | binary hop' hinput' _ _ =>
          obtain rfl := hops.eq_of_id_eq hop hop' hid
          exact absurd (hinput.symm.trans hinput') (by simp)
  | @binary op p q v v' hop hinput _ _ ih ih' =>
      have hpos := hops.positive _ hop
      generalize hid : op.id = id at hw hpos
      cases hw with
      | external hneg _ => exact absurd hneg (Int.not_lt.mpr hpos.le)
      | unary hop' hinput' _ =>
          obtain rfl := hops.eq_of_id_eq hop hop' hid
          exact absurd (hinput.symm.trans hinput') (by simp)
      | binary hop' hinput' hw hw' =>
          obtain rfl := hops.eq_of_id_eq hop hop' hid
          have hpairs := hinput.symm.trans hinput'
          simp only [List.cons.injEq, and_true] at hpairs
          obtain ⟨rfl, rfl⟩ := hpairs
          rw [ih hw, ih' hw']

theorem Dataflow.added (hops : Dataflow ops) : Dataflow (ops.map Operation.added) where
  ids := by
    rw [List.map_map]
    exact (List.map_congr_left fun op _ => added_id op) ▸ hops.ids
  positive := by
    intro n hn
    obtain ⟨op, hop, rfl⟩ := List.mem_map.mp hn
    rw [added_id]
    exact hops.positive op hop
  arity := by
    intro n hn
    obtain ⟨op, hop, rfl⟩ := List.mem_map.mp hn
    rw [added_input]
    exact hops.arity op hop
  consumers := by
    intro n hn p hp hinput
    obtain ⟨op, hop, rfl⟩ := List.mem_map.mp hn
    obtain ⟨producer, hproducer, rfl⟩ := List.mem_map.mp hp
    rw [added_id, added_inputIds] at hinput
    rw [added_id]
    exact added_output_subset producer (hops.consumers op hop producer hproducer hinput)
  nonzero := by
    intro n hn hzero
    obtain ⟨op, hop, rfl⟩ := List.mem_map.mp hn
    have hpos := hops.positive op hop
    rcases mem_added_output hzero with h | h
    · exact hops.nonzero op hop h
    · omega

theorem Prepared.added (hops : Dataflow ops) (hstart : Prepared ops start) (hsub : ops' ⊆ ops) :
    Prepared (ops'.map Operation.added) start where
  empty := by
    intro n hn
    obtain ⟨op, hop, rfl⟩ := List.mem_map.mp hn
    rw [added_id]
    exact hstart.empty op (hsub hop)
  old := hstart.old
  apart := hstart.apart
  fits := by
    obtain ⟨length, hfits⟩ := hstart.fits
    refine ⟨length, ?_⟩
    intro n hn e hout he
    obtain ⟨op, hop, rfl⟩ := List.mem_map.mp hn
    have hpos := hops.positive op (hsub hop)
    have hout' : e ∈ op.output := (mem_added_output hout).resolve_right (by omega)
    obtain ⟨hfiled, hvalue, hold⟩ := hfits op (hsub hop) e hout' he
    refine ⟨hfiled, ?_, hold⟩
    intro v hv
    rw [added_id] at hv
    exact hvalue v (hv.of_added hsub)

theorem interferes_of_added {c n : Operation T} (hc : 0 < c.id) (hn : 0 < n.id)
    (h : Interferes c.added n.added) : Interferes c n := by
  obtain ⟨e, he, h⟩ := h
  rw [added_inputIds, added_inputIds] at h
  refine ⟨e, he, ?_⟩
  rcases h with ⟨hinput, h | h⟩ | ⟨h, hinput⟩
  · exact Or.inl ⟨hinput, Or.inl h⟩
  · exact Or.inl ⟨hinput, Or.inr ((mem_added_output h).resolve_right (by omega))⟩
  · exact Or.inr ⟨(mem_added_output h).resolve_right (by omega), hinput⟩

theorem Dataflow.perm (hops : Dataflow ops) (hperm : ops'.Perm ops) :
    Dataflow ops' where
  ids := ((hperm.map _).nodup_iff).mpr hops.ids
  positive := fun n hn => hops.positive n (hperm.mem_iff.mp hn)
  arity := fun n hn => hops.arity n (hperm.mem_iff.mp hn)
  consumers := fun n hn p hp => hops.consumers n (hperm.mem_iff.mp hn) p (hperm.mem_iff.mp hp)
  nonzero := fun n hn => hops.nonzero n (hperm.mem_iff.mp hn)

end Added

section Layers

variable {layers order : List (List (Operation T))} {start : RunState T}

/-- Any order of correct, undisturbed layers is a schedule. -/
theorem scheduled_added (hops : Dataflow layers.flatten) (hlayers : CorrectlyLayered start layers)
    (hfree : Undisturbed layers) (horder : List.Forall₂ List.Perm order layers) :
    Scheduled start (order.flatten.map Operation.added) := by
  have hperm : order.flatten.Perm layers.flatten := List.Perm.flatten_congr horder
  have hpos : ∀ n ∈ order.flatten, 0 < n.id := fun n hn =>
    hops.positive n (hperm.mem_iff.mp hn)
  refine ⟨?_, ?_, ?_⟩
  · intro n hn q hq
    obtain ⟨op, hop, rfl⟩ := List.mem_map.mp hn
    rw [added_inputIds] at hq
    rcases hlayers.known op (hperm.mem_iff.mp hop) q hq with hexternal | ⟨p, hp, hid⟩
    · exact Or.inl hexternal
    · exact Or.inr ⟨p.added, List.mem_map_of_mem (hperm.mem_iff.mpr hp), (added_id p).trans hid⟩
  · intro n hn
    obtain ⟨op, hop, rfl⟩ := List.mem_map.mp hn
    obtain ⟨l, hl, hmem⟩ := List.mem_flatten.mp (hperm.mem_iff.mp hop)
    rw [added_id, added_inputIds]
    exact hlayers.beside l hl op hmem op hmem
  · rw [List.pairwise_map]
    have hraw : order.flatten.Pairwise fun c n => n.id ∉ c.inputIds ∧ ¬ Interferes c n := by
      apply pairwise_flatten_of_perm horder
      · intro l hl l' hl'
        have hids : (l.map fun n => n.id).Nodup := by
          have := hops.ids
          rw [List.map_flatten, List.nodup_flatten] at this
          exact this.1 _ (List.mem_map_of_mem hl)
        have hnodup : l'.Pairwise fun c n => c.id ≠ n.id :=
          List.pairwise_map.mp (((hl'.map _).nodup_iff).mpr hids)
        apply hnodup.imp_of_mem
        intro c n hc hn hne
        exact ⟨hlayers.beside l hl c (hl'.mem_iff.mp hc) n (hl'.mem_iff.mp hn),
          hfree.beside l hl c (hl'.mem_iff.mp hc) n (hl'.mem_iff.mp hn) hne⟩
      · exact (hlayers.below.and hfree.below).imp fun h c hc n hn =>
          ⟨h.1 c hc n hn, h.2 c hc n hn⟩
    apply hraw.imp_of_mem
    rintro c n hc hn ⟨hinput, hapart⟩
    rw [added_id, added_inputIds]
    exact ⟨hinput, fun h => hapart (interferes_of_added (hpos c hc) (hpos n hn) h)⟩

/-- In correct layers whose external variables are not used after they have been overwritten,
every order of the nodes inside the layers gives the nodes without consumers their values. -/
theorem execute_dataflow (hops : Dataflow layers.flatten)
    (hlayers : CorrectlyLayered start layers) (hstart : Prepared layers.flatten start)
    (hfree : Undisturbed layers) : ComputesDataflow layers start := by
  intro order horder
  have hperm : order.flatten.Perm layers.flatten := List.Perm.flatten_congr horder
  obtain ⟨s', hs', hvalues⟩ := foldlM_dataflow (hops.perm hperm).added
    (scheduled_added hops hlayers hfree horder) (hstart.added hops hperm.subset) (by
      intro n hn
      obtain ⟨op, -, rfl⟩ := List.mem_map.mp hn
      exact added_output_ne_nil op)
  refine ⟨s', hs', ?_⟩
  intro n hn hsink
  obtain ⟨v, hv, hcontents⟩ := hvalues n.added
    (List.mem_map_of_mem (hperm.mem_iff.mpr hn)) (by
      intro m hm
      obtain ⟨op, hop, rfl⟩ := List.mem_map.mp hm
      rw [added_id, added_inputIds]
      exact hsink op (hperm.mem_iff.mp hop))
  rw [added_id] at hv hcontents
  have hvalue := hv.of_added hperm.subset
  refine ⟨⟨v, hcontents⟩, ?_⟩
  intro w
  rw [hcontents, Option.some.injEq]
  constructor
  · rintro rfl
    exact hvalue
  · exact fun hw => hvalue.unique hops hw

end Layers

/-! ## Two graphs -/

/-- Arrays filed under -1, -2 and so on, and nodes without arrays. -/
def startState (external : List (List T)) (ids : List Int) : RunState T where
  vars := fun id =>
    if id < 0 ∧ (-id - 1).toNat < external.length then
      some (some ⟨(-id - 1).toNat, (-id - 1).toNat⟩)
    else if id ∈ ids then some none
    else none
  heap := fun buffer => external.getD buffer []
  next := external.length

theorem array_startState {external : List (List T)} {ids : List Int} {id : Int} {a : NDArray}
    (h : (startState external ids).array id = some a) :
    id < 0 ∧ a.buffer = (-id - 1).toNat ∧ a.buffer < external.length := by
  simp only [array, startState] at h
  split at h
  · rename_i hid
    obtain rfl := Option.some.inj h
    exact ⟨hid.1, rfl, hid.2⟩
  · split at h <;> exact absurd h (by simp)

/-- The starting states of new graphs are prepared, when their outputs fit. -/
theorem prepared_startState {ops : List (Operation T)} {external : List (List T)} {ids : List Int}
    (hpos : ∀ n ∈ ops, 0 < n.id) (hids : ∀ n ∈ ops, n.id ∈ ids)
    (hfits : ∃ length, Fits ops (startState external ids) length) :
    Prepared ops (startState external ids) where
  empty := by
    intro n hn
    have hneg : ¬ n.id < 0 := Int.not_lt.mpr (hpos n hn).le
    simp [startState, hneg, hids n hn]
  old := fun id a h => (array_startState h).2.2
  apart := by
    intro id id' a a' h h' hsame
    obtain ⟨hneg, hbuffer, -⟩ := array_startState h
    obtain ⟨hneg', hbuffer', -⟩ := array_startState h'
    omega
  fits := hfits

/-- A node that adds 1 to the elements of its input. -/
def incrementNode (id input : Int) (outputs : List Int) : Operation Int where
  toNode := .make id [.plain input] outputs
  opType := .transform
  unary := List.map (· + 1)

/-- A node that doubles the elements of its input. -/
def doubleNode (id input : Int) (outputs : List Int) : Operation Int where
  toNode := .make id [.plain input] outputs
  opType := .scalar
  unary := List.map (· * 2)

/-- A node that adds the elements of its inputs. -/
def sumNode (id left right : Int) (outputs : List Int) : Operation Int where
  toNode := .make id [.plain left, .plain right] outputs
  opType := .transform
  binary := List.zipWith (· + ·)

/-- Two branches of a node, joined again. -/
def branching : List (List (Operation Int)) :=
  [[incrementNode 1 (-1) [2, 3]], [incrementNode 2 1 [4], doubleNode 3 1 [4]], [sumNode 4 2 3 [-2]]]

/-- Both orders of the branches give the sum. -/
theorem execute_dataflow_branching :
    ComputesDataflow branching (startState [[5], [0]] [1, 2, 3, 4]) := by
  have hops : Dataflow branching.flatten := by
    refine ⟨by decide, by decide, ?_, by decide, by decide⟩
    intro n hn
    simp only [branching, List.flatten_cons, List.flatten_nil, List.cons_append, List.nil_append,
      List.append_nil, List.mem_cons, List.not_mem_nil, or_false] at hn
    rcases hn with rfl | rfl | rfl | rfl
    · exact Or.inl ⟨(-1, 0), rfl, rfl⟩
    · exact Or.inl ⟨(1, 0), rfl, rfl⟩
    · exact Or.inl ⟨(1, 0), rfl, rfl⟩
    · exact Or.inr ⟨rfl, (2, 0), (3, 0), rfl, rfl, rfl⟩
  have hfits : Fits branching.flatten (startState [[5], [0]] [1, 2, 3, 4]) fun _ => 1 := by
    have hexternal : Evaluates branching.flatten (startState [[5], [0]] [1, 2, 3, 4]).contents
        (-1) [5] := .external (by decide) (by decide)
    have hfirst : incrementNode 1 (-1) [2, 3] ∈ branching.flatten := .head _
    have hleft : incrementNode 2 1 [4] ∈ branching.flatten := .tail _ (.head _)
    have hright : doubleNode 3 1 [4] ∈ branching.flatten := .tail _ (.tail _ (.head _))
    have hlast : sumNode 4 2 3 [-2] ∈ branching.flatten := .tail _ (.tail _ (.tail _ (.head _)))
    have hsource := Evaluates.unary hfirst rfl hexternal
    have hsum := Evaluates.binary hlast rfl (Evaluates.unary hleft rfl hsource)
      (Evaluates.unary hright rfl hsource)
    have honly : ∀ n ∈ branching.flatten, ∀ e ∈ n.output, e < 0 → n.id = 4 ∧ e = -2 := by decide
    intro n hn e hout he
    obtain ⟨hid, rfl⟩ := honly n hn e hout he
    refine ⟨by decide, ?_, ?_⟩
    · intro v hv
      rw [hid] at hv
      obtain rfl := hv.unique hops hsum
      rfl
    · intro w hw
      have hzero : w = [0] := (Option.some.inj hw).symm
      rw [hzero]
      rfl
  exact execute_dataflow hops ⟨by decide, by decide, by decide⟩
    (prepared_startState (by decide) (by decide) ⟨_, hfits⟩) ⟨by decide, by decide⟩

/-- Two nodes that consume one external variable. -/
def consumers : List (List (Operation Int)) :=
  [[incrementNode 1 (-1) [], incrementNode 2 (-1) []]]

/-- Two nodes in one layer that consume the same external variable work in the same buffer, and
each leaves the result of both. -/
theorem not_execute_dataflow_always :
    ¬ ∀ (layers : List (List (Operation Int))) (start : RunState Int),
      Dataflow layers.flatten → CorrectlyLayered start layers → Prepared layers.flatten start →
        ComputesDataflow layers start := by
  intro h
  have hmem : ∀ n ∈ consumers.flatten, n.input = [(-1, 0)] ∧ n.output = [] := by decide
  have hops : Dataflow consumers.flatten :=
    ⟨by decide, by decide, fun n hn => Or.inl ⟨(-1, 0), (hmem n hn).1, rfl⟩, by decide, by decide⟩
  have hstart : Prepared consumers.flatten (startState [[5]] [1, 2]) := by
    apply prepared_startState (by decide) (by decide)
    refine ⟨fun _ => 1, ?_⟩
    intro n hn e hout
    rw [(hmem n hn).2] at hout
    exact absurd hout (by simp)
  obtain ⟨s', hs', hvalues⟩ := h consumers (startState [[5]] [1, 2]) hops
    ⟨by decide, by decide, by decide⟩ hstart consumers
    (List.forall₂_same.mpr fun l _ => List.Perm.refl l)
  have hcontents : (execute consumers.flatten (startState [[5]] [1, 2])).map
      (fun s => s.contents 1) = some (some [7]) := by decide
  rw [hs', Option.map_some, Option.some.injEq] at hcontents
  have hfive : Evaluates consumers.flatten (startState [[5]] [1, 2]).contents (-1) [5] :=
    .external (by decide) (by decide)
  have hfirst : incrementNode 1 (-1) [] ∈ consumers.flatten := List.mem_cons_self
  have hsix : s'.contents 1 = some [6] :=
    ((hvalues _ hfirst (by decide)).2 [6]).mpr (Evaluates.unary hfirst rfl hfive)
  exact absurd (hcontents.symm.trans hsix) (by decide)

end Graph
end LibND4J
