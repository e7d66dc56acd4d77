import LibND4J.Graph.VariableSpace

/-!
# Stashes

A stash files arrays under a node id and a name, and keeps a list of handles for the
arrays that `clear` has to delete.  Lookup goes through the subscript of a map, which
files a null pointer under a key that is absent.

Main results:

- Theorem `lawful_iff_meets`: over a run of calls the stash behaves as a table of
  the arrays stored since the last `clear`, and lookups change nothing that is seen
  later, exactly when no array is extracted before it is stored and no array is stored
  twice between two calls of `clear`.
- Theorem `not_lawful_always`: a key that is extracted is found afterwards.
-/

namespace LibND4J
namespace Graph

open Std OrderedMap

structure KeyPair where
  node : Int
  name : String
deriving Repr, DecidableEq

namespace KeyPair

/-- The `operator<` of `KeyPair`. -/
def lt (a b : KeyPair) : Bool :=
  if a.node < b.node then
    true
  else if a.node > b.node then
    false
  else
    a.name < b.name

/-- The three-way comparison that goes with `lt`. -/
abbrev cmp : KeyPair → KeyPair → Ordering :=
  compareLex (compareOn node) (compareOn name)

instance : LawfulEqCmp cmp where
  eq_of_compare := by
    intro a b h
    obtain ⟨hnode, hname⟩ := compareLex_eq_eq.mp h
    cases a
    cases b
    congr
    · exact LawfulEqCmp.eq_of_compare hnode
    · exact LawfulEqCmp.eq_of_compare hname

end KeyPair

/-- A stash; `none` in the map is the null pointer. -/
structure Stash where
  stash : TreeMap KeyPair (Option ArrayRef) KeyPair.cmp
  handles : List ArrayRef

namespace Stash

def empty : Stash where
  stash := ∅
  handles := []

def checkStash (s : Stash) (k : KeyPair) : Bool :=
  s.stash.contains k

/-- `extractArray`; the subscript files a null pointer under an absent key. -/
def extractArray (s : Stash) (k : KeyPair) : Stash × Option ArrayRef :=
  match s.stash[k]? with
  | some array => (s, array)
  | none => ({ s with stash := s.stash.insert k none }, none)

def storeArray (s : Stash) (k : KeyPair) (array : ArrayRef) : Stash where
  stash := s.stash.insert k (some array)
  handles := s.handles ++ [array]

/-- `clear`, with the arrays in the order in which it deletes them. -/
def clear (s : Stash) : Stash × List ArrayRef :=
  (empty, s.handles)

/-! ## Calls and what they answer -/

inductive Call
  | storeArray (k : KeyPair) (array : ArrayRef)
  | checkStash (k : KeyPair)
  | extractArray (k : KeyPair)
  | clear
deriving Repr, DecidableEq

/-- The call only looks something up. -/
def Call.isLookup : Call → Bool
  | .checkStash _ | .extractArray _ => true
  | .storeArray _ _ | .clear => false

/-- What the caller sees of a call. -/
inductive Reply
  | stored
  | found (b : Bool)
  | extracted (array : Option ArrayRef)
  | deleted (arrays : List ArrayRef)
deriving Repr, DecidableEq

/-- Run one call. -/
def call (s : Stash) : Call → Stash × Reply
  | .storeArray k array => (s.storeArray k array, .stored)
  | .checkStash k => (s, .found (s.checkStash k))
  | .extractArray k => ((s.extractArray k).1, .extracted (s.extractArray k).2)
  | .clear => (s.clear.1, .deleted s.clear.2)

/-- The stash after a list of calls. -/
def after (s : Stash) (calls : List Call) : Stash :=
  calls.foldl (fun s c => (s.call c).1) s

/-- The replies to a list of calls. -/
def replies : Stash → List Call → List Reply
  | _, [] => []
  | s, c :: calls => (s.call c).2 :: replies (s.call c).1 calls

/-! ## The table a stash stands for -/

/-- The arrays stored since the last `clear`, the newest first. -/
abbrev Ledger := List (KeyPair × ArrayRef)

/-- What a call does to the ledger. -/
def Ledger.record (l : Ledger) : Call → Ledger
  | .storeArray k array => (k, array) :: l
  | .clear => []
  | .checkStash _ | .extractArray _ => l

/-- The array most recently stored under a key. -/
def Ledger.latest (l : Ledger) (k : KeyPair) : Option ArrayRef :=
  l.lookup k

/-- A stash together with the ledger of its calls. -/
abbrev Recorded := Stash × Ledger

/-- One call to the stash, entered into the ledger. -/
def step (p : Recorded) (c : Call) : Recorded :=
  ((p.1.call c).1, p.2.record c)

/-- The stash answers as the ledger says, and would delete each stored array once. -/
structure Faithful (p : Recorded) : Prop where
  checkStash_iff : ∀ k, p.1.checkStash k = true ↔ ∃ array, (k, array) ∈ p.2
  extractArray_eq : ∀ k, (p.1.extractArray k).2 = p.2.latest k
  clear_count : ∀ array, p.1.clear.2.count array = if array ∈ p.2.map Prod.snd then 1 else 0

/-- Every state of a run answers as its ledger says, and leaving out a lookup changes no
later reply. -/
structure Lawful (calls : List Call) : Prop where
  faithful : ∀ p ∈ Runs.trace step (empty, []) calls, Faithful p
  unseen : ∀ before c rest, calls = before ++ c :: rest → c.isLookup →
    replies ((empty.after before).call c).1 rest = replies (empty.after before) rest

/-- A key is extracted after it was stored, and an array is stored once. -/
def Admissible (p : Recorded) : Call → Prop
  | .storeArray _ array => array ∉ p.2.map Prod.snd
  | .extractArray k => ∃ array, (k, array) ∈ p.2
  | .checkStash _ | .clear => True

/-! ## The ledger -/

variable {k : KeyPair} {p : Recorded}

theorem Ledger.exists_mem_iff {l : Ledger} : (∃ array, (k, array) ∈ l) ↔ (l.latest k).isSome := by
  rw [latest, List.lookup_isSome_iff]
  constructor
  · rintro ⟨array, hmem⟩
    exact ⟨(k, array), hmem, beq_self_eq_true k⟩
  · rintro ⟨⟨k', array⟩, hmem, hk⟩
    obtain rfl : k = k' := eq_of_beq hk
    exact ⟨array, hmem⟩

theorem Ledger.latest_cons (l : Ledger) (k k' : KeyPair) (array : ArrayRef) :
    Ledger.latest ((k, array) :: l) k' = if k = k' then some array else l.latest k' := by
  rw [latest, List.lookup_cons]
  by_cases hk : k = k'
  · rw [if_pos hk, hk, beq_self_eq_true]
  · rw [if_neg hk, beq_false_of_ne (Ne.symm hk)]
    rfl

/-- The stash holds the newest array of each key, and each handle once. -/
structure Mirrors (p : Recorded) : Prop where
  lookup : ∀ k : KeyPair, p.1.stash[k]? = (p.2.latest k).map some
  handles : p.1.handles = (p.2.map Prod.snd).reverse
  nodup : (p.2.map Prod.snd).Nodup

theorem mirrors_empty : Mirrors (empty, []) where
  lookup := fun k => by simp [empty, Ledger.latest]
  handles := rfl
  nodup := List.nodup_nil

variable (h : Mirrors p)

include h

theorem Mirrors.checkStash_iff (k : KeyPair) :
    p.1.checkStash k = true ↔ ∃ array, (k, array) ∈ p.2 := by
  rw [checkStash, TreeMap.contains_eq_isSome_getElem?, h.lookup, Option.isSome_map,
    Ledger.exists_mem_iff]

/-- A key that was stored is extracted without a change to the stash. -/
theorem Mirrors.extractArray_of_mem (hk : ∃ array, (k, array) ∈ p.2) :
    p.1.extractArray k = (p.1, p.2.latest k) := by
  obtain ⟨array, harray⟩ := Option.isSome_iff_exists.mp (Ledger.exists_mem_iff.mp hk)
  have hlookup : p.1.stash[k]? = some (some array) := by rw [h.lookup, harray, Option.map_some]
  rw [extractArray, hlookup, harray]

/-- A key that was not stored is filed by its extraction. -/
theorem Mirrors.extractArray_of_not_mem (hk : ¬ ∃ array, (k, array) ∈ p.2) :
    p.1.extractArray k = ({ p.1 with stash := p.1.stash.insert k none }, none) := by
  have hnone : p.2.latest k = none := by
    rw [Ledger.exists_mem_iff] at hk
    exact Option.not_isSome_iff_eq_none.mp hk
  have hlookup : p.1.stash[k]? = none := by rw [h.lookup, hnone, Option.map_none]
  rw [extractArray, hlookup]

theorem Mirrors.faithful : Faithful p where
  checkStash_iff := h.checkStash_iff
  extractArray_eq := by
    intro k
    by_cases hk : ∃ array, (k, array) ∈ p.2
    · rw [h.extractArray_of_mem hk]
    · rw [h.extractArray_of_not_mem hk]
      rw [Ledger.exists_mem_iff] at hk
      exact (Option.not_isSome_iff_eq_none.mp hk).symm
  clear_count := by
    intro array
    have hcount : p.1.clear.2.count array = (p.2.map Prod.snd).count array := by
      rw [clear, h.handles, List.count_reverse]
    rw [hcount]
    split
    · rename_i hmem
      exact List.count_eq_one_of_mem h.nodup hmem
    · rename_i hmem
      exact List.count_eq_zero_of_not_mem hmem

/-! ## Runs of calls -/

theorem Mirrors.storeArray (k : KeyPair) {array : ArrayRef} (hnew : array ∉ p.2.map Prod.snd) :
    Mirrors (step p (.storeArray k array)) where
  lookup := by
    intro k'
    simp only [step, call, Ledger.record, Stash.storeArray, Ledger.latest_cons]
    rw [getElem?_insert_eq, h.lookup]
    split
    · rfl
    · rfl
  handles := by
    simp only [step, call, Ledger.record, Stash.storeArray, List.map_cons, List.reverse_cons]
    rw [h.handles]
  nodup := List.nodup_cons.mpr ⟨hnew, h.nodup⟩

omit h

/-- The step rule of calls: the admissible ones, and only those, keep the stash faithful. -/
theorem stepRule_call : Runs.StepRule step Mirrors Faithful Admissible where
  good_of_inv := fun _ h => h.faithful
  preserved := by
    intro p c h hadm
    cases c with
    | storeArray k array => exact h.storeArray k hadm
    | checkStash k => exact h
    | extractArray k =>
        have hsame : step p (.extractArray k) = p := by
          simp only [step, call, Ledger.record, h.extractArray_of_mem hadm]
        rwa [hsame]
    | clear => exact mirrors_empty
  necessary := by
    intro p c h hgood
    cases c with
    | storeArray k array =>
        intro hold
        have hcount := hgood.clear_count array
        rw [if_pos (by simp [step, Ledger.record])] at hcount
        have hhandles : (step p (.storeArray k array)).1.clear.2 =
            (p.2.map Prod.snd).reverse ++ [array] := by
          simp only [step, call, clear, storeArray, h.handles]
        rw [hhandles, List.count_append, List.count_reverse, List.count_singleton_self,
          List.count_eq_one_of_mem h.nodup hold] at hcount
        omega
    | checkStash k => trivial
    | extractArray k =>
        by_contra hk
        -- the key is found now, although the ledger has no array for it
        apply hk
        apply (hgood.checkStash_iff k).mp
        have hstash : (step p (.extractArray k)).1.stash = p.1.stash.insert k none := by
          simp only [step, call, h.extractArray_of_not_mem hk]
        rw [checkStash, hstash, TreeMap.contains_insert_self]
    | clear => trivial

/-- The stash of a run is that of its calls. -/
theorem foldl_step_fst (p : Recorded) (calls : List Call) :
    (calls.foldl step p).1 = p.1.after calls := by
  induction calls generalizing p with
  | nil => rfl
  | cons c calls ih => exact ih (step p c)

/-- In a run of admissible calls a lookup leaves the stash as it is. -/
theorem Mirrors.lookup_unseen (h : Mirrors p) {c : Call} (hadm : Admissible p c)
    (hlookup : c.isLookup) : (p.1.call c).1 = p.1 := by
  cases c with
  | storeArray k array => exact Bool.noConfusion hlookup
  | checkStash k => rfl
  | extractArray k => simp only [call, h.extractArray_of_mem hadm]
  | clear => exact Bool.noConfusion hlookup

/-- A stash behaves as a table of the arrays stored since the last `clear` exactly in the
runs that extract only what was stored, and store no array twice before a `clear`. -/
theorem lawful_iff_meets (calls : List Call) :
    Lawful calls ↔ Runs.Meets step Admissible (empty, []) calls := by
  constructor
  · intro h
    exact (stepRule_call.forall_trace_iff mirrors_empty).mp h.faithful
  · intro hmeets
    refine ⟨(stepRule_call.forall_trace_iff mirrors_empty).mpr hmeets, ?_⟩
    rintro before c rest rfl hlookup
    obtain ⟨hbefore, hadm, -⟩ := Runs.meets_append.mp hmeets
    have hmirrors : Mirrors (before.foldl step (empty, [])) :=
      stepRule_call.inv_of_meets mirrors_empty hbefore _ (Runs.foldl_mem_trace step _ _)
    have hsame := hmirrors.lookup_unseen hadm hlookup
    rw [foldl_step_fst] at hsame
    rw [hsame]

/-- A key that is extracted is found afterwards, though nothing was stored. -/
theorem not_lawful_always : ¬ ∀ calls : List Call, Lawful calls := by
  intro h
  have hmeets := (stepRule_call.forall_trace_iff mirrors_empty).mp
    (h [.extractArray ⟨1, "weights"⟩]).faithful
  obtain ⟨array, hmem⟩ := hmeets.1
  exact List.not_mem_nil hmem

end Stash

end Graph
end LibND4J
