import LibND4J.Library.OrderedMap
import LibND4J.Library.Mutexes
import Mathlib.Data.List.Induction
import Mathlib.Data.List.Nodup

/-!
# The registry of operations

Operations are registered by name and by the hash of the name.  A synonym that is declared
after its operation is registered like an operation; one that is declared before it goes to a
table of deferred names, which the lookup by hash resolves.

Main results:

- Theorem `filed_registered`: what the three tables hold after any registrations.
- Theorem `reliable_iff_inOrder`: all lookups of synonyms lead to their operations, and
  none throws, exactly when every synonym is declared after its operation.
- Theorem `not_reliable_always`: a synonym that is declared first is not found.
-/

namespace LibND4J
namespace Ops

open Std OrderedMap Mutexes

/-- Pointer to an operation. -/
abbrev OpRef := Nat

/-- The tables of one element type. -/
structure OpRegistrator where
  msvc : TreeMap Int String
  declarablesL : TreeMap Int OpRef
  declarables : TreeMap String OpRef

/-- A declaration that registers something before `main` runs. -/
inductive Registration
  | operation (op : OpRef)
  | synonym (name oname : String)
deriving Repr, DecidableEq

/-- The argument of `getOperation`. -/
inductive Lookup
  | byName (name : String)
  | byHash (hash : Int)
deriving Repr, DecidableEq

namespace OpRegistrator

def empty : OpRegistrator where
  msvc := ∅
  declarablesL := ∅
  declarables := ∅

/-- `getOperation(name)`; `none` is the null pointer. -/
def getOperation (r : OpRegistrator) (name : String) : Option OpRef :=
  r.declarables[name]?

def updateMSVC (r : OpRegistrator) (newHash : Int) (oldName : String) : OpRegistrator :=
  { r with msvc := r.msvc.insertIfNew newHash oldName }

section Hashes

variable (getLongHash : String → Int) (getOpName : OpRef → String)

/-- `registerOperation(name, op)`; `insert` keeps an entry that is there. -/
def registerOperation (r : OpRegistrator) (name : String) (op : OpRef) : OpRegistrator :=
  { r with
    declarables := r.declarables.insertIfNew name op
    declarablesL := r.declarablesL.insertIfNew (getLongHash name) op }

/-- `__registratorSynonym`. -/
def registerSynonym (r : OpRegistrator) (name oname : String) : OpRegistrator :=
  match r.getOperation oname with
  | none => r.updateMSVC (getLongHash name) oname
  | some ptr => r.registerOperation getLongHash name ptr

/-- Run one declaration. -/
def register (r : OpRegistrator) : Registration → OpRegistrator
  | .operation op => r.registerOperation getLongHash (getOpName op) op
  | .synonym name oname => r.registerSynonym getLongHash name oname

/-- The registry after a list of declarations. -/
def registered (registrations : List Registration) : OpRegistrator :=
  registrations.foldl (register getLongHash getOpName) empty

/-- The section of `getOperation(hash)`: the operation of a deferred name is filed under the
hash of its own name. -/
def resolveDeferred (hash : Int) (r : OpRegistrator) : OpRegistrator × Option Unit :=
  match r.msvc[hash]?.bind r.getOperation with
  | none => (r, none)
  | some op =>
      ({ r with declarablesL := r.declarablesL.insertIfNew (getLongHash (getOpName op)) op },
        some ())

/-- `getOperation(hash)`. -/
def getOperationByHash (g : Guarded OpRegistrator) (hash : Int) :
    Guarded OpRegistrator × Outcome (Option OpRef) :=
  let found (g : Guarded OpRegistrator) : Guarded OpRegistrator × Outcome (Option OpRef) :=
    match g.state.declarablesL[hash]? with
    | some op => (g, .returned (some op))
    | none => (g, .threw)
  if g.state.declarablesL.contains hash then
    found g
  else if g.state.msvc.contains hash then
    andThen (critical (resolveDeferred getLongHash getOpName hash) g) fun g _ => found g
  else
    (g, .returned none)

/-- Run one lookup. -/
def lookup (g : Guarded OpRegistrator) :
    Lookup → Guarded OpRegistrator × Outcome (Option OpRef)
  | .byName name => (g, .returned (g.state.getOperation name))
  | .byHash hash => getOperationByHash getLongHash getOpName g hash

/-- The registry after a list of lookups. -/
def afterLookups (g : Guarded OpRegistrator) (lookups : List Lookup) : Guarded OpRegistrator :=
  lookups.foldl (fun g l => (lookup getLongHash getOpName g l).1) g

/-- The name that a declaration adds. -/
def nameOf : Registration → String
  | .operation op => getOpName op
  | .synonym name _ => name

/-- Every lookup returns, with the mutex free after it, and a synonym is found by its name
and by its hash as its operation is found by name. -/
structure Resolved (registrations : List Registration) (g : Guarded OpRegistrator) : Prop where
  free : g.held = false
  returns : ∀ l, ∃ op, (lookup getLongHash getOpName g l).2 = .returned op
  by_name : ∀ name oname, .synonym name oname ∈ registrations →
    (lookup getLongHash getOpName g (.byName name)).2 =
      (lookup getLongHash getOpName g (.byName oname)).2
  by_hash : ∀ name oname, .synonym name oname ∈ registrations →
    (lookup getLongHash getOpName g (.byHash (getLongHash name))).2 =
      (lookup getLongHash getOpName g (.byName oname)).2

/-- The lookups are right after any lookups made before. -/
def Reliable (registrations : List Registration) : Prop :=
  ∀ lookups : List Lookup, Resolved getLongHash getOpName registrations
    (afterLookups getLongHash getOpName
      { state := registered getLongHash getOpName registrations, held := false } lookups)

/-- Every synonym is declared after the name that it stands for. -/
def InOrder (registrations : List Registration) : Prop :=
  ∀ before name oname rest, registrations = before ++ .synonym name oname :: rest →
    oname ∈ before.map (nameOf getOpName)

/-! ## What the tables hold -/

variable {getLongHash : String → Int} {getOpName : OpRef → String}

/-- The tables after a list of declarations. -/
structure Filed (getLongHash : String → Int) (getOpName : OpRef → String)
    (registrations : List Registration) (r : OpRegistrator) : Prop where
  named : ∀ name op, r.getOperation name = some op → name ∈ registrations.map (nameOf getOpName)
  hashed : ∀ (hash : Int) (op : OpRef), r.declarablesL[hash]? = some op ↔
    ∃ name, getLongHash name = hash ∧ r.getOperation name = some op
  deferred : ∀ (hash : Int) (oname : String), r.msvc[hash]? = some oname ↔
    ∃ name, getLongHash name = hash ∧ .synonym name oname ∈ registrations ∧
      r.getOperation name = none

/-- The hashes of the names that a list of declarations adds are distinct. -/
def DistinctHashes (getLongHash : String → Int) (getOpName : OpRef → String)
    (registrations : List Registration) : Prop :=
  (registrations.map fun r => getLongHash (nameOf getOpName r)).Nodup

instance (registrations : List Registration) :
    Decidable (DistinctHashes getLongHash getOpName registrations) :=
  inferInstanceAs (Decidable (List.Nodup _))

theorem filed_empty : Filed getLongHash getOpName [] empty where
  named := by simp [empty, getOperation]
  hashed := by simp [empty, getOperation]
  deferred := by simp [empty]

theorem registered_append_singleton (registrations : List Registration) (d : Registration) :
    registered getLongHash getOpName (registrations ++ [d]) =
      (registered getLongHash getOpName registrations).register getLongHash getOpName d := by
  rw [registered, List.foldl_append]
  rfl

variable {registrations : List Registration} {d : Registration}

/-- A name that is declared last has a hash of its own. -/
theorem DistinctHashes.of_append_singleton
    (h : DistinctHashes getLongHash getOpName (registrations ++ [d])) :
    DistinctHashes getLongHash getOpName registrations ∧
      ∀ name ∈ registrations.map (nameOf getOpName),
        getLongHash name ≠ getLongHash (nameOf getOpName d) := by
  rw [DistinctHashes, List.map_append, List.nodup_append] at h
  obtain ⟨hold, -, happart⟩ := h
  refine ⟨hold, fun name hname heq => ?_⟩
  obtain ⟨d', hd', rfl⟩ := List.mem_map.mp hname
  exact happart _ (List.mem_map_of_mem hd') _ (List.mem_singleton_self _) heq

section Filing

variable {registrations : List Registration} {r : OpRegistrator}

variable (h : Filed getLongHash getOpName registrations r)

include h

/-- Only declared names are found. -/
theorem Filed.getOperation_eq_none {name : String}
    (hname : name ∉ registrations.map (nameOf getOpName)) : r.getOperation name = none := by
  rw [Option.eq_none_iff_forall_ne_some]
  exact fun op hop => hname (h.named name op hop)

/-- An operation is filed under a name with a new hash. -/
theorem Filed.registerOperation {d : Registration} {op : OpRef}
    (hnew : ∀ name ∈ registrations.map (nameOf getOpName),
      getLongHash name ≠ getLongHash (nameOf getOpName d)) :
    Filed getLongHash getOpName (registrations ++ [d])
      (r.registerOperation getLongHash (nameOf getOpName d) op) := by
  have habsent : r.getOperation (nameOf getOpName d) = none :=
    h.getOperation_eq_none fun hmem => hnew _ hmem rfl
  have habsentL : r.declarablesL[getLongHash (nameOf getOpName d)]? = none := by
    rw [Option.eq_none_iff_forall_ne_some]
    intro op hop
    obtain ⟨name, hhash, hname⟩ := (h.hashed _ _).mp hop
    exact hnew _ (h.named _ _ hname) hhash
  have hlookup : ∀ name, (r.registerOperation getLongHash (nameOf getOpName d) op).getOperation
      name = if nameOf getOpName d = name then some op else r.getOperation name :=
    fun name => getElem?_insertIfNew_eq habsent name op
  have hlookupL : ∀ hash : Int,
      (r.registerOperation getLongHash (nameOf getOpName d) op).declarablesL[hash]? =
        if getLongHash (nameOf getOpName d) = hash then some op else r.declarablesL[hash]? :=
    fun hash => getElem?_insertIfNew_eq habsentL hash op
  constructor
  · intro name op' hname
    rw [hlookup] at hname
    rw [List.map_append, List.mem_append]
    split at hname
    · rename_i heq
      exact Or.inr (by simp [heq])
    · exact Or.inl (h.named _ _ hname)
  · intro hash op'
    rw [hlookupL]
    constructor
    · intro hfound
      split at hfound
      · rename_i hhash
        exact ⟨nameOf getOpName d, hhash, by rw [hlookup, if_pos rfl]; exact hfound⟩
      · obtain ⟨name, hhash, hname⟩ := (h.hashed _ _).mp hfound
        have hne : ¬ nameOf getOpName d = name := fun heq =>
          hnew _ (h.named _ _ hname) (by rw [heq])
        exact ⟨name, hhash, by rw [hlookup, if_neg hne]; exact hname⟩
    · rintro ⟨name, rfl, hname⟩
      rw [hlookup] at hname
      split at hname
      · rename_i heq
        rw [heq, if_pos rfl]
        exact hname
      · rw [if_neg fun heq => hnew _ (h.named _ _ hname) heq.symm]
        exact (h.hashed _ _).mpr ⟨name, rfl, hname⟩
  · intro hash oname
    refine (h.deferred hash oname).trans ?_
    constructor
    · rintro ⟨name, hhash, hmem, hnone⟩
      have hne : ¬ nameOf getOpName d = name := fun heq =>
        hnew name (List.mem_map_of_mem hmem) (by rw [heq])
      exact ⟨name, hhash, List.mem_append_left _ hmem, by rw [hlookup, if_neg hne]; exact hnone⟩
    · rintro ⟨name, hhash, hmem, hnone⟩
      rw [hlookup] at hnone
      split at hnone
      · exact absurd hnone (Option.some_ne_none op)
      · rename_i hne
        rcases List.mem_append.mp hmem with hmem | hmem
        · exact ⟨name, hhash, hmem, hnone⟩
        · rw [List.mem_singleton] at hmem
          exact absurd (by rw [← hmem]; rfl) hne

/-- A synonym of a name that is not there is deferred. -/
theorem Filed.defer {name oname : String}
    (hnew : ∀ name' ∈ registrations.map (nameOf getOpName), getLongHash name' ≠ getLongHash name) :
    Filed getLongHash getOpName (registrations ++ [.synonym name oname])
      (r.updateMSVC (getLongHash name) oname) := by
  have hnone : r.getOperation name = none :=
    h.getOperation_eq_none fun hmem => hnew _ hmem rfl
  have habsent : r.msvc[getLongHash name]? = none := by
    rw [Option.eq_none_iff_forall_ne_some]
    intro oname' hfound
    obtain ⟨name', hhash, hmem, -⟩ := (h.deferred _ _).mp hfound
    exact hnew _ (List.mem_map_of_mem hmem) hhash
  have hlookup : ∀ hash : Int, (r.updateMSVC (getLongHash name) oname).msvc[hash]? =
      if getLongHash name = hash then some oname else r.msvc[hash]? :=
    fun hash => getElem?_insertIfNew_eq habsent hash oname
  constructor
  · intro name' op hname
    rw [List.map_append]
    exact List.mem_append_left _ (h.named _ _ hname)
  · exact h.hashed
  · intro hash oname'
    rw [hlookup]
    constructor
    · intro hfound
      split at hfound
      · rename_i hhash
        obtain rfl := Option.some.inj hfound
        exact ⟨name, hhash, List.mem_append_right _ (List.mem_singleton_self _), hnone⟩
      · obtain ⟨name', hhash, hmem, hnone'⟩ := (h.deferred _ _).mp hfound
        exact ⟨name', hhash, List.mem_append_left _ hmem, hnone'⟩
    · rintro ⟨name', rfl, hmem, hnone'⟩
      rcases List.mem_append.mp hmem with hmem | hmem
      · rw [if_neg fun heq => hnew _ (List.mem_map_of_mem hmem) heq.symm]
        exact (h.deferred _ _).mpr ⟨name', rfl, hmem, hnone'⟩
      · rw [List.mem_singleton, Registration.synonym.injEq] at hmem
        rw [hmem.1, hmem.2, if_pos rfl]

end Filing

/-- The tables after any declarations of names with distinct hashes. -/
theorem filed_registered (hdistinct : DistinctHashes getLongHash getOpName registrations) :
    Filed getLongHash getOpName registrations (registered getLongHash getOpName registrations) := by
  induction registrations using List.reverseRecOn with
  | nil => exact filed_empty
  | append_singleton registrations d ih =>
      obtain ⟨hold, hnew⟩ := hdistinct.of_append_singleton
      have hfiled := ih hold
      rw [registered_append_singleton]
      cases d with
      | operation op => exact hfiled.registerOperation (d := .operation op) hnew
      | synonym name oname =>
          simp only [register, registerSynonym]
          split
          · exact hfiled.defer hnew
          · exact hfiled.registerOperation (d := .synonym name oname) hnew

/-! ## Declarations in order -/

/-- A declaration changes what is filed under its own name only. -/
theorem getOperation_append_singleton
    (hdistinct : DistinctHashes getLongHash getOpName (registrations ++ [d])) {name : String}
    (hne : name ≠ nameOf getOpName d) :
    (registered getLongHash getOpName (registrations ++ [d])).getOperation name =
      (registered getLongHash getOpName registrations).getOperation name := by
  obtain ⟨hold, hnew⟩ := hdistinct.of_append_singleton
  have hfiled := filed_registered hold
  have hkept : ∀ op, ((registered getLongHash getOpName registrations).registerOperation
      getLongHash (nameOf getOpName d) op).getOperation name =
      (registered getLongHash getOpName registrations).getOperation name := by
    intro op
    have habsent : (registered getLongHash getOpName registrations).getOperation
        (nameOf getOpName d) = none :=
      hfiled.getOperation_eq_none fun hmem => hnew _ hmem rfl
    exact (getElem?_insertIfNew_eq habsent name op).trans (if_neg (Ne.symm hne))
  rw [registered_append_singleton]
  cases d with
  | operation op => exact hkept op
  | synonym name' oname =>
      simp only [register, registerSynonym]
      split
      · rfl
      · exact hkept _

theorem InOrder.of_append_singleton (h : InOrder getOpName (registrations ++ [d])) :
    InOrder getOpName registrations ∧
      ∀ name oname, d = .synonym name oname → oname ∈ registrations.map (nameOf getOpName) := by
  constructor
  · rintro before name oname rest rfl
    exact h before name oname (rest ++ [d]) (by simp)
  · rintro name oname rfl
    exact h registrations name oname [] rfl

/-- Declarations in order file every name, and a synonym with its operation. -/
theorem getOperation_of_inOrder (hdistinct : DistinctHashes getLongHash getOpName registrations)
    (horder : InOrder getOpName registrations) :
    (∀ name ∈ registrations.map (nameOf getOpName),
      ((registered getLongHash getOpName registrations).getOperation name).isSome) ∧
    ∀ name oname, .synonym name oname ∈ registrations →
      (registered getLongHash getOpName registrations).getOperation name =
        (registered getLongHash getOpName registrations).getOperation oname := by
  induction registrations using List.reverseRecOn with
  | nil => exact ⟨by simp, by simp⟩
  | append_singleton registrations d ih =>
      obtain ⟨hold, hnew⟩ := hdistinct.of_append_singleton
      obtain ⟨hbefore, hdeclared⟩ := horder.of_append_singleton
      obtain ⟨hsome, hsame⟩ := ih hold hbefore
      have hkept : ∀ name ∈ registrations.map (nameOf getOpName),
          (registered getLongHash getOpName (registrations ++ [d])).getOperation name =
            (registered getLongHash getOpName registrations).getOperation name :=
        fun name hname =>
          getOperation_append_singleton hdistinct fun heq => hnew name hname (by rw [heq])
      have habsent : (registered getLongHash getOpName registrations).getOperation
          (nameOf getOpName d) = none :=
        (filed_registered hold).getOperation_eq_none fun hmem => hnew _ hmem rfl
      -- the declaration files its own name, with the operation of its original
      have hself : ∃ op, (registered getLongHash getOpName (registrations ++ [d])).getOperation
          (nameOf getOpName d) = some op ∧ ∀ name oname, d = .synonym name oname →
            (registered getLongHash getOpName registrations).getOperation oname = some op := by
        rw [registered_append_singleton]
        cases d with
        | operation op =>
            exact ⟨op, (getElem?_insertIfNew_eq habsent _ op).trans (if_pos rfl),
              fun _ _ heq => by cases heq⟩
        | synonym name oname =>
            obtain ⟨op, hop⟩ := Option.isSome_iff_exists.mp
              (hsome oname (hdeclared name oname rfl))
            refine ⟨op, ?_, fun _ _ heq => by cases heq; exact hop⟩
            simp only [register, registerSynonym, hop]
            exact (getElem?_insertIfNew_eq habsent _ op).trans (if_pos rfl)
      obtain ⟨op, hop, horiginal⟩ := hself
      constructor
      · intro name hname
        rw [List.map_append, List.mem_append] at hname
        rcases hname with hname | hname
        · rw [hkept name hname]
          exact hsome name hname
        · obtain rfl : name = nameOf getOpName d := by simpa using hname
          rw [hop]
          rfl
      · intro name oname hmem
        rcases List.mem_append.mp hmem with hmem | hmem
        · have hname : name ∈ registrations.map (nameOf getOpName) := List.mem_map_of_mem hmem
          obtain ⟨op', hop'⟩ := Option.isSome_iff_exists.mp (hsome name hname)
          have honame := (filed_registered hold).named oname op'
            ((hsame name oname hmem).symm.trans hop')
          rw [hkept name hname, hkept oname honame]
          exact hsame name oname hmem
        · obtain rfl := List.mem_singleton.mp hmem
          rw [hkept oname (hdeclared name oname rfl), horiginal name oname rfl]
          exact hop

/-! ## Lookups -/

section Lookups

variable {registrations : List Registration} {r : OpRegistrator}

/-- Without deferred names a lookup only reads. -/
theorem lookup_of_no_deferred (hnone : ∀ hash : Int, r.msvc[hash]? = none) (l : Lookup) :
    (∃ op, (lookup getLongHash getOpName { state := r, held := false } l).2 = .returned op) ∧
      (lookup getLongHash getOpName { state := r, held := false } l).1 =
        { state := r, held := false } := by
  cases l with
  | byName name => exact ⟨⟨_, rfl⟩, rfl⟩
  | byHash hash =>
      have hdeferred : r.msvc.contains hash = false := by
        rw [TreeMap.contains_eq_isSome_getElem?, hnone]
        rfl
      simp only [lookup, getOperationByHash, hdeferred, TreeMap.contains_eq_isSome_getElem?]
      cases hhash : r.declarablesL[hash]? with
      | none => simp
      | some op => simp

/-- A name that is filed is found by its hash. -/
theorem Filed.getOperationByHash_of_some (h : Filed getLongHash getOpName registrations r)
    {name : String} {op : OpRef} (hname : r.getOperation name = some op) (held : Bool) :
    (getOperationByHash getLongHash getOpName { state := r, held := held }
      (getLongHash name)).2 = .returned (some op) := by
  have hhash := (h.hashed (getLongHash name) op).mpr ⟨name, rfl, hname⟩
  simp [getOperationByHash, TreeMap.contains_eq_isSome_getElem?, hhash]

/-- A deferred name that stands for nothing throws, with the mutex held. -/
theorem Filed.getOperationByHash_of_deferred (h : Filed getLongHash getOpName registrations r)
    {name oname : String} (hdistinct : DistinctHashes getLongHash getOpName registrations)
    (hmem : .synonym name oname ∈ registrations) (hname : r.getOperation name = none)
    (honame : r.getOperation oname = none) :
    (getOperationByHash getLongHash getOpName { state := r, held := false }
      (getLongHash name)).2 = .threw := by
  have hmsvc := (h.deferred (getLongHash name) oname).mpr ⟨name, rfl, hmem, hname⟩
  have hnot : r.declarablesL[getLongHash name]? = none := by
    rw [Option.eq_none_iff_forall_ne_some]
    intro op hop
    obtain ⟨name', hhash, hname'⟩ := (h.hashed _ _).mp hop
    obtain ⟨d, hd, hdname⟩ := List.mem_map.mp (h.named _ _ hname')
    have hsame : d = .synonym name oname :=
      List.inj_on_of_nodup_map hdistinct hd hmem (by rw [hdname]; exact hhash)
    rw [hsame] at hdname
    rw [← hdname] at hname'
    exact absurd (hname.symm.trans hname') (Option.some_ne_none op).symm
  have hsection : resolveDeferred getLongHash getOpName (getLongHash name) r = (r, none) := by
    rw [resolveDeferred, hmsvc, Option.bind_some, honame]
  have hcritical : critical (resolveDeferred getLongHash getOpName (getLongHash name))
      { state := r, held := false } = ({ state := r, held := true }, .threw) :=
    critical_of_throws rfl hsection
  simp [getOperationByHash, TreeMap.contains_eq_isSome_getElem?, hnot, hmsvc, hcritical, andThen]

end Lookups

/-- A synonym that is declared too early is never filed under its name. -/
theorem getOperation_of_early {before rest : List Registration} {name oname : String}
    (hdistinct : DistinctHashes getLongHash getOpName (before ++ .synonym name oname :: rest))
    (hearly : oname ∉ before.map (nameOf getOpName)) :
    (registered getLongHash getOpName (before ++ .synonym name oname :: rest)).getOperation name =
      none := by
  induction rest using List.reverseRecOn with
  | nil =>
      obtain ⟨hold, hnew⟩ := hdistinct.of_append_singleton
      have hfiled := filed_registered hold
      have honame := hfiled.getOperation_eq_none hearly
      rw [registered_append_singleton]
      simp only [register, registerSynonym, honame]
      exact hfiled.getOperation_eq_none fun hmem => hnew name hmem rfl
  | append_singleton rest d ih =>
      have hassoc : before ++ .synonym name oname :: (rest ++ [d]) =
          (before ++ .synonym name oname :: rest) ++ [d] := by simp
      rw [hassoc] at hdistinct ⊢
      obtain ⟨hold, hnew⟩ := hdistinct.of_append_singleton
      have hmem : name ∈ (before ++ .synonym name oname :: rest).map (nameOf getOpName) :=
        List.mem_map_of_mem (List.mem_append_right _ List.mem_cons_self)
      rw [getOperation_append_singleton hdistinct fun heq => hnew name hmem (by rw [heq])]
      exact ih hold

/-- All lookups lead synonyms to their operations exactly when every synonym is declared after
its operation. -/
theorem reliable_iff_inOrder {registrations : List Registration}
    (hdistinct : DistinctHashes getLongHash getOpName registrations) :
    Reliable getLongHash getOpName registrations ↔ InOrder getOpName registrations := by
  have hfiled := filed_registered hdistinct
  constructor
  · rintro h before name oname rest rfl
    by_contra hearly
    have hmem : .synonym name oname ∈ before ++ .synonym name oname :: rest :=
      List.mem_append_right _ List.mem_cons_self
    have hname := getOperation_of_early hdistinct hearly
    have hresolved := h []
    have honame := Outcome.returned.inj (hresolved.by_name name oname hmem)
    have hthrew := hfiled.getOperationByHash_of_deferred hdistinct hmem hname
      (honame.symm.trans hname)
    obtain ⟨op, hop⟩ := hresolved.returns (.byHash (getLongHash name))
    have hboth : Outcome.threw = Outcome.returned op := hthrew.symm.trans hop
    cases hboth
  · intro horder lookups
    obtain ⟨hsome, hsame⟩ := getOperation_of_inOrder hdistinct horder
    have hnone : ∀ hash : Int,
        (registered getLongHash getOpName registrations).msvc[hash]? = none := by
      intro hash
      rw [Option.eq_none_iff_forall_ne_some]
      intro oname hfound
      obtain ⟨name, -, hmem, hname⟩ := (hfiled.deferred _ _).mp hfound
      have hsome := hsome name (List.mem_map_of_mem hmem)
      rw [hname] at hsome
      exact Bool.noConfusion hsome
    have hafter : afterLookups getLongHash getOpName
        { state := registered getLongHash getOpName registrations, held := false } lookups =
        { state := registered getLongHash getOpName registrations, held := false } := by
      induction lookups with
      | nil => rfl
      | cons l lookups ih =>
          rw [afterLookups, List.foldl_cons, (lookup_of_no_deferred hnone l).2]
          exact ih
    rw [hafter]
    refine ⟨rfl, fun l => (lookup_of_no_deferred hnone l).1, ?_, ?_⟩
    · intro name oname hmem
      exact congrArg Outcome.returned (hsame name oname hmem)
    · intro name oname hmem
      obtain ⟨op, hop⟩ := Option.isSome_iff_exists.mp (hsome name (List.mem_map_of_mem hmem))
      refine (hfiled.getOperationByHash_of_some hop false).trans ?_
      exact congrArg Outcome.returned (hop.symm.trans (hsame name oname hmem))

end Hashes

/-- An operation and its synonym, in order, with the lengths of the names for hashes. -/
theorem reliable_iff_inOrder_dot :
    Reliable (fun name => name.length) (fun _ => "matmul")
        [.operation 0, .synonym "dot" "matmul"] ↔
      InOrder (fun _ => "matmul") [.operation 0, .synonym "dot" "matmul"] :=
  reliable_iff_inOrder (by decide)

/-- A synonym that is declared before its operation is not found by its name. -/
theorem not_reliable_always :
    ¬ ∀ (getLongHash : String → Int) (getOpName : OpRef → String)
      (registrations : List Registration), DistinctHashes getLongHash getOpName registrations →
        Reliable getLongHash getOpName registrations := by
  intro h
  have hresolved := h (fun name => name.length) (fun _ => "matmul")
    [.synonym "dot" "matmul", .operation 0] (by decide) []
  have hsame := hresolved.by_name "dot" "matmul" (by decide)
  exact absurd hsame (by decide)

end OpRegistrator

end Ops
end LibND4J
