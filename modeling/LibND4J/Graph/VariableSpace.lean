import Mathlib.Data.List.Nodup
import Mathlib.Data.List.Count
import LibND4J.Library.OrderedMap
import LibND4J.Library.Runs

/-!
# Variable spaces

A variable space files `Variable` objects under an id and under a pair of an id
and an output index.  Objects are addressed by references, since the space stores
pointers, changes the objects behind them, and deletes every pointer of
`_handles` in its destructor.

Main results:

- Theorem `consistent_iff_admissible`: over a run of puts the containers agree
  and every stored object is owned once, in every state reached, exactly when every
  put files an object that is not owned yet and does not replace the pair entry of a
  present id.
- Theorem `not_consistent_always`: filing one object under two ids makes the
  destructor delete it twice.
-/

namespace LibND4J
namespace Graph

open Std OrderedMap

/-- Pointer to a `Variable` object. -/
abbrev VariableRef := Nat

/-- Pointer to an array. -/
abbrev ArrayRef := Nat

/-- The fields of a `Variable` that the space reads or writes, or copies. -/
structure Variable where
  id : Int
  ndarray : Option ArrayRef
  name : String
  placeholder : Bool
  external : Bool
  readOnly : Bool
deriving Repr, DecidableEq

/-- `Variable(array, name)`. -/
def Variable.create (array : Option ArrayRef) (name : String) : Variable where
  id := 0
  ndarray := array
  name := name
  placeholder := false
  external := false
  readOnly := false

/-- `Variable::setId`. -/
def Variable.setId (x : Variable) (id : Int) : Variable :=
  { x with id := id }

/-- `Variable::setNDArray`. -/
def Variable.setNDArray (x : Variable) (array : Option ArrayRef) : Variable :=
  { x with ndarray := array }

/-- The containers of a variable space (`variableMap` is `_variables`), and the objects
they point to. -/
structure VariableSpace where
  paired : TreeMap (Int × Int) VariableRef pairCmp
  symbolic : TreeMap String VariableRef
  variableMap : TreeMap Int VariableRef
  external : List VariableRef
  internal : List VariableRef
  placeholders : List VariableRef
  autoCounter : Int
  temporary : TreeMap Int VariableRef
  handles : List VariableRef
  objects : VariableRef → Variable

namespace VariableSpace

/-- An empty space among the objects of the program. -/
def empty (objects : VariableRef → Variable) : VariableSpace where
  paired := ∅
  symbolic := ∅
  variableMap := ∅
  external := []
  internal := []
  placeholders := []
  autoCounter := -1
  temporary := ∅
  handles := []
  objects := objects

/-- `hasVariable(int)`. -/
def hasVariable (s : VariableSpace) (id : Int) : Bool :=
  s.variableMap.contains id || s.temporary.contains id

/-- `hasVariable(pair)`. -/
def hasVariablePair (s : VariableSpace) (pair : Int × Int) : Bool :=
  s.paired.contains pair

/-- `getVariable(int)`; `none` is the exception of `at`. -/
def getVariable (s : VariableSpace) (id : Int) : Option VariableRef :=
  if id < 0 then s.variableMap[id]? else s.temporary[id]?

/-- `getVariable(pair)`; `none` is the null pointer. -/
def getVariablePair (s : VariableSpace) (pair : Int × Int) : Option VariableRef :=
  if s.paired.contains pair then
    s.paired[pair]?
  else if s.hasVariable pair.1 ∧ pair.2 = 0 then
    s.getVariable pair.1
  else
    none

def silentPutVariable (s : VariableSpace) (pair : Int × Int) (v : VariableRef) : VariableSpace :=
  { s with paired := s.paired.insert pair v }

/-- Append to the placeholders when the object is one. -/
def notePlaceholder (s : VariableSpace) (v : VariableRef) : VariableSpace :=
  if (s.objects v).placeholder then { s with placeholders := s.placeholders ++ [v] } else s

/-- File the object under its name when it has one. -/
def noteName (s : VariableSpace) (v : VariableRef) : VariableSpace :=
  if (s.objects v).name.length ≠ 0 then
    { s with symbolic := s.symbolic.insert (s.objects v).name v }
  else
    s

/-- `putVariable(int)` for an id that is present: only a missing array is filled in.
The exception of `at` changes nothing. -/
def updateVariable (s : VariableSpace) (id : Int) (v : VariableRef) : VariableSpace :=
  match s.getVariable id with
  | none => s
  | some l =>
      if (s.objects l).ndarray = none ∧ (s.objects v).ndarray ≠ none then
        { s with
          objects := Function.update s.objects l ((s.objects l).setNDArray (s.objects v).ndarray) }
      else
        s

/-- External variables have negative ids and a list of their own. -/
def listVariable (s : VariableSpace) (id : Int) (v : VariableRef) : VariableSpace :=
  if id < 0 then
    { s with external := s.external ++ [v], variableMap := s.variableMap.insert id v }
  else
    { s with internal := s.internal ++ [v], temporary := s.temporary.insert id v }

/-- Take ownership of an object and give it the id. -/
def adopt (s : VariableSpace) (id : Int) (v : VariableRef) : VariableSpace :=
  { s with
    handles := s.handles ++ [v]
    autoCounter := if s.autoCounter ≥ id then id - 1 else s.autoCounter
    objects := Function.update s.objects v ((s.objects v).setId id) }

/-- File the object under the id and index zero unless something is filed there. -/
def pairUp (s : VariableSpace) (id : Int) (v : VariableRef) : VariableSpace :=
  if s.hasVariablePair (id, 0) then
    s
  else
    (s.silentPutVariable (id, 0) v).notePlaceholder v

/-- `putVariable(int)` for a new id. -/
def addVariable (s : VariableSpace) (id : Int) (v : VariableRef) : VariableSpace :=
  (((s.adopt id v).noteName v).listVariable id v).pairUp id v

/-- `putVariable(int, Variable*)`. -/
def putVariable (s : VariableSpace) (id : Int) (v : VariableRef) : VariableSpace :=
  if s.hasVariable id then s.updateVariable id v else s.addVariable id v

/-- `putVariable(pair, Variable*)`. -/
def putVariablePair (s : VariableSpace) (pair : Int × Int) (v : VariableRef) : VariableSpace :=
  let s := (s.silentPutVariable pair v).notePlaceholder v
  if pair.2 = 0 ∧ ¬ s.hasVariable pair.1 then
    s.putVariable pair.1 v
  else
    let s := s.noteName v
    { s with handles := s.handles ++ [v] }

/-! ## What the operations change -/

/-- Noting a placeholder changes the list of placeholders only. -/
theorem notePlaceholder_eq (s : VariableSpace) (v : VariableRef) :
    ∃ noted, s.notePlaceholder v = { s with placeholders := noted } := by
  unfold notePlaceholder
  split
  · exact ⟨_, rfl⟩
  · exact ⟨s.placeholders, rfl⟩

/-- Noting a name changes the names only, and files only the noted object. -/
theorem noteName_eq (s : VariableSpace) (v : VariableRef) :
    ∃ named, s.noteName v = { s with symbolic := named } ∧
      ∀ (name : String) (w : VariableRef), named[name]? = some w →
        w = v ∨ s.symbolic[name]? = some w := by
  unfold noteName
  split
  · exact ⟨_, rfl, fun _ _ h => mem_insert_values h⟩
  · exact ⟨s.symbolic, rfl, fun _ _ h => Or.inr h⟩

/-- Updating a present variable changes objects only. -/
theorem updateVariable_eq (s : VariableSpace) (id : Int) (v : VariableRef) :
    ∃ objects, s.updateVariable id v = { s with objects := objects } := by
  unfold updateVariable
  split
  · exact ⟨s.objects, rfl⟩
  · split
    · exact ⟨_, rfl⟩
    · exact ⟨s.objects, rfl⟩

/-- Listing a variable files it under its id, among the variables of its sign. -/
theorem listVariable_eq (s : VariableSpace) (id : Int) (v : VariableRef) :
    s.listVariable id v = { s with
      variableMap := if id < 0 then s.variableMap.insert id v else s.variableMap
      temporary := if id < 0 then s.temporary else s.temporary.insert id v
      external := if id < 0 then s.external ++ [v] else s.external
      internal := if id < 0 then s.internal else s.internal ++ [v] } := by
  unfold listVariable
  by_cases hneg : id < 0 <;> simp [hneg]

/-- Pairing up leaves the object filed under the id and index zero, provided nothing else
was filed there. -/
theorem pairUp_eq (s : VariableSpace) (id : Int) (v : VariableRef)
    (hpair : ∀ w, s.paired[(id, (0 : Int))]? = some w → w = v) :
    ∃ paired noted, s.pairUp id v = { s with paired := paired, placeholders := noted } ∧
      ∀ k : Int × Int, paired[k]? = if (id, 0) = k then some v else s.paired[k]? := by
  unfold pairUp
  split
  · rename_i hcontains
    refine ⟨s.paired, s.placeholders, rfl, fun k => ?_⟩
    split
    · rename_i hk
      subst hk
      simp only [hasVariablePair, TreeMap.contains_eq_isSome_getElem?,
        Option.isSome_iff_exists] at hcontains
      obtain ⟨w, hw⟩ := hcontains
      rw [hw, hpair w hw]
    · rfl
  · obtain ⟨noted, hnoted⟩ := notePlaceholder_eq (s.silentPutVariable (id, 0) v) v
    rw [hnoted]
    exact ⟨_, noted, rfl, fun k => getElem?_insert_eq _ _ _ _⟩

/-- How a space looks after a put has filed an object that it now owns. -/
structure Filed (s : VariableSpace) (pair : Int × Int) (v : VariableRef) (s' : VariableSpace) :
    Prop where
  handles : s'.handles = s.handles ++ [v]
  paired : ∀ k : Int × Int, s'.paired[k]? = if pair = k then some v else s.paired[k]?
  symbolic : ∀ (name : String) (w : VariableRef),
    s'.symbolic[name]? = some w → w = v ∨ s.symbolic[name]? = some w

/-- The put has also listed the object under the id. -/
structure Listed (s : VariableSpace) (id : Int) (v : VariableRef) (s' : VariableSpace) :
    Prop where
  variableMap : s'.variableMap = if id < 0 then s.variableMap.insert id v else s.variableMap
  temporary : s'.temporary = if id < 0 then s.temporary else s.temporary.insert id v
  external : s'.external = if id < 0 then s.external ++ [v] else s.external
  internal : s'.internal = if id < 0 then s.internal else s.internal ++ [v]

/-- The put has listed nothing. -/
structure Unlisted (s s' : VariableSpace) : Prop where
  variableMap : s'.variableMap = s.variableMap
  temporary : s'.temporary = s.temporary
  external : s'.external = s.external
  internal : s'.internal = s.internal

/-- Adding a new id files and lists the object; the pair of the id and zero may hold it
already. -/
theorem addVariable_spec (s : VariableSpace) (id : Int) (v : VariableRef)
    (hpair : ∀ w, s.paired[(id, (0 : Int))]? = some w → w = v) :
    Filed s (id, 0) v (s.addVariable id v) ∧ Listed s id v (s.addVariable id v) := by
  obtain ⟨named, hnamed, hsym⟩ := noteName_eq (s.adopt id v) v
  obtain ⟨paired, noted, hput, hlookup⟩ :=
    pairUp_eq (((s.adopt id v).noteName v).listVariable id v) id v
      (by rw [hnamed, listVariable_eq]; exact hpair)
  rw [hnamed, listVariable_eq] at hput hlookup
  rw [addVariable, hnamed, listVariable_eq, hput]
  exact ⟨⟨rfl, hlookup, hsym⟩, ⟨rfl, rfl, rfl, rfl⟩⟩

/-- Putting under a pair that leads to no new id files the object only. -/
theorem putVariablePair_of_indexed (s : VariableSpace) (pair : Int × Int) (v : VariableRef)
    (h : ¬ (pair.2 = 0 ∧ ¬ s.hasVariable pair.1)) :
    Filed s pair v (s.putVariablePair pair v) ∧ Unlisted s (s.putVariablePair pair v) := by
  obtain ⟨noted, hnoted⟩ := notePlaceholder_eq (s.silentPutVariable pair v) v
  obtain ⟨named, hnamed, hsym⟩ :=
    noteName_eq { s.silentPutVariable pair v with placeholders := noted } v
  have hput : s.putVariablePair pair v =
      { { s.silentPutVariable pair v with placeholders := noted, symbolic := named } with
        handles := s.handles ++ [v] } := by
    unfold putVariablePair
    rw [hnoted]
    exact (if_neg h).trans (by rw [hnamed]; rfl)
  rw [hput]
  exact ⟨⟨rfl, fun k => getElem?_insert_eq _ _ _ _, hsym⟩, ⟨rfl, rfl, rfl, rfl⟩⟩

/-- Putting under a new id and index zero files and lists the object. -/
theorem putVariablePair_of_new (s : VariableSpace) (id : Int) (v : VariableRef)
    (h : ¬ s.hasVariable id) :
    Filed s (id, 0) v (s.putVariablePair (id, 0) v) ∧
      Listed s id v (s.putVariablePair (id, 0) v) := by
  obtain ⟨noted, hnoted⟩ := notePlaceholder_eq (s.silentPutVariable (id, 0) v) v
  have hput : s.putVariablePair (id, 0) v =
      ({ s.silentPutVariable (id, 0) v with placeholders := noted } : VariableSpace).addVariable
        id v := by
    unfold putVariablePair putVariable
    rw [hnoted]
    exact (if_pos ⟨rfl, h⟩).trans (if_neg h)
  obtain ⟨hfiled, hlisted⟩ :=
    addVariable_spec { s.silentPutVariable (id, 0) v with placeholders := noted } id v (by
      intro w hw
      have hself := getElem?_insert_eq s.paired (id, 0) (id, 0) v
      rw [if_pos rfl] at hself
      exact Option.some.inj (hw.symm.trans hself))
  rw [hput]
  refine ⟨⟨hfiled.handles, fun k => ?_, hfiled.symbolic⟩, ⟨hlisted.1, hlisted.2, hlisted.3,
    hlisted.4⟩⟩
  rw [hfiled.paired k]
  by_cases hk : (id, 0) = k
  · rw [if_pos hk, if_pos hk]
  · rw [if_neg hk, if_neg hk]
    exact (getElem?_insert_eq s.paired (id, 0) k v).trans (if_neg hk)

/-! ## Consistency -/

/-- Some container that is looked up by key holds the object. -/
def Stores (s : VariableSpace) (v : VariableRef) : Prop :=
  (∃ pair : Int × Int, s.paired[pair]? = some v) ∨
    (∃ name : String, s.symbolic[name]? = some v) ∨
    (∃ id : Int, s.variableMap[id]? = some v) ∨ ∃ id : Int, s.temporary[id]? = some v

/-- The containers agree with each other, and every stored object is owned once and
listed once. -/
structure Consistent (s : VariableSpace) : Prop where
  same_variable : ∀ id, s.getVariable id = s.getVariablePair (id, 0)
  has_iff : ∀ id, s.hasVariable id ↔ s.hasVariablePair (id, 0)
  owned_once : ∀ v, s.Stores v → s.handles.count v = 1
  external_once : ∀ id < 0, ∀ v, s.getVariable id = some v → s.external.count v = 1
  internal_once : ∀ id ≥ 0, ∀ v, s.getVariable id = some v → s.internal.count v = 1

/-- A list names each object of a map once, and only owned objects. -/
structure Roster (m : TreeMap Int VariableRef) (listed handles : List VariableRef) : Prop where
  complete : ∀ (id : Int) (v : VariableRef), m[id]? = some v → v ∈ listed
  owned : ∀ v ∈ listed, v ∈ handles
  nodup : listed.Nodup

/-- Owning one more object breaks no roster. -/
theorem Roster.grow {m : TreeMap Int VariableRef} {listed handles : List VariableRef}
    (h : Roster m listed handles) (v : VariableRef) : Roster m listed (handles ++ [v]) where
  complete := h.complete
  owned := fun w hw => List.mem_append_left _ (h.owned w hw)
  nodup := h.nodup

variable {v : VariableRef} {s s' : VariableSpace} {id : Int} {pair : Int × Int}

/-- An object that was not owned joins the map and the list together. -/
theorem Roster.insert {m : TreeMap Int VariableRef} {listed handles : List VariableRef}
    (h : Roster m listed handles) (id : Int) (hv : v ∉ handles) :
    Roster (m.insert id v) (listed ++ [v]) (handles ++ [v]) where
  complete := by
    intro k w hw
    rcases mem_insert_values hw with rfl | hold
    · simp
    · exact List.mem_append_left _ (h.complete k w hold)
  owned := by
    intro w hw
    rcases List.mem_append.mp hw with hw | hw
    · exact List.mem_append_left _ (h.owned w hw)
    · exact List.mem_append_right _ hw
  nodup := by
    apply List.nodup_append.mpr
    refine ⟨h.nodup, List.nodup_singleton v, fun a ha b hb => ?_⟩
    rw [List.mem_singleton] at hb
    rintro rfl
    exact hv (hb ▸ h.owned a ha)

/-- The invariant of a space whose puts file only objects it does not own yet. -/
structure Registered (s : VariableSpace) : Prop where
  negative : ∀ (id : Int) (v : VariableRef), s.variableMap[id]? = some v → id < 0
  nonnegative : ∀ (id : Int) (v : VariableRef), s.temporary[id]? = some v → 0 ≤ id
  paired_zero : ∀ id : Int, s.paired[(id, (0 : Int))]? = s.getVariable id
  stores_owned : ∀ v, s.Stores v → v ∈ s.handles
  handles_nodup : s.handles.Nodup
  external : Roster s.variableMap s.external s.handles
  internal : Roster s.temporary s.internal s.handles

/-- An empty space is registered. -/
theorem registered_empty (objects : VariableRef → Variable) : Registered (empty objects) where
  negative := by simp [empty]
  nonnegative := by simp [empty]
  paired_zero := by simp [empty, getVariable]
  stores_owned := by simp [empty, Stores]
  handles_nodup := List.nodup_nil
  external := ⟨by simp [empty], by simp [empty], List.nodup_nil⟩
  internal := ⟨by simp [empty], by simp [empty], List.nodup_nil⟩

/-- In a registered space an id is present when it can be looked up. -/
theorem Registered.hasVariable_iff (h : Registered s) (id : Int) :
    s.hasVariable id ↔ (s.getVariable id).isSome := by
  unfold hasVariable getVariable
  rw [Bool.or_eq_true, TreeMap.contains_eq_isSome_getElem?, TreeMap.contains_eq_isSome_getElem?]
  split
  · rename_i hneg
    have habsent : s.temporary[id]? = none := by
      apply Option.eq_none_iff_forall_ne_some.mpr
      intro v hv
      have := h.nonnegative id v hv
      omega
    simp [habsent]
  · rename_i hneg
    have habsent : s.variableMap[id]? = none := by
      apply Option.eq_none_iff_forall_ne_some.mpr
      intro v hv
      exact hneg (h.negative id v hv)
    simp [habsent]

/-- A registered space is consistent. -/
theorem Registered.consistent (h : Registered s) : Consistent s where
  same_variable := by
    intro id
    unfold getVariablePair
    rw [TreeMap.contains_eq_isSome_getElem?, h.paired_zero]
    split
    · rfl
    · rename_i hnone
      rw [if_neg fun hhas => hnone ((h.hasVariable_iff id).mp hhas.1)]
      simpa using hnone
  has_iff := by
    intro id
    rw [h.hasVariable_iff, hasVariablePair, TreeMap.contains_eq_isSome_getElem?, h.paired_zero]
  owned_once := fun v hv => List.count_eq_one_of_mem h.handles_nodup (h.stores_owned v hv)
  external_once := by
    intro id hid v hv
    rw [getVariable, if_pos hid] at hv
    exact List.count_eq_one_of_mem h.external.nodup (h.external.complete id v hv)
  internal_once := by
    intro id hid v hv
    rw [getVariable, if_neg (by omega)] at hv
    exact List.count_eq_one_of_mem h.internal.nodup (h.internal.complete id v hv)

/-- After a listed put the id, and no other, is looked up as the new object. -/
theorem Listed.getVariable_eq (h : Listed s id v s') (k : Int) :
    s'.getVariable k = if id = k then some v else s.getVariable k := by
  unfold getVariable
  rw [h.variableMap, h.temporary]
  by_cases hk : id = k
  · subst hk
    split <;> simp
  · by_cases hneg : id < 0 <;> simp [hneg, hk, getElem?_insert_eq]

/-- What a put stores is the new object or was stored before. -/
theorem Filed.stores {w : VariableRef} (h : Filed s pair v s')
    (hvar : ∀ id : Int, s'.variableMap[id]? = some w → w = v ∨ s.variableMap[id]? = some w)
    (htemp : ∀ id : Int, s'.temporary[id]? = some w → w = v ∨ s.temporary[id]? = some w)
    (hw : s'.Stores w) : w = v ∨ s.Stores w := by
  rcases hw with ⟨k, hk⟩ | ⟨name, hname⟩ | ⟨id, hid⟩ | ⟨id, hid⟩
  · rw [h.paired] at hk
    split at hk
    · exact Or.inl (Option.some.inj hk).symm
    · exact Or.inr (Or.inl ⟨k, hk⟩)
  · exact (h.symbolic name w hname).imp_right fun hold => Or.inr (Or.inl ⟨name, hold⟩)
  · exact (hvar id hid).imp_right fun hold => Or.inr (Or.inr (Or.inl ⟨id, hold⟩))
  · exact (htemp id hid).imp_right fun hold => Or.inr (Or.inr (Or.inr ⟨id, hold⟩))

/-- The owned objects after a put of an object that was not owned. -/
theorem Filed.handles_nodup (h : Filed s pair v s') (hnodup : s.handles.Nodup)
    (hv : v ∉ s.handles) : s'.handles.Nodup := by
  rw [h.handles]
  apply List.nodup_append.mpr
  refine ⟨hnodup, List.nodup_singleton v, fun a ha b hb => ?_⟩
  rw [List.mem_singleton] at hb
  rintro rfl
  exact hv (hb ▸ ha)

/-- Filing and listing an object that was not owned keeps the space registered. -/
theorem Registered.of_listed (h : Registered s) (hv : v ∉ s.handles) (hfiled : Filed s (id, 0) v s')
    (hlisted : Listed s id v s') : Registered s' where
  negative := by
    intro k w hw
    rw [hlisted.variableMap] at hw
    split at hw
    · rename_i hneg
      rw [getElem?_insert_eq] at hw
      split at hw
      · rename_i hk
        exact hk ▸ hneg
      · exact h.negative k w hw
    · exact h.negative k w hw
  nonnegative := by
    intro k w hw
    rw [hlisted.temporary] at hw
    split at hw
    · exact h.nonnegative k w hw
    · rename_i hneg
      rw [getElem?_insert_eq] at hw
      split at hw
      · rename_i hk
        omega
      · exact h.nonnegative k w hw
  paired_zero := by
    intro k
    rw [hfiled.paired, hlisted.getVariable_eq, h.paired_zero]
    by_cases hk : id = k <;> simp [hk]
  stores_owned := by
    intro w hw
    rw [hfiled.handles]
    have hvar : ∀ k : Int, s'.variableMap[k]? = some w → w = v ∨ s.variableMap[k]? = some w := by
      intro k hk
      rw [hlisted.variableMap] at hk
      split at hk
      · exact mem_insert_values hk
      · exact Or.inr hk
    have htemp : ∀ k : Int, s'.temporary[k]? = some w → w = v ∨ s.temporary[k]? = some w := by
      intro k hk
      rw [hlisted.temporary] at hk
      split at hk
      · exact Or.inr hk
      · exact mem_insert_values hk
    rcases hfiled.stores hvar htemp hw with rfl | hold
    · simp
    · exact List.mem_append_left _ (h.stores_owned w hold)
  handles_nodup := hfiled.handles_nodup h.handles_nodup hv
  external := by
    rw [hlisted.variableMap, hlisted.external, hfiled.handles]
    split
    · exact h.external.insert id hv
    · exact h.external.grow v
  internal := by
    rw [hlisted.temporary, hlisted.internal, hfiled.handles]
    split
    · exact h.internal.grow v
    · exact h.internal.insert id hv

/-- Filing an object that was not owned under an index other than zero keeps the space
registered. -/
theorem Registered.of_unlisted (h : Registered s) (hpair : pair.2 ≠ 0) (hv : v ∉ s.handles)
    (hfiled : Filed s pair v s') (hunlisted : Unlisted s s') : Registered s' where
  negative := by
    rw [hunlisted.variableMap]
    exact h.negative
  nonnegative := by
    rw [hunlisted.temporary]
    exact h.nonnegative
  paired_zero := by
    intro k
    rw [hfiled.paired, if_neg (by rintro rfl; exact hpair rfl), h.paired_zero]
    unfold getVariable
    rw [hunlisted.variableMap, hunlisted.temporary]
  stores_owned := by
    intro w hw
    rw [hfiled.handles]
    rcases hfiled.stores (fun k hk => Or.inr (hunlisted.variableMap ▸ hk))
      (fun k hk => Or.inr (hunlisted.temporary ▸ hk)) hw with rfl | hold
    · simp
    · exact List.mem_append_left _ (h.stores_owned w hold)
  handles_nodup := hfiled.handles_nodup h.handles_nodup hv
  external := by
    rw [hunlisted.variableMap, hunlisted.external, hfiled.handles]
    exact h.external.grow v
  internal := by
    rw [hunlisted.temporary, hunlisted.internal, hfiled.handles]
    exact h.internal.grow v

/-- A space that files an object it owns already owns it twice. -/
theorem Filed.not_consistent (h : Filed s pair v s') (hv : v ∈ s.handles) : ¬ Consistent s' := by
  intro hcons
  have hstored : s'.Stores v := Or.inl ⟨pair, by rw [h.paired, if_pos rfl]⟩
  have honce := hcons.owned_once v hstored
  have hpos : 0 < s.handles.count v := List.count_pos_iff.mpr hv
  rw [h.handles, List.count_append, List.count_singleton_self] at honce
  omega

/-! ## Runs of puts -/

/-- A call that files an object. -/
inductive Put
  | byId (id : Int) (v : VariableRef)
  | byPair (pair : Int × Int) (v : VariableRef)
deriving Repr, DecidableEq

/-- Apply one put. -/
def put (s : VariableSpace) : Put → VariableSpace
  | .byId id v => s.putVariable id v
  | .byPair pair v => s.putVariablePair pair v

/-- The put files an object the space does not own, and does not replace the pair entry
of a present id; a put under a present id files nothing and is always admissible. -/
def Admissible (s : VariableSpace) : Put → Prop
  | .byId id v => s.hasVariable id ∨ v ∉ s.handles
  | .byPair pair v => v ∉ s.handles ∧ ¬ (pair.2 = 0 ∧ s.hasVariable pair.1)

instance (s : VariableSpace) : (e : Put) → Decidable (s.Admissible e)
  | .byId _ _ => inferInstanceAs (Decidable (_ ∨ _))
  | .byPair _ _ => inferInstanceAs (Decidable (_ ∧ _))

/-- A put under a present id keeps the space registered. -/
theorem Registered.updateVariable (h : Registered s) (id : Int) (v : VariableRef) :
    Registered (s.updateVariable id v) := by
  obtain ⟨objects, hupdate⟩ := updateVariable_eq s id v
  rw [hupdate]
  exact ⟨h.negative, h.nonnegative, h.paired_zero, h.stores_owned, h.handles_nodup, h.external,
    h.internal⟩

/-- In a registered space nothing is filed under the pair of an absent id. -/
theorem Registered.paired_absent (h : Registered s) (habsent : ¬ s.hasVariable id)
    (v w : VariableRef) : s.paired[(id, (0 : Int))]? = some w → w = v := by
  intro hw
  rw [h.paired_zero] at hw
  exact absurd ((h.hasVariable_iff id).mpr (by rw [hw]; rfl)) habsent

/-- The step rule of puts: the admissible ones, and only those, keep the space consistent. -/
theorem stepRule_put : Runs.StepRule put Registered Consistent Admissible where
  good_of_inv := fun _ h => h.consistent
  preserved := by
    intro s e h hadm
    cases e with
    | byId id v =>
        by_cases hhas : s.hasVariable id
        · simp only [put, putVariable, hhas, if_true]
          exact h.updateVariable id v
        · simp only [put, putVariable, hhas]
          obtain ⟨hfiled, hlisted⟩ := addVariable_spec s id v (h.paired_absent hhas v)
          exact h.of_listed (hadm.resolve_left hhas) hfiled hlisted
    | byPair pair v =>
        obtain ⟨hv, hnew⟩ := hadm
        by_cases hbranch : pair.2 = 0 ∧ ¬ s.hasVariable pair.1
        · obtain ⟨id, index⟩ := pair
          obtain ⟨rfl, habsent⟩ := hbranch
          obtain ⟨hfiled, hlisted⟩ := putVariablePair_of_new s id v habsent
          exact h.of_listed hv hfiled hlisted
        · have hindex : pair.2 ≠ 0 := by
            intro hzero
            exact hbranch ⟨hzero, fun hhas => hnew ⟨hzero, hhas⟩⟩
          obtain ⟨hfiled, hunlisted⟩ := putVariablePair_of_indexed s pair v hbranch
          exact h.of_unlisted hindex hv hfiled hunlisted
  necessary := by
    intro s e h hcons
    cases e with
    | byId id v =>
        by_cases hhas : s.hasVariable id
        · exact Or.inl hhas
        · refine Or.inr fun hv => ?_
          simp only [put, putVariable, hhas] at hcons
          exact (addVariable_spec s id v (h.paired_absent hhas v)).1.not_consistent hv hcons
    | byPair pair v =>
        have hfiled : Filed s pair v (s.put (.byPair pair v)) := by
          by_cases hbranch : pair.2 = 0 ∧ ¬ s.hasVariable pair.1
          · obtain ⟨id, index⟩ := pair
            obtain ⟨rfl, habsent⟩ := hbranch
            exact (putVariablePair_of_new s id v habsent).1
          · exact (putVariablePair_of_indexed s pair v hbranch).1
        refine ⟨fun hv => hfiled.not_consistent hv hcons, ?_⟩
        rintro ⟨hzero, hhas⟩
        -- the id keeps its old object while the pair entry is replaced
        have hunlisted := (putVariablePair_of_indexed s pair v fun hb => hb.2 hhas).2
        obtain ⟨old, hold⟩ := Option.isSome_iff_exists.mp ((h.hasVariable_iff pair.1).mp hhas)
        have hkept : (s.put (.byPair pair v)).getVariable pair.1 = some old := by
          rw [← hold]
          simp only [getVariable, put, hunlisted.variableMap, hunlisted.temporary]
        have hlookup : (s.put (.byPair pair v)).paired[(pair.1, (0 : Int))]? = some v := by
          have hpair : pair = (pair.1, 0) := Prod.ext rfl hzero
          rw [hfiled.paired, if_pos hpair]
        have hsame := hcons.same_variable pair.1
        rw [hkept, getVariablePair, TreeMap.contains_eq_isSome_getElem?, hlookup] at hsame
        have hold_eq : old = v := Option.some.inj hsame
        have howned : old ∈ s.handles := by
          apply h.stores_owned
          exact Or.inl ⟨(pair.1, 0), by rw [h.paired_zero, hold]⟩
        exact hfiled.not_consistent (hold_eq ▸ howned) hcons

/-- Over a run of puts into an empty space, every state reached is consistent exactly when
every put is admissible. -/
theorem consistent_iff_admissible (objects : VariableRef → Variable) (puts : List Put) :
    (∀ s ∈ Runs.trace put (empty objects) puts, Consistent s) ↔
      Runs.Meets put Admissible (empty objects) puts :=
  stepRule_put.forall_trace_iff (registered_empty objects)

/-- Filing one object under two ids makes the destructor delete it twice. -/
theorem not_consistent_always :
    ¬ ∀ (objects : VariableRef → Variable) (puts : List Put),
      ∀ s ∈ Runs.trace put (empty objects) puts, Consistent s := by
  intro h
  have hmeets := (stepRule_put.forall_trace_iff (registered_empty _)).mp
    (h (fun _ => .create none "") [.byId 1 7, .byId 2 7])
  exact absurd hmeets.2.1 (by decide)

end VariableSpace

end Graph
end LibND4J
