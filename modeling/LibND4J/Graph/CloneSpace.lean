import LibND4J.Graph.VariableSpace

/-!
# Clones of a variable space

`clone` walks the pair entries of a space in key order, clones every `Variable` it
meets and files the new object under the pair, under the id when the index is zero, and under
the name.  The lists of external and internal variables and of placeholders are not rebuilt.

Main results:

- Theorem `clone_invariant`: what the clone holds after the walk.
- Theorem `untouched_of_apart`: writes through one space are not seen through another one
  that shares no object and no array with it.
- Theorem `clones_iff`: for a space reached by puts the clone has the same observations
  exactly when the lists are empty, no object is filed under two pairs, and every name leads to
  the object of the last pair that has it.
- Theorem `not_clones_always`: a space with one variable loses its count.
-/

namespace LibND4J
namespace Graph

open Std OrderedMap

/-! ## Objects and arrays -/

/-- The arrays of the program, by content, and the references handed out next. -/
structure Heap (α : Type) where
  arrays : ArrayRef → α
  nextVariable : Nat
  nextArray : Nat

variable {α : Type}

/-- `NDArray::dup`: the new array is the next one. -/
def Heap.dup (h : Heap α) (array : ArrayRef) : Heap α :=
  { h with
    arrays := Function.update h.arrays h.nextArray (h.arrays array)
    nextArray := h.nextArray + 1 }

/-- The object `Variable::clone` returns, with the copy of the array. -/
def Variable.clone (x : Variable) (array : Option ArrayRef) : Variable where
  id := x.id
  ndarray := array
  name := x.name
  placeholder := x.placeholder
  external := x.external
  readOnly := x.readOnly

namespace VariableSpace

/-- `hasVariable(std::string*)`. -/
def hasVariableNamed (s : VariableSpace) (symbol : String) : Bool :=
  s.symbolic.contains symbol

/-- `getVariable(std::string*)`; `none` is the exception of `at`. -/
def getVariableNamed (s : VariableSpace) (symbol : String) : Option VariableRef :=
  s.symbolic[symbol]?

/-- `x.second->clone()`: the new object is the next one. -/
def cloneVariable (s : VariableSpace) (h : Heap α) (v : VariableRef) : VariableSpace × Heap α :=
  match (s.objects v).ndarray with
  | none =>
      ({ s with objects := Function.update s.objects h.nextVariable ((s.objects v).clone none) },
        { h with nextVariable := h.nextVariable + 1 })
  | some array =>
      ({ s with
          objects := Function.update s.objects h.nextVariable
            ((s.objects v).clone (some h.nextArray)) },
        { h.dup array with nextVariable := h.nextVariable + 1 })

/-- The containers after one turn of the loop of `clone`. -/
def fileClone (result : VariableSpace) (pair : Int × Int) (clonedVar : VariableRef) :
    VariableSpace :=
  let result :=
    if pair.2 = 0 then
      if pair.1 < 0 then
        { result with variableMap := result.variableMap.insert pair.1 clonedVar }
      else
        { result with temporary := result.temporary.insert pair.1 clonedVar }
    else
      result
  let result := result.noteName clonedVar
  { result with
    paired := result.paired.insert pair clonedVar
    handles := result.handles ++ [clonedVar] }

/-- One turn of the loop of `clone`. -/
def cloneEntry (state : VariableSpace × Heap α) (x : (Int × Int) × VariableRef) :
    VariableSpace × Heap α :=
  let (result, heap) := state.1.cloneVariable state.2 x.2
  (result.fileClone x.1 state.2.nextVariable, heap)

/-- `VariableSpace::clone`; the objects of the result are those of the program after it. -/
def clone (s : VariableSpace) (h : Heap α) : VariableSpace × Heap α :=
  s.paired.toList.foldl cloneEntry (empty s.objects, h)

/-! ## Writes through a space -/

/-- What can be read of a variable: its fields, and its array by content. -/
def view (objects : VariableRef → Variable) (arrays : ArrayRef → α) (v : VariableRef) :
    Variable × Option α :=
  ((objects v).setNDArray none, (objects v).ndarray.map arrays)

/-- A write through a variable of a space. -/
inductive Write (α : Type)
  | assign (v : VariableRef) (value : α)
  | setId (v : VariableRef) (id : Int)

/-- The variable written through. -/
def Write.target : Write α → VariableRef
  | .assign v _ => v
  | .setId v _ => v

/-- Apply one write to the objects and arrays of the program. -/
def write (memory : (VariableRef → Variable) × (ArrayRef → α)) :
    Write α → (VariableRef → Variable) × (ArrayRef → α)
  | .assign v value =>
      match (memory.1 v).ndarray with
      | none => memory
      | some array => (memory.1, Function.update memory.2 array value)
  | .setId v id => (Function.update memory.1 v ((memory.1 v).setId id), memory.2)

/-- No run of writes through the writers is seen by the readers. -/
def Untouched (memory : (VariableRef → Variable) × (ArrayRef → α))
    (writers readers : VariableRef → Prop) : Prop :=
  ∀ writes : List (Write α), (∀ e ∈ writes, writers e.target) → ∀ v, readers v →
    view (writes.foldl write memory).1 (writes.foldl write memory).2 v = view memory.1 memory.2 v

/-- Two groups of variables share neither an object nor an array. -/
def Apart (objects : VariableRef → Variable) (writers readers : VariableRef → Prop) : Prop :=
  ∀ u v, writers u → readers v →
    u ≠ v ∧ ∀ array, (objects u).ndarray = some array → (objects v).ndarray ≠ some array

/-- A write leaves the array references of all objects as they are. -/
theorem write_ndarray (memory : (VariableRef → Variable) × (ArrayRef → α)) (e : Write α)
    (v : VariableRef) : ((write memory e).1 v).ndarray = (memory.1 v).ndarray := by
  cases e with
  | assign u value =>
      simp only [write]
      split <;> rfl
  | setId u id =>
      simp only [write, Function.update_apply]
      split
      · rename_i huv
        rw [huv]
        rfl
      · rfl

variable {v : VariableRef} {s : VariableSpace}

/-- A write through one group is not seen through a group apart from it. -/
theorem view_write {memory : (VariableRef → Variable) × (ArrayRef → α)}
    {writers readers : VariableRef → Prop} (h : Apart memory.1 writers readers) {e : Write α}
    (he : writers e.target) (hv : readers v) :
    view (write memory e).1 (write memory e).2 v = view memory.1 memory.2 v := by
  obtain ⟨hobject, harray⟩ := h e.target v he hv
  cases e with
  | assign u value =>
      cases hu : (memory.1 u).ndarray with
      | none => simp only [write, hu]
      | some array =>
          have hkept : (memory.1 v).ndarray.map (Function.update memory.2 array value)
              = (memory.1 v).ndarray.map memory.2 := by
            apply Option.map_congr
            intro r hr
            have hne : r ≠ array := by
              rintro rfl
              exact harray r hu hr
            exact Function.update_of_ne hne value memory.2
          simp only [write, hu, view, hkept]
  | setId u id =>
      have hkept : Function.update memory.1 u ((memory.1 u).setId id) v = memory.1 v :=
        Function.update_of_ne (Ne.symm hobject) _ _
      simp only [write, view, hkept]

/-- Writes through one group are not seen through a group apart from it. -/
theorem untouched_of_apart {memory : (VariableRef → Variable) × (ArrayRef → α)}
    {writers readers : VariableRef → Prop} (h : Apart memory.1 writers readers) :
    Untouched memory writers readers := by
  intro writes
  induction writes generalizing memory with
  | nil =>
      intro _ v _
      rfl
  | cons e es ih =>
      intro hwrites v hv
      have hnext : Apart (write memory e).1 writers readers := by
        intro a b ha hb
        rw [write_ndarray, write_ndarray]
        exact h a b ha hb
      rw [List.foldl_cons, ih hnext (fun d hd => hwrites d (List.mem_cons_of_mem _ hd)) v hv]
      exact view_write h (hwrites e (List.mem_cons_self ..)) hv

/-! ## One turn of the walk -/

/-- The containers after one turn, field by field. -/
theorem fileClone_eq (result : VariableSpace) (pair : Int × Int) (v : VariableRef) :
    result.fileClone pair v = { result with
      variableMap := if pair.2 = 0 ∧ pair.1 < 0 then result.variableMap.insert pair.1 v
        else result.variableMap
      temporary := if pair.2 = 0 ∧ ¬ pair.1 < 0 then result.temporary.insert pair.1 v
        else result.temporary
      symbolic := if (result.objects v).name.length ≠ 0
        then result.symbolic.insert (result.objects v).name v else result.symbolic
      paired := result.paired.insert pair v
      handles := result.handles ++ [v] } := by
  unfold fileClone noteName
  by_cases hzero : pair.2 = 0 <;> by_cases hneg : pair.1 < 0 <;>
    by_cases hname : (result.objects v).name.length ≠ 0 <;> simp [hzero, hneg, hname]

/-- What cloning a variable does to the program: the next object is a copy with an array of
its own. -/
structure Copied (s : VariableSpace) (h : Heap α) (v : VariableRef)
    (objects : VariableRef → Variable) (h' : Heap α) : Prop where
  next : h'.nextVariable = h.nextVariable + 1
  arrays_le : h.nextArray ≤ h'.nextArray
  objects_kept : ∀ w, w ≠ h.nextVariable → objects w = s.objects w
  arrays_kept : ∀ r < h.nextArray, h'.arrays r = h.arrays r
  same : view objects h'.arrays h.nextVariable = view s.objects h.arrays v
  own : ∀ r, (objects h.nextVariable).ndarray = some r → h.nextArray ≤ r ∧ r < h'.nextArray

theorem cloneVariable_spec (s : VariableSpace) (h : Heap α) (v : VariableRef) :
    ∃ objects, (s.cloneVariable h v).1 = { s with objects := objects } ∧
      Copied s h v objects (s.cloneVariable h v).2 := by
  cases harray : (s.objects v).ndarray with
  | none =>
      simp only [cloneVariable, harray]
      refine ⟨_, rfl, rfl, Nat.le_refl _, fun w hw => Function.update_of_ne hw _ _,
        fun _ _ => rfl, ?_, ?_⟩
      · simp only [view, Function.update_self, harray]
        rfl
      · intro r hr
        rw [Function.update_self] at hr
        exact absurd hr (by simp [Variable.clone])
  | some array =>
      simp only [cloneVariable, harray]
      refine ⟨_, rfl, rfl, Nat.le_succ _, fun w hw => Function.update_of_ne hw _ _,
        fun r hr => Function.update_of_ne (Nat.ne_of_lt hr) _ _, ?_, ?_⟩
      · have hcopy : (h.dup array).arrays h.nextArray = h.arrays array :=
          Function.update_self _ _ _
        simp only [view, Function.update_self, harray, Variable.clone, Option.map_some, hcopy]
        rfl
      · intro r hr
        rw [Function.update_self] at hr
        have hr : h.nextArray = r := Option.some.inj hr
        exact ⟨Nat.le_of_eq hr, hr ▸ Nat.lt_succ_self _⟩

/-- The greatest pair whose object has the name, which must not be empty. -/
def lastNamed (objects : VariableRef → Variable) (entries : List ((Int × Int) × VariableRef))
    (name : String) : Option (Int × Int) :=
  if name.length = 0 then
    none
  else
    (entries.reverse.find? fun x => (objects x.2).name = name).map Prod.fst

theorem lastNamed_append_singleton (objects : VariableRef → Variable)
    (entries : List ((Int × Int) × VariableRef)) (x : (Int × Int) × VariableRef) (name : String) :
    lastNamed objects (entries ++ [x]) name =
      if (objects x.2).name.length ≠ 0 ∧ (objects x.2).name = name then some x.1
      else lastNamed objects entries name := by
  unfold lastNamed
  rw [List.reverse_append, List.reverse_singleton, List.singleton_append, List.find?_cons]
  by_cases hname : (objects x.2).name = name
  · by_cases hlength : name.length = 0 <;> simp [hname, hlength]
  · simp [hname]

/-- What has been found by the time the entries `done` of `s` are cloned, starting from the
heap `start`. -/
structure Cloning (s : VariableSpace) (start : Heap α) (done : List ((Int × Int) × VariableRef))
    (c : VariableSpace) (h : Heap α) : Prop where
  variables_le : start.nextVariable ≤ h.nextVariable
  arrays_le : start.nextArray ≤ h.nextArray
  objects_kept : ∀ v < start.nextVariable, c.objects v = s.objects v
  arrays_kept : ∀ r < start.nextArray, h.arrays r = start.arrays r
  fresh : ∀ (pair : Int × Int) (u : VariableRef), c.paired[pair]? = some u →
    start.nextVariable ≤ u ∧ u < h.nextVariable
  own : ∀ u, start.nextVariable ≤ u → u < h.nextVariable → ∀ r,
    (c.objects u).ndarray = some r → start.nextArray ≤ r ∧ r < h.nextArray
  distinct : ∀ (p q : Int × Int) (u : VariableRef), c.paired[p]? = some u →
    c.paired[q]? = some u → p = q
  missing : ∀ pair : Int × Int, pair ∉ done.map Prod.fst → c.paired[pair]? = none
  copied : ∀ x ∈ done, ∃ u, c.paired[x.1]? = some u ∧
    view c.objects h.arrays u = view s.objects start.arrays x.2
  named : ∀ name, c.symbolic[name]? = (lastNamed s.objects done name).bind (c.paired[·]?)
  variableMap : ∀ id : Int, c.variableMap[id]? = if id < 0 then c.paired[(id, (0 : Int))]? else none
  temporary : ∀ id : Int, c.temporary[id]? = if id < 0 then none else c.paired[(id, (0 : Int))]?
  external : c.external = []
  internal : c.internal = []
  placeholders : c.placeholders = []

theorem cloning_empty (s : VariableSpace) (start : Heap α) :
    Cloning s start [] (empty s.objects) start where
  variables_le := Nat.le_refl _
  arrays_le := Nat.le_refl _
  objects_kept := fun _ _ => rfl
  arrays_kept := fun _ _ => rfl
  fresh := by simp [empty]
  own := by
    intro u hle hlt
    exact absurd hlt (Nat.not_lt_of_le hle)
  distinct := by simp [empty]
  missing := by simp [empty]
  copied := by simp
  named := by
    intro name
    simp [empty, lastNamed]
  variableMap := by simp [empty]
  temporary := by simp [empty]
  external := rfl
  internal := rfl
  placeholders := rfl

theorem mem_of_lastNamed {objects : VariableRef → Variable}
    {entries : List ((Int × Int) × VariableRef)} {name : String} {pair : Int × Int}
    (h : lastNamed objects entries name = some pair) :
    ∃ v, (pair, v) ∈ entries ∧ (objects v).name = name := by
  unfold lastNamed at h
  split at h
  · exact absurd h (by simp)
  · obtain ⟨x, hx, hpair⟩ := Option.map_eq_some_iff.mp h
    have hmem : x ∈ entries := List.mem_reverse.mp (List.mem_of_find?_eq_some hx)
    exact ⟨x.2, hpair ▸ hmem, by simpa using List.find?_some hx⟩

/-- A view depends on the object and on the array it has. -/
theorem view_congr {objects objects' : VariableRef → Variable} {arrays arrays' : ArrayRef → α}
    (hobject : objects v = objects' v)
    (harray : ∀ r, (objects' v).ndarray = some r → arrays r = arrays' r) :
    view objects arrays v = view objects' arrays' v := by
  unfold view
  rw [hobject]
  exact congrArg _ (Option.map_congr harray)

theorem getElem?_ite_insert {κ : Type} {cmp : κ → κ → Ordering} [TransCmp cmp]
    [LawfulEqCmp cmp] [DecidableEq κ] (p : Prop) [Decidable p] (m : TreeMap κ VariableRef cmp)
    (k a : κ) (v : VariableRef) :
    (if p then m.insert k v else m)[a]? = if p ∧ k = a then some v else m[a]? := by
  by_cases hp : p
  · simp only [hp, if_true, true_and]
    exact getElem?_insert_eq m k a v
  · simp [hp]

section Step

variable {s : VariableSpace} {start : Heap α} {done : List ((Int × Int) × VariableRef)}
  {c : VariableSpace} {h : Heap α}

variable (hc : Cloning s start done c h)

include hc

/-- A source object looks in the middle of the walk as it did before. -/
theorem Cloning.view_source {v : VariableRef} (hobject : v < start.nextVariable)
    (harrays : ∀ r, (s.objects v).ndarray = some r → r < start.nextArray) :
    view c.objects h.arrays v = view s.objects start.arrays v :=
  view_congr (hc.objects_kept v hobject) fun r hr => hc.arrays_kept r (harrays r hr)

/-- Cloning one more object leaves what was cloned before as it is. -/
theorem Cloning.view_copy {v : VariableRef} {objects : VariableRef → Variable} {h' : Heap α}
    (hcopy : Copied c h v objects h') {u : VariableRef} (hle : start.nextVariable ≤ u)
    (hlt : u < h.nextVariable) : view objects h'.arrays u = view c.objects h.arrays u :=
  view_congr (hcopy.objects_kept u (Nat.ne_of_lt hlt)) fun r hr =>
    hcopy.arrays_kept r (hc.own u hle hlt r hr).2

/-- One turn of the walk clones one entry more. -/
theorem Cloning.step {x : (Int × Int) × VariableRef} (hnew : x.1 ∉ done.map Prod.fst)
    (hobject : x.2 < start.nextVariable)
    (harrays : ∀ r, (s.objects x.2).ndarray = some r → r < start.nextArray) :
    Cloning s start (done ++ [x]) (cloneEntry (c, h) x).1 (cloneEntry (c, h) x).2 := by
  obtain ⟨objects, hobjects, hcopy⟩ := cloneVariable_spec c h x.2
  generalize hheap : (c.cloneVariable h x.2).2 = h' at hcopy
  have hentry : cloneEntry (c, h) x =
      (fileClone { c with objects := objects } x.1 h.nextVariable, h') := by
    rw [cloneEntry, ← hobjects, ← hheap]
  rw [hentry, fileClone_eq]
  have hnone : c.paired[x.1]? = none := hc.missing x.1 hnew
  -- the object filed under the new pair is newer than all others
  have hnewer : ∀ pair : Int × Int, c.paired[pair]? ≠ some h.nextVariable :=
    fun pair hu => Nat.lt_irrefl _ (hc.fresh pair _ hu).2
  have hpaired : ∀ pair : Int × Int, (c.paired.insert x.1 h.nextVariable)[pair]? =
      if x.1 = pair then some h.nextVariable else c.paired[pair]? :=
    fun pair => getElem?_insert_eq _ _ _ _
  have hsame := hcopy.same.trans (hc.view_source hobject harrays)
  have hname : (objects h.nextVariable).name = (s.objects x.2).name :=
    congrArg (fun view => view.1.name) hsame
  refine
    { variables_le := hcopy.next ▸ Nat.le_succ_of_le hc.variables_le
      arrays_le := Nat.le_trans hc.arrays_le hcopy.arrays_le
      objects_kept := fun v hv =>
        (hcopy.objects_kept v (Nat.ne_of_lt (Nat.lt_of_lt_of_le hv hc.variables_le))).trans
          (hc.objects_kept v hv)
      arrays_kept := fun r hr =>
        (hcopy.arrays_kept r (Nat.lt_of_lt_of_le hr hc.arrays_le)).trans (hc.arrays_kept r hr)
      fresh := ?_
      own := ?_
      distinct := ?_
      missing := ?_
      copied := ?_
      named := ?_
      variableMap := ?_
      temporary := ?_
      external := hc.external
      internal := hc.internal
      placeholders := hc.placeholders }
  · intro pair u hu
    rw [hpaired] at hu
    rw [hcopy.next]
    split at hu
    · rw [← Option.some.inj hu]
      exact ⟨hc.variables_le, Nat.lt_succ_self _⟩
    · exact (hc.fresh pair u hu).imp_right Nat.lt_succ_of_lt
  · intro u hle hlt r hr
    rw [hcopy.next] at hlt
    by_cases hu : u = h.nextVariable
    · rw [hu] at hr
      exact (hcopy.own r hr).imp_left (Nat.le_trans hc.arrays_le)
    · have hold : u < h.nextVariable := Nat.lt_of_le_of_ne (Nat.le_of_lt_succ hlt) hu
      change (objects u).ndarray = some r at hr
      rw [hcopy.objects_kept u hu] at hr
      exact (hc.own u hle hold r hr).imp_right fun hr => Nat.lt_of_lt_of_le hr hcopy.arrays_le
  · intro p q u hp hq
    rw [hpaired] at hp hq
    split at hp <;> split at hq
    · rename_i hxp hxq
      exact hxp.symm.trans hxq
    · exact absurd (hp ▸ hq) (hnewer q)
    · exact absurd (hq ▸ hp) (hnewer p)
    · exact hc.distinct p q u hp hq
  · intro pair hpair
    rw [List.map_append, List.mem_append, not_or] at hpair
    rw [hpaired, if_neg fun hx => hpair.2 (by simp [hx])]
    exact hc.missing pair hpair.1
  · intro y hy
    rcases List.mem_append.mp hy with hy | hy
    · obtain ⟨u, hu, hview⟩ := hc.copied y hy
      have hne : x.1 ≠ y.1 := fun hxy => hnew (hxy ▸ List.mem_map_of_mem hy)
      refine ⟨u, by rw [hpaired, if_neg hne, hu], ?_⟩
      exact (hc.view_copy hcopy (hc.fresh _ u hu).1 (hc.fresh _ u hu).2).trans hview
    · rw [List.mem_singleton] at hy
      subst hy
      exact ⟨h.nextVariable, by rw [hpaired, if_pos rfl], hsame⟩
  · intro name
    rw [lastNamed_append_singleton]
    simp only [hname]
    rw [getElem?_ite_insert]
    split
    · rw [Option.bind_some, hpaired, if_pos rfl]
    · rw [hc.named]
      -- the entry found among the old ones is not the new one
      apply Option.bind_congr
      intro pair hlast
      obtain ⟨v, hv, -⟩ := mem_of_lastNamed hlast
      have hmem : pair ∈ done.map Prod.fst := List.mem_map_of_mem hv
      have hne : x.1 ≠ pair := by
        rintro rfl
        exact hnew hmem
      rw [hpaired, if_neg hne]
  · intro id
    rw [getElem?_ite_insert, hpaired, hc.variableMap]
    by_cases hx : x.1 = (id, 0)
    · by_cases hneg : id < 0 <;> simp [hx, hneg]
    · rw [if_neg hx, if_neg fun hid => hx (Prod.ext hid.2 hid.1.1)]
  · intro id
    rw [getElem?_ite_insert, hpaired, hc.temporary]
    by_cases hx : x.1 = (id, 0)
    · by_cases hneg : id < 0 <;> simp [hx, hneg]
    · rw [if_neg hx, if_neg fun hid => hx (Prod.ext hid.2 hid.1.1)]

/-- Walking more entries clones them too. -/
theorem Cloning.run (rest : List ((Int × Int) × VariableRef))
    (hkeys : ((done ++ rest).map Prod.fst).Nodup) (hobjects : ∀ x ∈ rest, x.2 < start.nextVariable)
    (harrays : ∀ v < start.nextVariable, ∀ r, (s.objects v).ndarray = some r →
      r < start.nextArray) :
    Cloning s start (done ++ rest) (rest.foldl cloneEntry (c, h)).1
      (rest.foldl cloneEntry (c, h)).2 := by
  induction rest generalizing done c h with
  | nil =>
      rw [List.append_nil]
      exact hc
  | cons x rest ih =>
      have hnew : x.1 ∉ done.map Prod.fst := by
        rw [List.map_append, List.map_cons] at hkeys
        intro hx
        exact (List.nodup_append.mp hkeys).2.2 _ hx _ (List.mem_cons_self ..) rfl
      have hobject : x.2 < start.nextVariable := hobjects x (List.mem_cons_self ..)
      have hstep := hc.step hnew hobject (harrays x.2 hobject)
      rw [List.append_cons] at hkeys ⊢
      exact ih hstep hkeys fun y hy => hobjects y (List.mem_cons_of_mem _ hy)

end Step

/-- The program has made all objects the space can reach, and all arrays these have. -/
structure Allocated (s : VariableSpace) (h : Heap α) : Prop where
  paired : ∀ (pair : Int × Int) (v : VariableRef), s.paired[pair]? = some v → v < h.nextVariable
  arrays : ∀ v < h.nextVariable, ∀ r, (s.objects v).ndarray = some r → r < h.nextArray

/-- What the clone holds after the walk. -/
theorem clone_invariant {start : Heap α} (h : Allocated s start) :
    Cloning s start s.paired.toList (clone s start).1 (clone s start).2 := by
  have hkeys :
      ((([] : List ((Int × Int) × VariableRef)) ++ s.paired.toList).map Prod.fst).Nodup := by
    rw [List.nil_append, TreeMap.map_fst_toList_eq_keys]
    exact TreeMap.nodup_keys
  have hobjects : ∀ x ∈ s.paired.toList, x.2 < start.nextVariable := by
    intro x hx
    exact h.paired x.1 x.2 (TreeMap.mem_toList_iff_getElem?_eq_some.mp hx)
  exact (cloning_empty s start).run s.paired.toList hkeys hobjects h.arrays

/-! ## Observations -/

def externalEntries (s : VariableSpace) : Nat :=
  s.external.length

def internalEntries (s : VariableSpace) : Nat :=
  s.internal.length

/-- The lookups in two spaces agree up to a renaming of the stored objects. -/
structure Mirrors (s c : VariableSpace) (ρ : VariableRef → VariableRef) : Prop where
  one_to_one : ∀ v w, s.Stores v → s.Stores w → ρ v = ρ w → v = w
  hasVariable : ∀ id, c.hasVariable id = s.hasVariable id
  hasVariablePair : ∀ pair, c.hasVariablePair pair = s.hasVariablePair pair
  hasVariableNamed : ∀ symbol, c.hasVariableNamed symbol = s.hasVariableNamed symbol
  getVariable : ∀ id, c.getVariable id = (s.getVariable id).map ρ
  getVariablePair : ∀ pair, c.getVariablePair pair = (s.getVariablePair pair).map ρ
  getVariableNamed : ∀ symbol, c.getVariableNamed symbol = (s.getVariableNamed symbol).map ρ

/-- Ids, pairs and names lead to the objects the walk takes them to lead to. -/
structure Mirrorable (s : VariableSpace) : Prop where
  same_variable : ∀ id, s.getVariable id = s.paired[(id, (0 : Int))]?
  unshared : ∀ (p q : Int × Int) (v : VariableRef), s.paired[p]? = some v →
    s.paired[q]? = some v → p = q
  named : ∀ name, s.symbolic[name]? =
    (lastNamed s.objects s.paired.toList name).bind (s.paired[·]?)

/-- When ids and pairs of index zero are present together, the lookup by pair has no use for
the id. -/
theorem getVariablePair_eq (h : ∀ id, s.hasVariable id ↔ s.hasVariablePair (id, 0))
    (pair : Int × Int) : s.getVariablePair pair = s.paired[pair]? := by
  obtain ⟨id, index⟩ := pair
  unfold getVariablePair
  split
  · rfl
  · rename_i habsent
    rw [if_neg]
    · rw [TreeMap.contains_eq_isSome_getElem?] at habsent
      exact (Option.not_isSome_iff_eq_none.mp habsent).symm
    · rintro ⟨hhas, rfl⟩
      exact habsent ((h id).mp hhas)

section Clone

variable {s : VariableSpace} {start : Heap α} {c : VariableSpace} {h : Heap α}

variable (hc : Cloning s start s.paired.toList c h)

include hc

/-- The clone has an object under the pairs of the source. -/
theorem Cloning.paired_isSome (pair : Int × Int) :
    c.paired[pair]?.isSome = s.paired[pair]?.isSome := by
  cases hs : s.paired[pair]? with
  | none =>
      have hmissing : pair ∉ s.paired.toList.map Prod.fst := by
        rw [TreeMap.map_fst_toList_eq_keys, TreeMap.mem_keys, TreeMap.mem_iff_isSome_getElem?, hs]
        simp
      rw [hc.missing pair hmissing]
  | some v =>
      obtain ⟨u, hu, -⟩ := hc.copied (pair, v) (TreeMap.mem_toList_iff_getElem?_eq_some.mpr hs)
      rw [hu]
      rfl

theorem Cloning.hasVariable_iff (id : Int) : c.hasVariable id ↔ c.hasVariablePair (id, 0) := by
  unfold hasVariable hasVariablePair
  rw [Bool.or_eq_true, TreeMap.contains_eq_isSome_getElem?, TreeMap.contains_eq_isSome_getElem?,
    TreeMap.contains_eq_isSome_getElem?, hc.variableMap, hc.temporary]
  by_cases hneg : id < 0 <;> simp [hneg]

theorem Cloning.getVariable_eq (id : Int) : c.getVariable id = c.paired[(id, (0 : Int))]? := by
  unfold getVariable
  rw [hc.variableMap, hc.temporary]
  by_cases hneg : id < 0 <;> simp [hneg]

/-- A renaming that takes the pairs of the source to those of the clone. -/
theorem Cloning.exists_renaming
    (hunshared : ∀ (p q : Int × Int) (v : VariableRef), s.paired[p]? = some v →
      s.paired[q]? = some v → p = q) :
    ∃ ρ : VariableRef → VariableRef,
      ∀ pair : Int × Int, c.paired[pair]? = s.paired[pair]?.map ρ := by
  classical
  refine ⟨fun v => if h : ∃ pair : Int × Int, s.paired[pair]? = some v
    then (c.paired[h.choose]?).getD 0 else 0, fun pair => ?_⟩
  have hsome := hc.paired_isSome pair
  cases hs : s.paired[pair]? with
  | none =>
      rw [hs, Option.isSome_none] at hsome
      exact Option.isSome_eq_false_iff.mp hsome |> Option.isNone_iff_eq_none.mp
  | some v =>
      rw [hs] at hsome
      obtain ⟨u, hu⟩ := Option.isSome_iff_exists.mp hsome
      have hex : ∃ pair : Int × Int, s.paired[pair]? = some v := ⟨pair, hs⟩
      have hpair : hex.choose = pair := hunshared _ _ v hex.choose_spec hs
      simp only [Option.map_some, dif_pos hex, hpair, hu, Option.getD_some]

omit hc

variable {v : VariableRef} {ρ : VariableRef → VariableRef}

/-- What a name leads to is stored. -/
theorem stores_of_symbolic {name : String} (hv : s.symbolic[name]? = some v) : s.Stores v :=
  Or.inr (Or.inl ⟨name, hv⟩)

theorem stores_of_paired {pair : Int × Int} (hv : s.paired[pair]? = some v) : s.Stores v :=
  Or.inl ⟨pair, hv⟩

theorem stores_of_getVariable {id : Int} (hv : s.getVariable id = some v) : s.Stores v := by
  unfold getVariable at hv
  split at hv
  · exact Or.inr (Or.inr (Or.inl ⟨id, hv⟩))
  · exact Or.inr (Or.inr (Or.inr ⟨id, hv⟩))

/-- Stored objects with the same image are the same. -/
theorem Mirrors.eq_of_map_eq (hm : Mirrors s c ρ) {a b : Option VariableRef}
    (ha : ∀ v, a = some v → s.Stores v) (hb : ∀ v, b = some v → s.Stores v)
    (hab : a.map ρ = b.map ρ) : a = b := by
  cases a with
  | none =>
      cases b with
      | none => rfl
      | some w => exact absurd hab (by simp)
  | some v =>
      cases b with
      | none => exact absurd hab (by simp)
      | some w =>
          have hρ : ρ v = ρ w := by simpa using hab
          rw [hm.one_to_one v w (ha v rfl) (hb w rfl) hρ]

/-- The clone mirrors the source only when the walk takes the keys rightly. -/
theorem Cloning.mirrorable (hc : Cloning s start s.paired.toList c h)
    (hhas : ∀ id, s.hasVariable id ↔ s.hasVariablePair (id, 0)) (hm : Mirrors s c ρ) :
    Mirrorable s := by
  have hpaired : ∀ pair : Int × Int, c.paired[pair]? = s.paired[pair]?.map ρ := by
    intro pair
    rw [← getVariablePair_eq hc.hasVariable_iff, ← getVariablePair_eq hhas]
    exact hm.getVariablePair pair
  refine ⟨fun id => ?_, fun p q v hp hq => ?_, fun name => ?_⟩
  · apply hm.eq_of_map_eq (fun v hv => stores_of_getVariable hv) (fun v hv => stores_of_paired hv)
    rw [← hm.getVariable, ← hpaired, hc.getVariable_eq]
  · apply hc.distinct p q (ρ v)
    · rw [hpaired, hp, Option.map_some]
    · rw [hpaired, hq, Option.map_some]
  · apply hm.eq_of_map_eq (fun v hv => stores_of_symbolic hv)
    · intro v hv
      obtain ⟨pair, -, hpair⟩ := Option.bind_eq_some_iff.mp hv
      exact stores_of_paired hpair
    · have hsymbolic : c.symbolic[name]? = s.symbolic[name]?.map ρ := hm.getVariableNamed name
      rw [← hsymbolic, hc.named, Option.map_bind]
      exact Option.bind_congr fun pair _ => hpaired pair

/-- When ids, pairs and names lead where the walk takes them to lead, every stored object is
filed under a pair. -/
theorem Mirrorable.paired_of_stores (hs : Mirrorable s)
    (hneg : ∀ (id : Int) (v : VariableRef), s.variableMap[id]? = some v → id < 0)
    (hnonneg : ∀ (id : Int) (v : VariableRef), s.temporary[id]? = some v → 0 ≤ id)
    (hv : s.Stores v) : ∃ pair : Int × Int, s.paired[pair]? = some v := by
  rcases hv with hpair | ⟨name, hname⟩ | ⟨id, hid⟩ | ⟨id, hid⟩
  · exact hpair
  · rw [hs.named] at hname
    obtain ⟨pair, -, hpair⟩ := Option.bind_eq_some_iff.mp hname
    exact ⟨pair, hpair⟩
  · refine ⟨(id, 0), ?_⟩
    rw [← hs.same_variable, getVariable, if_pos (hneg id v hid)]
    exact hid
  · refine ⟨(id, 0), ?_⟩
    rw [← hs.same_variable, getVariable, if_neg (Int.not_lt.mpr (hnonneg id v hid))]
    exact hid

/-- When ids, pairs and names lead where the walk takes them to lead, the clone mirrors the
source. -/
theorem Cloning.mirrors (hc : Cloning s start s.paired.toList c h)
    (hhas : ∀ id, s.hasVariable id ↔ s.hasVariablePair (id, 0)) (hs : Mirrorable s)
    (hneg : ∀ (id : Int) (v : VariableRef), s.variableMap[id]? = some v → id < 0)
    (hnonneg : ∀ (id : Int) (v : VariableRef), s.temporary[id]? = some v → 0 ≤ id)
    (hρ : ∀ pair : Int × Int, c.paired[pair]? = s.paired[pair]?.map ρ) : Mirrors s c ρ := by
  have hpair : ∀ pair, c.hasVariablePair pair = s.hasVariablePair pair := by
    intro pair
    rw [hasVariablePair, hasVariablePair, TreeMap.contains_eq_isSome_getElem?,
      TreeMap.contains_eq_isSome_getElem?, hρ, Option.isSome_map]
  have hsymbolic : ∀ symbol : String, c.symbolic[symbol]? = s.symbolic[symbol]?.map ρ := by
    intro symbol
    rw [hc.named, hs.named, Option.map_bind]
    exact Option.bind_congr fun pair _ => hρ pair
  refine
    { one_to_one := fun v w hv hw hvw => ?_
      hasVariable := fun id => ?_
      hasVariablePair := hpair
      hasVariableNamed := fun symbol => ?_
      getVariable := fun id => ?_
      getVariablePair := fun pair => ?_
      getVariableNamed := hsymbolic }
  · obtain ⟨p, hp⟩ := hs.paired_of_stores hneg hnonneg hv
    obtain ⟨q, hq⟩ := hs.paired_of_stores hneg hnonneg hw
    have hpc : c.paired[p]? = some (ρ v) := by rw [hρ, hp, Option.map_some]
    have hqc : c.paired[q]? = some (ρ v) := by rw [hρ, hq, Option.map_some, hvw]
    rw [hc.distinct p q (ρ v) hpc hqc, hq] at hp
    exact (Option.some.inj hp).symm
  · rw [Bool.eq_iff_iff, hc.hasVariable_iff, hhas, hpair]
  · rw [hasVariableNamed, hasVariableNamed, TreeMap.contains_eq_isSome_getElem?,
      TreeMap.contains_eq_isSome_getElem?, hsymbolic, Option.isSome_map]
  · rw [hc.getVariable_eq, hs.same_variable, hρ]
  · rw [getVariablePair_eq hc.hasVariable_iff, getVariablePair_eq hhas, hρ]

end Clone

/-! ## The clone as a whole -/

/-- The space leads to the object, by a key or by one of its lists. -/
def Reaches (s : VariableSpace) (v : VariableRef) : Prop :=
  s.Stores v ∨ v ∈ s.external ∨ v ∈ s.internal ∨ v ∈ s.placeholders

/-- The clone has the same observations as the source, and neither sees what is written
through the other. -/
structure Clones (s : VariableSpace) (start : Heap α) (ρ : VariableRef → VariableRef) : Prop where
  lookups : Mirrors s (clone s start).1 ρ
  same : ∀ v, s.Stores v → view (clone s start).1.objects (clone s start).2.arrays (ρ v) =
    view (clone s start).1.objects (clone s start).2.arrays v
  externalEntries : (clone s start).1.externalEntries = s.externalEntries
  internalEntries : (clone s start).1.internalEntries = s.internalEntries
  placeholders : (clone s start).1.placeholders = s.placeholders.map ρ
  source_untouched : Untouched ((clone s start).1.objects, (clone s start).2.arrays)
    (clone s start).1.Reaches s.Reaches
  clone_untouched : Untouched ((clone s start).1.objects, (clone s start).2.arrays)
    s.Reaches (clone s start).1.Reaches

/-- What holds of a space reached by puts of objects the program has made. -/
structure Grounded (h : Heap α) (s : VariableSpace) : Prop where
  negative : ∀ (id : Int) (v : VariableRef), s.variableMap[id]? = some v → id < 0
  nonnegative : ∀ (id : Int) (v : VariableRef), s.temporary[id]? = some v → 0 ≤ id
  has_iff : ∀ id, s.hasVariable id ↔ s.hasVariablePair (id, 0)
  made : ∀ v, s.Reaches v → v < h.nextVariable
  arrays : ∀ v < h.nextVariable, ∀ r, (s.objects v).ndarray = some r → r < h.nextArray

theorem Grounded.allocated {h : Heap α} (hs : Grounded h s) :
    Allocated s h where
  paired := fun pair v hv => hs.made v (Or.inl (Or.inl ⟨pair, hv⟩))
  arrays := hs.arrays

section Whole

variable {s : VariableSpace} {start : Heap α} {c : VariableSpace} {h : Heap α}

/-- All objects the clone leads to were made by the walk. -/
theorem Cloning.fresh_of_reaches (hc : Cloning s start s.paired.toList c h) {u : VariableRef}
    (hu : c.Reaches u) : start.nextVariable ≤ u ∧ u < h.nextVariable := by
  rcases hu with hstored | hlist | hlist | hlist
  · rcases hstored with ⟨pair, hpair⟩ | ⟨name, hname⟩ | ⟨id, hid⟩ | ⟨id, hid⟩
    · exact hc.fresh pair u hpair
    · rw [hc.named] at hname
      obtain ⟨pair, -, hpair⟩ := Option.bind_eq_some_iff.mp hname
      exact hc.fresh pair u hpair
    · rw [hc.variableMap] at hid
      split at hid
      · exact hc.fresh _ u hid
      · exact absurd hid (by simp)
    · rw [hc.temporary] at hid
      split at hid
      · exact absurd hid (by simp)
      · exact hc.fresh _ u hid
  · exact absurd (hc.external ▸ hlist) (by simp)
  · exact absurd (hc.internal ▸ hlist) (by simp)
  · exact absurd (hc.placeholders ▸ hlist) (by simp)

/-- The clone and its source share neither an object nor an array. -/
theorem Cloning.apart (hc : Cloning s start s.paired.toList c h) (hs : Grounded start s) :
    Apart c.objects c.Reaches s.Reaches := by
  intro u v hu hv
  obtain ⟨hle, hlt⟩ := hc.fresh_of_reaches hu
  have hold : v < start.nextVariable := hs.made v hv
  refine ⟨fun huv => Nat.lt_irrefl _ (Nat.lt_of_lt_of_le (huv ▸ hold) hle), ?_⟩
  intro r hru hrv
  have hfresh : start.nextArray ≤ r := (hc.own u hle hlt r hru).1
  rw [hc.objects_kept v hold] at hrv
  exact Nat.lt_irrefl _ (Nat.lt_of_lt_of_le (hs.arrays v hold r hrv) hfresh)

theorem Apart.symm {objects : VariableRef → Variable} {p q : VariableRef → Prop}
    (h : Apart objects p q) : Apart objects q p := by
  intro u v hu hv
  obtain ⟨hne, harray⟩ := h v u hv hu
  exact ⟨Ne.symm hne, fun r hru hrv => harray r hrv hru⟩

/-- The clone of a grounded space is faithful exactly when the walk takes the keys rightly and
there is nothing on the lists. -/
theorem Grounded.clones_iff_mirrorable (hs : Grounded start s) :
    (∃ ρ, Clones s start ρ) ↔
      Mirrorable s ∧ s.external = [] ∧ s.internal = [] ∧ s.placeholders = [] := by
  have hc := clone_invariant hs.allocated
  constructor
  · rintro ⟨ρ, hclones⟩
    refine ⟨hc.mirrorable hs.has_iff hclones.lookups, ?_, ?_, ?_⟩
    · have hcount := hclones.externalEntries
      rw [externalEntries, externalEntries, hc.external] at hcount
      exact List.length_eq_zero_iff.mp hcount.symm
    · have hcount := hclones.internalEntries
      rw [internalEntries, internalEntries, hc.internal] at hcount
      exact List.length_eq_zero_iff.mp hcount.symm
    · have hlist := hclones.placeholders
      rw [hc.placeholders] at hlist
      exact List.map_eq_nil_iff.mp hlist.symm
  · rintro ⟨hmirrorable, hexternal, hinternal, hplaceholders⟩
    obtain ⟨ρ, hρ⟩ := hc.exists_renaming hmirrorable.unshared
    refine ⟨ρ, hc.mirrors hs.has_iff hmirrorable hs.negative hs.nonnegative hρ, ?_, ?_, ?_, ?_,
      untouched_of_apart (hc.apart hs), untouched_of_apart (hc.apart hs).symm⟩
    · intro v hv
      obtain ⟨pair, hpair⟩ := hmirrorable.paired_of_stores hs.negative hs.nonnegative hv
      obtain ⟨u, hu, hview⟩ :=
        hc.copied (pair, v) (TreeMap.mem_toList_iff_getElem?_eq_some.mpr hpair)
      have hrenamed : u = ρ v := by
        rw [hρ, hpair] at hu
        exact (Option.some.inj hu).symm
      have hmade : v < start.nextVariable := hs.made v (Or.inl hv)
      rw [← hrenamed, hview, hc.view_source hmade (hs.arrays v hmade)]
    · rw [externalEntries, externalEntries, hc.external, hexternal]
    · rw [internalEntries, internalEntries, hc.internal, hinternal]
    · rw [hc.placeholders, hplaceholders, List.map_nil]

end Whole

/-! ## Spaces reached by puts -/

/-- A put leads to one object more, and gives away no array but that of the object. -/
structure Extends (s : VariableSpace) (v : VariableRef) (s' : VariableSpace) : Prop where
  objects : ∀ w, (s'.objects w).ndarray = (s.objects w).ndarray ∨
    (s'.objects w).ndarray = (s.objects v).ndarray
  reaches : ∀ w, s'.Reaches w → w = v ∨ s.Reaches w

theorem Extends.trans {s' s'' : VariableSpace} (h : Extends s v s') (h' : Extends s' v s'') :
    Extends s v s'' where
  objects := by
    intro w
    rcases h'.objects w with hw | hw
    · rw [hw]
      exact h.objects w
    · rw [hw]
      exact Or.inr ((h.objects v).elim id id)
  reaches := by
    intro w hw
    rcases h'.reaches w hw with rfl | hw
    · exact Or.inl rfl
    · exact h.reaches w hw

theorem extends_silentPutVariable (s : VariableSpace) (pair : Int × Int) (v : VariableRef) :
    Extends s v (s.silentPutVariable pair v) where
  objects := fun _ => Or.inl rfl
  reaches := by
    rintro w ((⟨k, hk⟩ | hstored) | hlist)
    · exact (mem_insert_values hk).imp_right fun hold => Or.inl (Or.inl ⟨k, hold⟩)
    · exact Or.inr (Or.inl (Or.inr hstored))
    · exact Or.inr (Or.inr hlist)

theorem extends_notePlaceholder (s : VariableSpace) (v : VariableRef) :
    Extends s v (s.notePlaceholder v) := by
  unfold notePlaceholder
  split
  · refine ⟨fun _ => Or.inl rfl, ?_⟩
    rintro w (hstored | hlist | hlist | hlist)
    · exact Or.inr (Or.inl hstored)
    · exact Or.inr (Or.inr (Or.inl hlist))
    · exact Or.inr (Or.inr (Or.inr (Or.inl hlist)))
    · rcases List.mem_append.mp hlist with hold | hnew
      · exact Or.inr (Or.inr (Or.inr (Or.inr hold)))
      · exact Or.inl (List.mem_singleton.mp hnew)
  · exact ⟨fun _ => Or.inl rfl, fun _ hw => Or.inr hw⟩

theorem extends_noteName (s : VariableSpace) (v : VariableRef) : Extends s v (s.noteName v) := by
  obtain ⟨named, hnamed, hsymbolic⟩ := noteName_eq s v
  rw [hnamed]
  refine ⟨fun _ => Or.inl rfl, ?_⟩
  rintro w ((hpair | ⟨name, hname⟩ | hid) | hlist)
  · exact Or.inr (Or.inl (Or.inl hpair))
  · exact (hsymbolic name w hname).imp_right fun hold => Or.inl (Or.inr (Or.inl ⟨name, hold⟩))
  · exact Or.inr (Or.inl (Or.inr (Or.inr hid)))
  · exact Or.inr (Or.inr hlist)

theorem extends_listVariable (s : VariableSpace) (id : Int) (v : VariableRef) :
    Extends s v (s.listVariable id v) := by
  have hlists : ∀ {l : List VariableRef} {w : VariableRef}, w ∈ l ++ [v] → w = v ∨ w ∈ l := by
    intro l w hw
    rcases List.mem_append.mp hw with hold | hnew
    · exact Or.inr hold
    · exact Or.inl (List.mem_singleton.mp hnew)
  unfold listVariable
  split
  · refine ⟨fun _ => Or.inl rfl, ?_⟩
    rintro w ((hpair | hname | ⟨k, hk⟩ | htemp) | hexternal | hlist)
    · exact Or.inr (Or.inl (Or.inl hpair))
    · exact Or.inr (Or.inl (Or.inr (Or.inl hname)))
    · exact (mem_insert_values hk).imp_right fun hold =>
        Or.inl (Or.inr (Or.inr (Or.inl ⟨k, hold⟩)))
    · exact Or.inr (Or.inl (Or.inr (Or.inr (Or.inr htemp))))
    · exact (hlists hexternal).imp_right fun hold => Or.inr (Or.inl hold)
    · exact Or.inr (Or.inr (Or.inr hlist))
  · refine ⟨fun _ => Or.inl rfl, ?_⟩
    rintro w ((hpair | hname | hvar | ⟨k, hk⟩) | hexternal | hinternal | hlist)
    · exact Or.inr (Or.inl (Or.inl hpair))
    · exact Or.inr (Or.inl (Or.inr (Or.inl hname)))
    · exact Or.inr (Or.inl (Or.inr (Or.inr (Or.inl hvar))))
    · exact (mem_insert_values hk).imp_right fun hold =>
        Or.inl (Or.inr (Or.inr (Or.inr ⟨k, hold⟩)))
    · exact Or.inr (Or.inr (Or.inl hexternal))
    · exact (hlists hinternal).imp_right fun hold => Or.inr (Or.inr (Or.inl hold))
    · exact Or.inr (Or.inr (Or.inr (Or.inr hlist)))

theorem extends_pairUp (s : VariableSpace) (id : Int) (v : VariableRef) :
    Extends s v (s.pairUp id v) := by
  unfold pairUp
  split
  · exact ⟨fun _ => Or.inl rfl, fun _ hw => Or.inr hw⟩
  · exact (extends_silentPutVariable s (id, 0) v).trans (extends_notePlaceholder _ v)

theorem extends_adopt (s : VariableSpace) (id : Int) (v : VariableRef) :
    Extends s v (s.adopt id v) where
  objects := by
    intro w
    simp only [adopt, Function.update_apply]
    split
    · exact Or.inr rfl
    · exact Or.inl rfl
  reaches := fun _ hw => Or.inr hw

theorem extends_addVariable (s : VariableSpace) (id : Int) (v : VariableRef) :
    Extends s v (s.addVariable id v) :=
  (((extends_adopt s id v).trans (extends_noteName _ v)).trans
    (extends_listVariable _ id v)).trans (extends_pairUp _ id v)

theorem extends_updateVariable (s : VariableSpace) (id : Int) (v : VariableRef) :
    Extends s v (s.updateVariable id v) := by
  unfold updateVariable
  split
  · exact ⟨fun _ => Or.inl rfl, fun _ hw => Or.inr hw⟩
  · rename_i l _
    split
    · refine ⟨fun w => ?_, fun _ hw => Or.inr hw⟩
      simp only [Function.update_apply]
      split
      · exact Or.inr rfl
      · exact Or.inl rfl
    · exact ⟨fun _ => Or.inl rfl, fun _ hw => Or.inr hw⟩

theorem extends_putVariable (s : VariableSpace) (id : Int) (v : VariableRef) :
    Extends s v (s.putVariable id v) := by
  unfold putVariable
  split
  · exact extends_updateVariable s id v
  · exact extends_addVariable s id v

theorem extends_putVariablePair (s : VariableSpace) (pair : Int × Int) (v : VariableRef) :
    Extends s v (s.putVariablePair pair v) := by
  have hput := (extends_silentPutVariable s pair v).trans (extends_notePlaceholder _ v)
  unfold putVariablePair
  simp only
  split
  · exact hput.trans (extends_putVariable _ pair.1 v)
  · have hname := hput.trans (extends_noteName _ v)
    exact ⟨hname.objects, hname.reaches⟩

/-- The object a put files. -/
def Put.object : Put → VariableRef
  | .byId _ v => v
  | .byPair _ v => v

theorem extends_put (s : VariableSpace) (e : Put) : Extends s e.object (s.put e) := by
  cases e with
  | byId id v => exact extends_putVariable s id v
  | byPair pair v => exact extends_putVariablePair s pair v

section Puts

variable {h : Heap α} {s s' : VariableSpace} {v : VariableRef}

theorem Grounded.made_of_extends (hs : Grounded h s) (hv : v < h.nextVariable)
    (hextends : Extends s v s') : ∀ w, s'.Reaches w → w < h.nextVariable := by
  intro w hw
  rcases hextends.reaches w hw with rfl | hold
  · exact hv
  · exact hs.made w hold

theorem Grounded.arrays_of_extends (hs : Grounded h s) (hv : v < h.nextVariable)
    (hextends : Extends s v s') :
    ∀ w < h.nextVariable, ∀ r, (s'.objects w).ndarray = some r → r < h.nextArray := by
  intro w hw r hr
  rcases hextends.objects w with hsame | hsame
  · exact hs.arrays w hw r (hsame ▸ hr)
  · exact hs.arrays v hv r (hsame ▸ hr)

theorem grounded_empty {objects : VariableRef → Variable}
    (harrays : ∀ v < h.nextVariable, ∀ r, (objects v).ndarray = some r → r < h.nextArray) :
    Grounded h (empty objects) where
  negative := by simp [empty]
  nonnegative := by simp [empty]
  has_iff := by simp [empty, hasVariable, hasVariablePair]
  made := by simp [empty, Reaches, Stores]
  arrays := harrays

theorem hasVariablePair_of_filed {pair : Int × Int} (hfiled : Filed s pair v s') (k : Int × Int) :
    s'.hasVariablePair k ↔ pair = k ∨ s.hasVariablePair k := by
  unfold hasVariablePair
  rw [TreeMap.contains_eq_isSome_getElem?, TreeMap.contains_eq_isSome_getElem?, hfiled.paired]
  by_cases hk : pair = k <;> simp [hk]

variable (hs : Grounded h s)

include hs

/-- Filing and listing an object keeps the space grounded. -/
theorem Grounded.of_listed {id : Int} (hv : v < h.nextVariable) (hfiled : Filed s (id, 0) v s')
    (hlisted : Listed s id v s') (hextends : Extends s v s') :
    Grounded h s' where
  negative := by
    intro k w hw
    rw [hlisted.variableMap, getElem?_ite_insert] at hw
    split at hw
    · rename_i hk
      exact hk.2 ▸ hk.1
    · exact hs.negative k w hw
  nonnegative := by
    intro k w hw
    rw [hlisted.temporary] at hw
    split at hw
    · exact hs.nonnegative k w hw
    · rename_i hneg
      rw [getElem?_insert_eq] at hw
      split at hw
      · rename_i hk
        exact hk ▸ Int.not_lt.mp hneg
      · exact hs.nonnegative k w hw
  has_iff := by
    intro k
    rw [hasVariablePair_of_filed hfiled, ← hs.has_iff k]
    unfold hasVariable
    rw [hlisted.variableMap, hlisted.temporary]
    by_cases hneg : id < 0 <;> simp [hneg, TreeMap.contains_insert, or_assoc, or_left_comm]
  made := hs.made_of_extends hv hextends
  arrays := hs.arrays_of_extends hv hextends

/-- Filing an object under a pair that leads to no new id keeps the space grounded. -/
theorem Grounded.of_unlisted {pair : Int × Int} (hv : v < h.nextVariable)
    (hbranch : ¬ (pair.2 = 0 ∧ ¬ s.hasVariable pair.1)) (hfiled : Filed s pair v s')
    (hunlisted : Unlisted s s') (hextends : Extends s v s') :
    Grounded h s' where
  negative := by
    rw [hunlisted.variableMap]
    exact hs.negative
  nonnegative := by
    rw [hunlisted.temporary]
    exact hs.nonnegative
  has_iff := by
    intro k
    have hsame : s'.hasVariable k = s.hasVariable k := by
      unfold hasVariable
      rw [hunlisted.variableMap, hunlisted.temporary]
    rw [hasVariablePair_of_filed hfiled, hsame, hs.has_iff k]
    constructor
    · exact Or.inr
    · rintro (rfl | hhas)
      · by_contra habsent
        exact hbranch ⟨rfl, fun hhas => habsent ((hs.has_iff k).mp hhas)⟩
      · exact hhas
  made := hs.made_of_extends hv hextends
  arrays := hs.arrays_of_extends hv hextends

/-- Any put of an object the program has made keeps the space grounded. -/
theorem Grounded.step {e : Put} (he : e.object < h.nextVariable) : Grounded h (s.put e) := by
  have hextends := extends_put s e
  cases e with
  | byId id v =>
      by_cases hhas : s.hasVariable id
      · obtain ⟨objects, hupdate⟩ := updateVariable_eq s id v
        have hput : s.put (.byId id v) = { s with objects := objects } := by
          rw [VariableSpace.put, putVariable, if_pos hhas, hupdate]
        rw [hput] at hextends ⊢
        exact ⟨hs.negative, hs.nonnegative, hs.has_iff, hs.made_of_extends he hextends,
          hs.arrays_of_extends he hextends⟩
      · have hput : s.put (.byId id v) = s.addVariable id v := by
          rw [VariableSpace.put, putVariable, if_neg hhas]
        have hunpaired : ∀ w, s.paired[(id, (0 : Int))]? = some w → w = v := by
          intro w hw
          refine absurd ((hs.has_iff id).mpr ?_) hhas
          rw [hasVariablePair, TreeMap.contains_eq_isSome_getElem?, hw]
          rfl
        obtain ⟨hfiled, hlisted⟩ := addVariable_spec s id v hunpaired
        rw [hput] at hextends ⊢
        exact hs.of_listed he hfiled hlisted hextends
  | byPair pair v =>
      by_cases hbranch : pair.2 = 0 ∧ ¬ s.hasVariable pair.1
      · obtain ⟨id, index⟩ := pair
        obtain ⟨rfl, habsent⟩ := hbranch
        obtain ⟨hfiled, hlisted⟩ := putVariablePair_of_new s id v habsent
        exact hs.of_listed he hfiled hlisted hextends
      · obtain ⟨hfiled, hunlisted⟩ := putVariablePair_of_indexed s pair v hbranch
        exact hs.of_unlisted he hbranch hfiled hunlisted hextends

theorem Grounded.puts (puts : List Put) (hmade : ∀ e ∈ puts, e.object < h.nextVariable) :
    Grounded h (puts.foldl put s) := by
  induction puts generalizing s with
  | nil => exact hs
  | cons e es ih =>
      have hfirst := hs.step (hmade e (List.mem_cons_self ..))
      exact ih hfirst fun d hd => hmade d (List.mem_cons_of_mem _ hd)

end Puts

/-- For a space reached by puts of objects the program has made, the clone has the same
observations exactly when ids, pairs and names lead where the walk takes them to lead and
nothing is on the lists. -/
theorem clones_iff (start : Heap α) (objects : VariableRef → Variable)
    (harrays : ∀ v < start.nextVariable, ∀ r, (objects v).ndarray = some r → r < start.nextArray)
    (puts : List Put) (hmade : ∀ e ∈ puts, e.object < start.nextVariable) :
    (∃ ρ, Clones (puts.foldl put (empty objects)) start ρ) ↔
      Mirrorable (puts.foldl put (empty objects)) ∧
        (puts.foldl put (empty objects)).external = [] ∧
        (puts.foldl put (empty objects)).internal = [] ∧
        (puts.foldl put (empty objects)).placeholders = [] :=
  ((grounded_empty harrays).puts puts hmade).clones_iff_mirrorable

/-- A variable with an output index of its own is cloned with all observations. -/
theorem clones_iff_indexed :
    (∃ ρ, Clones ([Put.byPair (2, 3) 0].foldl put (empty fun _ => .create none "alpha"))
        (⟨fun _ => 0, 1, 0⟩ : Heap Nat) ρ) ↔
      Mirrorable ([Put.byPair (2, 3) 0].foldl put (empty fun _ => .create none "alpha")) ∧
        ([Put.byPair (2, 3) 0].foldl put (empty fun _ => .create none "alpha")).external = [] ∧
        ([Put.byPair (2, 3) 0].foldl put (empty fun _ => .create none "alpha")).internal = [] ∧
        ([Put.byPair (2, 3) 0].foldl put
          (empty fun _ => .create none "alpha")).placeholders = [] :=
  clones_iff ⟨fun _ => 0, 1, 0⟩ (fun _ => .create none "alpha")
    (by simp [Variable.create]) [.byPair (2, 3) 0] (by decide)

/-- The clone of a space with one variable has no entries. -/
theorem not_clones_always :
    ¬ ∀ (start : Heap Nat) (objects : VariableRef → Variable),
      (∀ v < start.nextVariable, ∀ r, (objects v).ndarray = some r → r < start.nextArray) →
      ∀ puts : List Put, (∀ e ∈ puts, e.object < start.nextVariable) →
        ∃ ρ, Clones (puts.foldl put (empty objects)) start ρ := by
  intro h
  obtain ⟨ρ, hclones⟩ := h ⟨fun _ => 0, 1, 0⟩ (fun _ => .create none "")
    (by simp [Variable.create]) [.byId 1 0] (by decide)
  exact absurd hclones.internalEntries (by decide)

end VariableSpace

end Graph
end LibND4J
