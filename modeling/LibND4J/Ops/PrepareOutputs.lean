import LibND4J.Graph.CloneSpace

/-!
# Outputs of a declarable operation

`prepareOutputs` allocates an array for every output of a node that has none, with the
shape that `calculateOutputShape` gives.  An output that has an array keeps it, whatever its
shape: it may be left from an earlier execution or have been stored by `storeResult`.

Main results:

- Theorem `Sound.prepareOutput`: one turn of the loop over the outputs.
- Theorem `Sound.prepared_iff_fits`: the outputs have the calculated shapes exactly when the
  arrays that are kept have them and outputs with one variable are given one shape.
- Theorem `prepared_run_iff`: the same in every execution of a run.
- Theorem `not_prepared_always`: an operation executed twice, the second time on a larger
  input.
-/

namespace LibND4J
namespace Ops

open Std LibND4J.Graph VariableSpace

/-! ## Operations, blocks and machines -/

/-- What the operation reads of an array. -/
structure ArrayInfo where
  shape : List Nat
  nonNull : Bool
deriving Repr, DecidableEq

/-- The fields of a block. -/
structure Block where
  nodeId : Int
  inputs : List VariableRef
  isInplace : Bool
deriving Repr, DecidableEq

/-- A declarable operation: the number of outputs of its descriptor and its shape function. -/
structure DeclarableOp where
  numberOfOutputs : Nat
  calculateOutputShape : List (List Nat) → Block → List (List Nat)

/-- A variable space and the arrays of the program. -/
structure Machine where
  space : VariableSpace
  heap : Heap ArrayInfo

namespace Machine

/-- `new NDArray`. -/
def newArray (m : Machine) (info : ArrayInfo) : Machine :=
  { m with heap := { m.heap with
      arrays := Function.update m.heap.arrays m.heap.nextArray info
      nextArray := m.heap.nextArray + 1 } }

/-- `new Variable(array)`. -/
def newVariable (m : Machine) (array : ArrayRef) : Machine where
  space := { m.space with
    objects := Function.update m.space.objects m.heap.nextVariable (.create (some array) "") }
  heap := { m.heap with nextVariable := m.heap.nextVariable + 1 }

/-- `Variable::setNDArray`. -/
def setNDArray (m : Machine) (v : VariableRef) (array : Option ArrayRef) : Machine :=
  { m with space := { m.space with
      objects := Function.update m.space.objects v ((m.space.objects v).setNDArray array) } }

/-- The array of a variable; `none` is the null pointer. -/
def getNDArray (m : Machine) (v : VariableRef) : Option ArrayInfo :=
  (m.space.objects v).ndarray.map m.heap.arrays

/-- The variable has an array with a buffer. -/
def hasArray (m : Machine) (v : VariableRef) : Bool :=
  (m.getNDArray v).any ArrayInfo.nonNull

def validateNonEmptyInput (m : Machine) (block : Block) : Bool :=
  !block.inputs.isEmpty && block.inputs.all m.hasArray

/-- The shapes of the inputs, as `prepareOutputs` collects them. -/
def inputShapes (m : Machine) (block : Block) : List (List Nat) :=
  block.inputs.filterMap fun v => (m.getNDArray v).map ArrayInfo.shape

/-- One turn of the loop of `prepareOutputs`, for the shape `out` and its index `cnt`. -/
def prepareOutput (nodeId : Int) (m : Machine) (out : List Nat) (cnt : Nat) : Machine :=
  let pair := (nodeId, (cnt : Int))
  if m.space.hasVariablePair pair ∧ (m.space.getVariablePair pair).any m.hasArray then
    m
  else
    let outArr := m.heap.nextArray
    let m := m.newArray ⟨out, true⟩
    match m.space.getVariablePair pair with
    | none =>
        let var := m.heap.nextVariable
        let m := m.newVariable outArr
        { m with space := m.space.putVariablePair pair var }
    | some var => m.setNDArray var (some outArr)

/-- The loop of `prepareOutputs` from the index `cnt` on. -/
def prepareLoop (nodeId : Int) : Machine → List (List Nat) → Nat → Machine
  | m, [], _ => m
  | m, out :: outs, cnt => prepareLoop nodeId (m.prepareOutput nodeId out cnt) outs (cnt + 1)

def prepareOutputs (op : DeclarableOp) (block : Block) (m : Machine) : Machine :=
  if block.isInplace then
    m
  else
    prepareLoop block.nodeId m (op.calculateOutputShape (m.inputShapes block) block) 0

/-- `storeResult`; `none` is the use of a null pointer. -/
def storeResult (op : DeclarableOp) (block : Block) (m : Machine) (outputNumber : Nat)
    (array : ArrayRef) : Option Machine :=
  if outputNumber = 0 ∧ op.numberOfOutputs = 1 then
    if ¬ m.space.hasVariable block.nodeId then
      some m
    else
      (m.space.getVariable block.nodeId).map fun var => m.setNDArray var (some array)
  else
    (m.space.getVariablePair (block.nodeId, (outputNumber : Int))).map fun var =>
      m.setNDArray var (some array)

/-! ## Runs -/

/-- What can happen between and in the executions of the operation. -/
inductive Event
  /-- `execute`, up to the call of `validateAndExecute`. -/
  | execute
  /-- An array is made. -/
  | newArray (info : ArrayInfo)
  /-- An array is changed in place. -/
  | changeArray (array : ArrayRef) (info : ArrayInfo)
  /-- A variable is given an array, or none. -/
  | setNDArray (v : VariableRef) (array : Option ArrayRef)
  /-- The operation stores a result. -/
  | storeResult (outputNumber : Nat) (array : ArrayRef)
deriving Repr, DecidableEq

/-- One event.  `none`: a pointer is null or points to no array that was made. -/
def step (op : DeclarableOp) (block : Block) (m : Machine) : Event → Option Machine
  | .execute =>
      some (if m.validateNonEmptyInput block then m.prepareOutputs op block else m)
  | .newArray info => some (m.newArray info)
  | .changeArray array info =>
      if array < m.heap.nextArray then
        some { m with
          heap := { m.heap with arrays := Function.update m.heap.arrays array info } }
      else
        none
  | .setNDArray v array =>
      if array.all (· < m.heap.nextArray) then some (m.setNDArray v array) else none
  | .storeResult outputNumber array =>
      if array < m.heap.nextArray then m.storeResult op block outputNumber array else none

/-- The states in which the run calls `prepareOutputs`. -/
def starts (op : DeclarableOp) (block : Block) : Machine → List Event → List Machine
  | _, [] => []
  | m, e :: es =>
      (if e = .execute ∧ m.validateNonEmptyInput block then [m] else []) ++
        match m.step op block e with
        | none => []
        | some next => starts op block next es

variable {op : DeclarableOp} {block : Block} {m : Machine} {v : VariableRef} {array : ArrayRef}
    {pair : Int × Int}

theorem starts_execute (h : m.validateNonEmptyInput block = true) (es : List Event) :
    m.starts op block (.execute :: es) = m :: (m.prepareOutputs op block).starts op block es := by
  simp [starts, step, h]

theorem starts_newArray (op : DeclarableOp) (block : Block) (m : Machine) (info : ArrayInfo)
    (es : List Event) :
    m.starts op block (.newArray info :: es) = (m.newArray info).starts op block es := by
  simp [starts, step]

theorem starts_setNDArray (h : array < m.heap.nextArray) (es : List Event) :
    m.starts op block (.setNDArray v (some array) :: es) =
      (m.setNDArray v (some array)).starts op block es := by
  simp [starts, step, h]

/-- The output holds an array of the shape. -/
def HoldsShape (m : Machine) (nodeId : Int) (k : Nat) (shape : List Nat) : Prop :=
  ∃ v, m.space.getVariablePair (nodeId, (k : Int)) = some v ∧
    m.getNDArray v = some ⟨shape, true⟩

/-- After `prepareOutputs` every output holds an array of the shape calculated for it. -/
def Prepared (op : DeclarableOp) (block : Block) (m : Machine) : Prop :=
  ∀ k shape, (op.calculateOutputShape (m.inputShapes block) block)[k]? = some shape →
    HoldsShape (m.prepareOutputs op block) block.nodeId k shape

/-- The arrays the outputs have already are of the shapes, and outputs with one variable have
one shape. -/
structure Fits (m : Machine) (nodeId : Int) (shapes : List (List Nat)) : Prop where
  kept : ∀ (k : Nat) shape v info, shapes[k]? = some shape →
    m.space.getVariablePair (nodeId, (k : Int)) = some v → m.getNDArray v = some info →
    info.nonNull = true → info.shape = shape
  shared : ∀ (j k : Nat) shape shape' v, shapes[j]? = some shape → shapes[k]? = some shape' →
    m.space.getVariablePair (nodeId, (j : Int)) = some v →
    m.space.getVariablePair (nodeId, (k : Int)) = some v → shape = shape'

/-! ## What the operations change -/

variable (s : VariableSpace)

include s

theorem noteName_objects (v : VariableRef) : (s.noteName v).objects = s.objects := by
  unfold noteName
  split <;> rfl

theorem notePlaceholder_objects (v : VariableRef) : (s.notePlaceholder v).objects = s.objects := by
  unfold notePlaceholder
  split <;> rfl

theorem pairUp_objects (id : Int) (v : VariableRef) : (s.pairUp id v).objects = s.objects := by
  unfold pairUp
  split
  · rfl
  · exact notePlaceholder_objects _ v

/-- Adding a variable gives objects an id, but no arrays. -/
theorem addVariable_ndarray (id : Int) (v w : VariableRef) :
    ((s.addVariable id v).objects w).ndarray = (s.objects w).ndarray := by
  rw [addVariable, pairUp_objects, listVariable_eq]
  simp only [noteName_objects, adopt, Function.update_apply]
  split
  · rename_i hw
    rw [hw]
    rfl
  · rfl

/-- Putting under a pair gives away no arrays. -/
theorem putVariablePair_ndarray (pair : Int × Int) (v w : VariableRef) :
    ((s.putVariablePair pair v).objects w).ndarray = (s.objects w).ndarray := by
  have hput : ((s.silentPutVariable pair v).notePlaceholder v).objects = s.objects :=
    notePlaceholder_objects _ v
  unfold putVariablePair
  simp only
  split
  · rename_i hnew
    rw [putVariable, if_neg hnew.2, addVariable_ndarray, hput]
  · simp only [noteName_objects, hput]

/-- Whatever the pair, putting files the object under it. -/
theorem filed_putVariablePair (pair : Int × Int) (v : VariableRef) :
    Filed s pair v (s.putVariablePair pair v) := by
  by_cases hbranch : pair.2 = 0 ∧ ¬ s.hasVariable pair.1
  · obtain ⟨id, index⟩ := pair
    obtain ⟨rfl, habsent⟩ := hbranch
    exact (putVariablePair_of_new s id v habsent).1
  · exact (putVariablePair_of_indexed s pair v hbranch).1

omit s

/-- What is true of every machine: the space is reached by puts and its pointers lead to
objects and arrays that were made. -/
def Sound (m : Machine) : Prop :=
  Grounded m.heap m.space

theorem Sound.newArray (h : m.Sound) (info : ArrayInfo) :
    (m.newArray info).Sound where
  negative := h.negative
  nonnegative := h.nonnegative
  has_iff := h.has_iff
  made := h.made
  arrays := fun v hv r hr => Nat.lt_succ_of_lt (h.arrays v hv r hr)

theorem Sound.setNDArray (h : m.Sound) (v : VariableRef) {array : Option ArrayRef}
    (harray : ∀ r, array = some r → r < m.heap.nextArray) : (m.setNDArray v array).Sound where
  negative := h.negative
  nonnegative := h.nonnegative
  has_iff := h.has_iff
  made := h.made
  arrays := by
    intro w hw r hr
    simp only [Machine.setNDArray, Function.update_apply] at hr
    split at hr
    · exact harray r hr
    · exact h.arrays w hw r hr

theorem Sound.newVariable (h : m.Sound) (harray : array < m.heap.nextArray) :
    (m.newVariable array).Sound where
  negative := h.negative
  nonnegative := h.nonnegative
  has_iff := h.has_iff
  made := fun v hv => Nat.lt_succ_of_lt (h.made v hv)
  arrays := by
    intro w hw r hr
    simp only [Machine.newVariable, Function.update_apply] at hr
    split at hr
    · exact Option.some.inj hr ▸ harray
    · rename_i hne
      exact h.arrays w (Nat.lt_of_le_of_ne (Nat.le_of_lt_succ hw) hne) r hr

theorem Sound.putVariablePair (h : m.Sound) (pair : Int × Int) (hv : v < m.heap.nextVariable) :
    Sound { m with space := m.space.putVariablePair pair v } :=
  Grounded.step (e := .byPair pair v) h hv

/-- The lookup by pair in a sound machine. -/
theorem Sound.getVariablePair_eq (h : m.Sound) (pair : Int × Int) :
    m.space.getVariablePair pair = m.space.paired[pair]? :=
  VariableSpace.getVariablePair_eq h.has_iff pair

theorem Sound.lt_nextVariable (h : m.Sound) (hv : m.space.paired[pair]? = some v) :
    v < m.heap.nextVariable :=
  h.made v (Or.inl (Or.inl ⟨pair, hv⟩))

/-- A new array changes what no variable reads. -/
theorem Sound.getNDArray_newArray (h : m.Sound) (info : ArrayInfo) {w : VariableRef}
    (hw : w < m.heap.nextVariable) : (m.newArray info).getNDArray w = m.getNDArray w := by
  apply Option.map_congr
  intro r hr
  exact Function.update_of_ne (Nat.ne_of_lt (h.arrays w hw r hr)) _ _

/-- The turn has supplied an output, which had no array, with one of the shape. -/
structure Supplies (m : Machine) (pair : Int × Int) (out : List Nat) (v : VariableRef)
    (m' : Machine) : Prop where
  paired : ∀ k : Int × Int, m'.space.paired[k]? = if pair = k then some v else m.space.paired[k]?
  bare : m.space.paired[pair]? = some v ∧ m.hasArray v = false ∨
    m.space.paired[pair]? = none ∧ v = m.heap.nextVariable
  supplied : m'.getNDArray v = some ⟨out, true⟩
  others : ∀ w : VariableRef, w < m.heap.nextVariable → w ≠ v →
    m'.getNDArray w = m.getNDArray w

/-- A variable that is there is given a new array. -/
theorem Sound.supplies_present (h : m.Sound) (out : List Nat) (hv : m.space.paired[pair]? = some v)
    (hbare : m.hasArray v = false) :
    Supplies m pair out v ((m.newArray ⟨out, true⟩).setNDArray v (some m.heap.nextArray)) where
  paired := by
    intro k
    split
    · rename_i hk
      exact hk ▸ hv
    · rfl
  bare := Or.inl ⟨hv, hbare⟩
  supplied := by
    simp only [getNDArray, Machine.setNDArray, Machine.newArray, Function.update_self,
      Variable.setNDArray, Option.map_some]
  others := by
    intro w hw hne
    rw [← h.getNDArray_newArray ⟨out, true⟩ hw]
    simp only [getNDArray, Machine.setNDArray, Function.update_of_ne hne]

/-- A variable is made for a pair that has none. -/
theorem Sound.supplies_absent (h : m.Sound) (out : List Nat)
    (hnone : m.space.paired[pair]? = none) :
    Supplies m pair out m.heap.nextVariable
      { (m.newArray ⟨out, true⟩).newVariable m.heap.nextArray with
        space := ((m.newArray ⟨out, true⟩).newVariable m.heap.nextArray).space.putVariablePair pair
          m.heap.nextVariable } where
  paired := fun k => (filed_putVariablePair _ pair m.heap.nextVariable).paired k
  bare := Or.inr ⟨hnone, rfl⟩
  supplied := by
    simp only [getNDArray, putVariablePair_ndarray]
    simp only [Machine.newVariable, Machine.newArray, Function.update_self, Variable.create,
      Option.map_some]
  others := by
    intro w hw hne
    rw [← h.getNDArray_newArray ⟨out, true⟩ hw]
    have hobject : ((m.newArray ⟨out, true⟩).newVariable m.heap.nextArray).space.objects w =
        m.space.objects w := Function.update_of_ne hne _ _
    simp only [getNDArray, putVariablePair_ndarray, hobject]
    rfl

/-- One turn of the loop keeps the output's array or supplies one. -/
theorem Sound.prepareOutput (h : m.Sound) (nodeId : Int) (out : List Nat) (cnt : Nat) :
    (m.prepareOutput nodeId out cnt).Sound ∧
      (m.prepareOutput nodeId out cnt = m ∧
          (∃ v, m.space.paired[(nodeId, (cnt : Int))]? = some v ∧ m.hasArray v = true) ∨
        ∃ v, Supplies m (nodeId, cnt) out v (m.prepareOutput nodeId out cnt)) := by
  have hnext : m.heap.nextArray < (m.newArray ⟨out, true⟩).heap.nextArray := Nat.lt_succ_self _
  have hlookup := h.getVariablePair_eq (nodeId, (cnt : Int))
  cases hv : m.space.paired[(nodeId, (cnt : Int))]? with
  | none =>
      have hput : m.prepareOutput nodeId out cnt =
          { (m.newArray ⟨out, true⟩).newVariable m.heap.nextArray with
            space := ((m.newArray ⟨out, true⟩).newVariable m.heap.nextArray).space.putVariablePair
              (nodeId, (cnt : Int)) m.heap.nextVariable } := by
        have hlater : (m.newArray ⟨out, true⟩).space.getVariablePair (nodeId, (cnt : Int)) = none :=
          hlookup.trans hv
        simp only [Machine.prepareOutput, hlookup, hv, hlater, Option.any_none, Bool.false_eq_true,
          and_false, if_false]
        rfl
      rw [hput]
      exact ⟨((h.newArray _).newVariable hnext).putVariablePair _ (Nat.lt_succ_self _),
        Or.inr ⟨_, h.supplies_absent out hv⟩⟩
  | some v =>
      have hhas : m.space.hasVariablePair (nodeId, (cnt : Int)) = true := by
        rw [hasVariablePair, TreeMap.contains_eq_isSome_getElem?, hv]
        rfl
      cases harray : m.hasArray v with
      | true =>
          have hkept : m.prepareOutput nodeId out cnt = m := by
            simp only [Machine.prepareOutput, hlookup, hv, hhas, Option.any_some, harray, and_self,
              if_true]
          rw [hkept]
          exact ⟨h, Or.inl ⟨rfl, v, rfl, harray⟩⟩
      | false =>
          have hset : m.prepareOutput nodeId out cnt =
              (m.newArray ⟨out, true⟩).setNDArray v (some m.heap.nextArray) := by
            have hlater : (m.newArray ⟨out, true⟩).space.getVariablePair (nodeId, (cnt : Int)) =
                some v := hlookup.trans hv
            simp only [Machine.prepareOutput, hlookup, hv, hlater, Option.any_some, harray,
              Bool.false_eq_true, and_false, if_false]
          rw [hset]
          refine ⟨(h.newArray _).setNDArray v ?_, Or.inr ⟨v, h.supplies_present out hv harray⟩⟩
          intro r hr
          exact Option.some.inj hr ▸ hnext

/-- Outputs stay filed, and those that have an array keep it as it is. -/
structure Persists (m m' : Machine) : Prop where
  paired : ∀ (pair : Int × Int) (v : VariableRef), m.space.paired[pair]? = some v →
    m'.space.paired[pair]? = some v
  arrays : ∀ (pair : Int × Int) (v : VariableRef) (info : ArrayInfo),
    m.space.paired[pair]? = some v → m.getNDArray v = some info → info.nonNull = true →
    m'.getNDArray v = some info

section Supplied

variable {m m' : Machine} {pair : Int × Int} {out : List Nat} {v : VariableRef}

/-- What another pair leads to was there before, and is the supplied variable only when the
supplied pair led to it as well. -/
theorem Supplies.paired_before (hs : Supplies m pair out v m') (h : m.Sound) {k : Int × Int}
    {w : VariableRef} (hne : pair ≠ k) (hw : m'.space.paired[k]? = some w) :
    m.space.paired[k]? = some w ∧ (w = v → m.space.paired[pair]? = some v) := by
  rw [hs.paired, if_neg hne] at hw
  refine ⟨hw, ?_⟩
  rintro rfl
  rcases hs.bare with ⟨hpair, -⟩ | ⟨-, hfresh⟩
  · exact hpair
  · exact absurd (h.lt_nextVariable hw) (hfresh ▸ Nat.lt_irrefl _)

theorem Supplies.persists (hs : Supplies m pair out v m') (h : m.Sound) : Persists m m' where
  paired := by
    intro k w hw
    rw [hs.paired]
    split
    · rename_i hk
      rcases hs.bare with ⟨hpair, -⟩ | ⟨hnone, -⟩
      · exact hpair.symm.trans (hk ▸ hw)
      · rw [hk, hw] at hnone
        exact absurd hnone (by simp)
    · exact hw
  arrays := by
    intro k w info hw hinfo hnonNull
    have hlt : w < m.heap.nextVariable := h.lt_nextVariable hw
    have hne : w ≠ v := by
      rintro rfl
      rcases hs.bare with ⟨-, hbare⟩ | ⟨-, hfresh⟩
      · rw [hasArray, hinfo, Option.any_some, hnonNull] at hbare
        exact absurd hbare (by decide)
      · exact absurd hlt (hfresh ▸ Nat.lt_irrefl _)
    rw [hs.others w hlt hne, hinfo]

end Supplied

/-- One turn of the loop leaves what the outputs have. -/
theorem Sound.persists_prepareOutput (h : m.Sound) (nodeId : Int) (out : List Nat) (cnt : Nat) :
    Persists m (m.prepareOutput nodeId out cnt) := by
  obtain ⟨-, ⟨hkept, -⟩ | ⟨v, hs⟩⟩ := h.prepareOutput nodeId out cnt
  · rw [hkept]
    exact ⟨fun _ _ hv => hv, fun _ _ _ _ hinfo _ => hinfo⟩
  · exact hs.persists h

theorem Sound.prepareLoop (h : m.Sound) (nodeId : Int) (outs : List (List Nat)) (cnt : Nat) :
    (prepareLoop nodeId m outs cnt).Sound := by
  induction outs generalizing m cnt with
  | nil => exact h
  | cons out outs ih => exact ih (h.prepareOutput nodeId out cnt).1 (cnt + 1)

/-- The loop leaves what the outputs have. -/
theorem Sound.persists_prepareLoop (h : m.Sound) (nodeId : Int) (outs : List (List Nat))
    (cnt : Nat) : Persists m (Machine.prepareLoop nodeId m outs cnt) := by
  induction outs generalizing m cnt with
  | nil => exact ⟨fun _ _ hv => hv, fun _ _ _ _ hinfo _ => hinfo⟩
  | cons out outs ih =>
      have hfirst := h.persists_prepareOutput nodeId out cnt
      have hrest := ih (h.prepareOutput nodeId out cnt).1 (cnt + 1)
      refine ⟨fun k v hv => hrest.paired k v (hfirst.paired k v hv), ?_⟩
      intro k v info hv hinfo hnonNull
      exact hrest.arrays k v info (hfirst.paired k v hv) (hfirst.arrays k v info hv hinfo hnonNull)
        hnonNull

/-- What an output holds it goes on holding. -/
theorem Persists.holdsShape {m' : Machine} (hp : Persists m m') (h : m.Sound) (h' : m'.Sound)
    {nodeId : Int} {k : Nat} {shape : List Nat} (hk : m.HoldsShape nodeId k shape) :
    m'.HoldsShape nodeId k shape := by
  obtain ⟨v, hv, hinfo⟩ := hk
  rw [h.getVariablePair_eq] at hv
  refine ⟨v, ?_, hp.arrays _ v _ hv hinfo rfl⟩
  rw [h'.getVariablePair_eq]
  exact hp.paired _ v hv

/-! ## When the outputs are right -/

section Turn

variable {m m' : Machine} {nodeId : Int} {cnt : Nat} {out : List Nat} {v : VariableRef}
  {shapes : List (List Nat)}

/-- A turn that supplies an output breaks no fit. -/
theorem Supplies.fits (hs : Supplies m (nodeId, (cnt : Int)) out v m') (h : m.Sound)
    (h' : m'.Sound) (hout : shapes[cnt]? = some out) (hfits : m.Fits nodeId shapes) :
    m'.Fits nodeId shapes where
  kept := by
    intro k shape w info hshape hw hinfo hnonNull
    rw [h'.getVariablePair_eq] at hw
    by_cases hk : (nodeId, (cnt : Int)) = (nodeId, (k : Int))
    · have hcnt : cnt = k := Int.ofNat_inj.mp (congrArg Prod.snd hk)
      rw [hs.paired, if_pos hk, Option.some.injEq] at hw
      rw [← hw, hs.supplied, Option.some.injEq] at hinfo
      rw [← hcnt, hout, Option.some.injEq] at hshape
      rw [← hinfo, ← hshape]
    · obtain ⟨hold, hsame⟩ := hs.paired_before h hk hw
      by_cases hwv : w = v
      · have hshared := hfits.shared cnt k out shape v hout hshape
          ((h.getVariablePair_eq _).trans (hsame hwv))
          ((h.getVariablePair_eq _).trans (hwv ▸ hold))
        rw [hwv, hs.supplied, Option.some.injEq] at hinfo
        rw [← hinfo, ← hshared]
      · rw [hs.others w (h.lt_nextVariable hold) hwv] at hinfo
        exact hfits.kept k shape w info hshape ((h.getVariablePair_eq _).trans hold) hinfo hnonNull
  shared := by
    intro j k shape shape' w hj hk hwj hwk
    rw [h'.getVariablePair_eq] at hwj hwk
    -- an index other than that of the turn shared its variable before
    have hturn : ∀ {i : Nat} {s : List Nat}, shapes[i]? = some s →
        m'.space.paired[(nodeId, (i : Int))]? = some v → out = s := by
      intro i s hi hv
      by_cases hcnt : (nodeId, (cnt : Int)) = (nodeId, (i : Int))
      · have hcnt : cnt = i := Int.ofNat_inj.mp (congrArg Prod.snd hcnt)
        rw [← hcnt, hout] at hi
        exact Option.some.inj hi
      · obtain ⟨hold, hsame⟩ := hs.paired_before h hcnt hv
        exact hfits.shared cnt i out s v hout hi ((h.getVariablePair_eq _).trans (hsame rfl))
          ((h.getVariablePair_eq _).trans hold)
    by_cases hwv : w = v
    · rw [← hturn hj (hwv ▸ hwj), ← hturn hk (hwv ▸ hwk)]
    · have hold : ∀ {i : Nat}, m'.space.paired[(nodeId, (i : Int))]? = some w →
          m.space.getVariablePair (nodeId, (i : Int)) = some w := by
        intro i hi
        rw [hs.paired] at hi
        split at hi
        · exact absurd (Option.some.inj hi).symm hwv
        · exact (h.getVariablePair_eq _).trans hi
      exact hfits.shared j k shape shape' w hj hk (hold hwj) (hold hwk)

/-- After its turn an output holds an array of its shape. -/
theorem Sound.holdsShape_prepareOutput (h : m.Sound) (hout : shapes[cnt]? = some out)
    (hfits : m.Fits nodeId shapes) :
    (m.prepareOutput nodeId out cnt).HoldsShape nodeId cnt out ∧
      (m.prepareOutput nodeId out cnt).Fits nodeId shapes := by
  obtain ⟨h', ⟨hkept, v, hv, harray⟩ | ⟨v, hs⟩⟩ := h.prepareOutput nodeId out cnt
  · rw [hkept]
    refine ⟨⟨v, (h.getVariablePair_eq _).trans hv, ?_⟩, hfits⟩
    obtain ⟨info, hinfo, hnonNull⟩ := (Option.any_eq_true _ _).mp harray
    have hshape := hfits.kept cnt out v info hout ((h.getVariablePair_eq _).trans hv) hinfo hnonNull
    rw [hinfo, ← hshape, ← hnonNull]
  · refine ⟨⟨v, ?_, hs.supplied⟩, hs.fits h h' hout hfits⟩
    rw [h'.getVariablePair_eq, hs.paired, if_pos rfl]

end Turn

variable (h : m.Sound)

include h

/-- Once the loop has passed every output, all of them hold arrays of their shapes. -/
theorem Sound.holdsShape_prepareLoop {nodeId : Int} {shapes : List (List Nat)}
    (hfits : m.Fits nodeId shapes) {outs : List (List Nat)} {cnt : Nat}
    (houts : shapes.drop cnt = outs)
    (hdone : ∀ k < cnt, ∀ shape, shapes[k]? = some shape → m.HoldsShape nodeId k shape) :
    ∀ k shape, shapes[k]? = some shape →
      (Machine.prepareLoop nodeId m outs cnt).HoldsShape nodeId k shape := by
  induction outs generalizing m cnt with
  | nil =>
      intro k shape hshape
      have hlength : shapes.length ≤ cnt := List.drop_eq_nil_iff.mp houts
      have hk : k < shapes.length := (List.getElem?_eq_some_iff.mp hshape).1
      exact hdone k (Nat.lt_of_lt_of_le hk hlength) shape hshape
  | cons out outs ih =>
      have hout : shapes[cnt]? = some out := by
        rw [← List.head?_drop, houts, List.head?_cons]
      have hrest : shapes.drop (cnt + 1) = outs := by
        rw [← List.tail_drop, houts, List.tail_cons]
      obtain ⟨hholds, hfits'⟩ := h.holdsShape_prepareOutput hout hfits
      have h' := (h.prepareOutput nodeId out cnt).1
      apply ih h' hfits' hrest
      intro k hk shape hshape
      rcases Nat.lt_succ_iff_lt_or_eq.mp hk with hlt | rfl
      · exact (h.persists_prepareOutput nodeId out cnt).holdsShape h h' (hdone k hlt shape hshape)
      · rw [hout] at hshape
        exact Option.some.inj hshape ▸ hholds

/-- The outputs have the calculated shapes exactly when the arrays that are kept have them and
outputs with one variable are given one shape. -/
theorem Sound.prepared_iff_fits (op : DeclarableOp) (hinplace : block.isInplace = false) :
    m.Prepared op block ↔
      m.Fits block.nodeId (op.calculateOutputShape (m.inputShapes block) block) := by
  unfold Prepared Machine.prepareOutputs
  simp only [hinplace, Bool.false_eq_true, if_false]
  generalize op.calculateOutputShape (m.inputShapes block) block = shapes
  constructor
  · intro hprepared
    have hp := h.persists_prepareLoop block.nodeId shapes 0
    have h' := h.prepareLoop block.nodeId shapes 0
    refine ⟨?_, ?_⟩
    · intro k shape v info hshape hv hinfo hnonNull
      obtain ⟨w, hw, hheld⟩ := hprepared k shape hshape
      rw [h.getVariablePair_eq] at hv
      rw [h'.getVariablePair_eq, hp.paired _ v hv, Option.some.injEq] at hw
      rw [← hw, hp.arrays _ v info hv hinfo hnonNull, Option.some.injEq] at hheld
      rw [hheld]
    · intro j k shape shape' v hj hk hvj hvk
      obtain ⟨w, hw, hheld⟩ := hprepared j shape hj
      obtain ⟨w', hw', hheld'⟩ := hprepared k shape' hk
      rw [h.getVariablePair_eq] at hvj hvk
      rw [h'.getVariablePair_eq, hp.paired _ v hvj, Option.some.injEq] at hw
      rw [h'.getVariablePair_eq, hp.paired _ v hvk, Option.some.injEq] at hw'
      rw [← hw] at hheld
      rw [← hw', hheld, Option.some.injEq, ArrayInfo.mk.injEq] at hheld'
      exact hheld'.1
  · intro hfits
    exact h.holdsShape_prepareLoop hfits List.drop_zero fun k hk => absurd hk (Nat.not_lt_zero k)

/-! ## Whole runs -/

theorem Sound.prepareOutputs (op : DeclarableOp) (block : Block) :
    (m.prepareOutputs op block).Sound := by
  unfold Machine.prepareOutputs
  split
  · exact h
  · exact h.prepareLoop block.nodeId _ 0

theorem Sound.storeResult {outputNumber : Nat} (harray : array < m.heap.nextArray) {next : Machine}
    (hnext : m.storeResult op block outputNumber array = some next) : next.Sound := by
  have hset : ∀ v, (m.setNDArray v (some array)).Sound := by
    intro v
    apply h.setNDArray v
    intro r hr
    exact Option.some.inj hr ▸ harray
  unfold Machine.storeResult at hnext
  split at hnext
  · split at hnext
    · exact Option.some.inj hnext ▸ h
    · obtain ⟨v, -, rfl⟩ := Option.map_eq_some_iff.mp hnext
      exact hset v
  · obtain ⟨v, -, rfl⟩ := Option.map_eq_some_iff.mp hnext
    exact hset v

/-- Every event leads from a sound machine to a sound one. -/
theorem Sound.step {e : Event} {next : Machine} (hnext : m.step op block e = some next) :
    next.Sound := by
  cases e with
  | execute =>
      rw [← Option.some.inj hnext]
      split
      · exact h.prepareOutputs op block
      · exact h
  | newArray info => exact Option.some.inj hnext ▸ h.newArray info
  | changeArray array info =>
      simp only [Machine.step, Option.ite_none_right_eq_some, Option.some.injEq] at hnext
      exact hnext.2 ▸ ⟨h.negative, h.nonnegative, h.has_iff, h.made, h.arrays⟩
  | setNDArray v array =>
      simp only [Machine.step, Option.ite_none_right_eq_some, Option.some.injEq] at hnext
      obtain ⟨harray, rfl⟩ := hnext
      apply h.setNDArray v
      rintro r rfl
      simpa using harray
  | storeResult outputNumber array =>
      simp only [Machine.step, Option.ite_none_right_eq_some] at hnext
      exact h.storeResult hnext.1 hnext.2

theorem Sound.starts (op : DeclarableOp) (block : Block) (events : List Event) :
    ∀ start ∈ m.starts op block events, start.Sound := by
  induction events generalizing m with
  | nil => simp [Machine.starts]
  | cons e es ih =>
      intro start hstart
      rcases List.mem_append.mp hstart with hfirst | hlater
      · split at hfirst
        · exact List.mem_singleton.mp hfirst ▸ h
        · exact absurd hfirst (by simp)
      · cases hnext : m.step op block e with
        | none =>
            rw [hnext] at hlater
            exact absurd hlater (by simp)
        | some next =>
            rw [hnext] at hlater
            exact ih (h.step hnext) start hlater

omit h

/-- The output variables of the node that the space has lead to no array. -/
def Unsupplied (m : Machine) (block : Block) : Prop :=
  ∀ (k : Nat) (v : VariableRef), m.space.getVariablePair (block.nodeId, (k : Int)) = some v →
    m.getNDArray v = none

end Machine

open Machine

/-- In every execution of a run the outputs have the calculated shapes after `prepareOutputs`
exactly when, in every execution, the arrays that are kept have them and outputs with one variable
are given one shape. -/
theorem prepared_run_iff (op : DeclarableOp) (block : Block) (hinplace : block.isInplace = false)
    (heap : Heap ArrayInfo) (objects : VariableRef → Variable)
    (harrays : ∀ v < heap.nextVariable, ∀ r, (objects v).ndarray = some r → r < heap.nextArray)
    (puts : List Put) (hmade : ∀ e ∈ puts, e.object < heap.nextVariable) (events : List Event) :
    (∀ m ∈ starts op block ⟨puts.foldl put (VariableSpace.empty objects), heap⟩ events,
        m.Prepared op block) ↔
      ∀ m ∈ starts op block ⟨puts.foldl put (VariableSpace.empty objects), heap⟩ events,
        m.Fits block.nodeId (op.calculateOutputShape (m.inputShapes block) block) := by
  have hsound : Sound ⟨puts.foldl put (VariableSpace.empty objects), heap⟩ :=
    (grounded_empty harrays).puts puts hmade
  constructor
  · intro hprepared m hm
    exact ((hsound.starts op block events m hm).prepared_iff_fits op hinplace).mp (hprepared m hm)
  · intro hfits m hm
    exact ((hsound.starts op block events m hm).prepared_iff_fits op hinplace).mpr (hfits m hm)

/-- The operation with one output, of the shape of its input. -/
def sameShape : DeclarableOp where
  numberOfOutputs := 1
  calculateOutputShape := fun inSha _ => inSha

/-- The variable 0 with an array of length 2. -/
def oneInput : Machine where
  space := [Put.byId (-1) 0].foldl put (VariableSpace.empty fun _ => .create (some 0) "")
  heap := ⟨fun _ => ⟨[2], true⟩, 1, 1⟩

/-- Two executions of the node 1 on the variable 0, the second one on a larger array. -/
def enlarged : List Event :=
  [.execute, .newArray ⟨[3], true⟩, .setNDArray 0 (some 2), .execute]

theorem sound_oneInput : oneInput.Sound := by
  have hempty : Grounded oneInput.heap (VariableSpace.empty fun _ => .create (some 0) "") :=
    grounded_empty (by simp [oneInput, Variable.create])
  exact hempty.puts [.byId (-1) 0] (by decide)

theorem unsupplied_oneInput : oneInput.Unsupplied ⟨1, [0], false⟩ := by
  intro k v hv
  have hfiled : Filed (VariableSpace.empty fun _ => .create (some 0) "") (-1, 0) 0 oneInput.space :=
    (addVariable_spec (VariableSpace.empty fun _ => .create (some 0) "") (-1) 0
      (by simp [VariableSpace.empty])).1
  rw [sound_oneInput.getVariablePair_eq, hfiled.paired, if_neg (by simp)] at hv
  exact absurd hv (by simp [VariableSpace.empty])

theorem prepared_run_iff_enlarged :
    (∀ m ∈ oneInput.starts sameShape ⟨1, [0], false⟩ enlarged,
        m.Prepared sameShape ⟨1, [0], false⟩) ↔
      ∀ m ∈ oneInput.starts sameShape ⟨1, [0], false⟩ enlarged,
        m.Fits 1 (sameShape.calculateOutputShape (m.inputShapes ⟨1, [0], false⟩) ⟨1, [0], false⟩) :=
  prepared_run_iff sameShape ⟨1, [0], false⟩ rfl oneInput.heap (fun _ => .create (some 0) "")
    (by simp [oneInput, Variable.create]) [.byId (-1) 0] (by decide) enlarged

/-- The second execution of an operation, on a larger input, finds the output of the first. -/
theorem not_prepared_always :
    ¬ ∀ (op : DeclarableOp) (block : Block), block.isInplace = false →
      ∀ (heap : Heap ArrayInfo) (objects : VariableRef → Variable),
      (∀ v < heap.nextVariable, ∀ r, (objects v).ndarray = some r → r < heap.nextArray) →
      ∀ puts : List Put, (∀ e ∈ puts, e.object < heap.nextVariable) →
      Unsupplied ⟨puts.foldl put (VariableSpace.empty objects), heap⟩ block →
      ∀ events : List Event, (∀ v array, .setNDArray v array ∈ events → v ∈ block.inputs) →
      ∀ m ∈ starts op block ⟨puts.foldl put (VariableSpace.empty objects), heap⟩ events,
        m.Prepared op block := by
  intro h
  have hprepared := h sameShape ⟨1, [0], false⟩ rfl oneInput.heap (fun _ => .create (some 0) "")
    (by simp [oneInput, Variable.create]) [.byId (-1) 0] (by decide) unsupplied_oneInput enlarged
    (by simp [enlarged])
  have hsound := sound_oneInput.starts sameShape ⟨1, [0], false⟩ enlarged
  -- the state in which the second execution starts
  have hstart : ((oneInput.prepareOutputs sameShape ⟨1, [0], false⟩).newArray
      ⟨[3], true⟩).setNDArray 0 (some 2) ∈ oneInput.starts sameShape ⟨1, [0], false⟩ enlarged := by
    rw [enlarged, starts_execute (by decide), starts_newArray, starts_setNDArray (by decide),
      starts_execute (by decide)]
    exact List.mem_cons_of_mem _ (List.mem_cons_self ..)
  have hfits := ((hsound _ hstart).prepared_iff_fits sameShape rfl).mp (hprepared _ hstart)
  exact absurd (hfits.kept 0 [3] 1 ⟨[2], true⟩ rfl rfl rfl rfl) (by decide)

end Ops
end LibND4J
