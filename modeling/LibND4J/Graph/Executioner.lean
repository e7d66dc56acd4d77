import LibND4J.Graph.Onion

/-!
# Execution of a graph

`executeFlatNode` lets a node with one input work in place on the buffer of its
input, unless the input is the output of a node that names several outputs, and gives
a node with two inputs a buffer of its own.  Views share buffers, so that a variable
may lose its value while another node still has to read it.

Main results:

- Theorem `executeFlatNode_one` and theorem `executeFlatNode_two`: a node with
  its inputs at hand files one array, written in a new buffer or in the one of its only
  input, and announces it.
-/

namespace LibND4J
namespace Graph

/-! ## Nodes and arrays -/

/-- The branches of `executeFlatNode` that are covered. -/
inductive OpType where
  | transform
  | scalar
deriving Repr, DecidableEq

/-- A node with its operation: what it writes for the elements of one input, or of two. -/
structure Operation (T : Type) extends Node where
  opType : OpType
  unary : List T → List T := fun xs => xs
  binary : List T → List T → List T := fun xs _ => xs

/-- An `NDArray` object and the buffer it points to. -/
structure NDArray where
  object : Nat
  buffer : Nat
deriving Repr, DecidableEq

/-- The variables with their arrays, and the elements in the buffers.  A variable that is
not filed is `none`, one without an array `some none`. -/
structure RunState (T : Type) where
  vars : Int → Option (Option NDArray)
  heap : Nat → List T
  next : Nat

variable {T : Type}

namespace RunState

/-- `getNDArray` of the variable. -/
def array (s : RunState T) (id : Int) : Option NDArray :=
  (s.vars id).join

/-- `getNDArray` of an input; only output 0 of a node is filed. -/
def inputArray (s : RunState T) (input : Int × Int) : Option NDArray :=
  if input.2 = 0 then s.array input.1 else none

/-- The elements of the array of a variable. -/
def contents (s : RunState T) (id : Int) : Option (List T) :=
  (s.array id).map fun a => s.heap a.buffer

/-- `setNDArray` with a copy of an array, in a new buffer. -/
def putCopy (s : RunState T) (id : Int) (x : NDArray) : RunState T where
  vars := Function.update s.vars id (some (some ⟨s.next, s.next⟩))
  heap := Function.update s.heap s.next (s.heap x.buffer)
  next := s.next + 1

/-- `setNDArray` with a view of an array, in the same buffer. -/
def putView (s : RunState T) (id : Int) (x : NDArray) : RunState T where
  vars := Function.update s.vars id (some (some ⟨s.next, x.buffer⟩))
  heap := s.heap
  next := s.next + 1

/-- The elements an operation writes. -/
def write (s : RunState T) (buffer : Nat) (elements : List T) : RunState T :=
  { s with heap := Function.update s.heap buffer elements }

/-- A copy, when one is asked for and the variable has no array yet. -/
def copyIfEmpty (s : RunState T) (copy : Bool) (id : Int) (x : NDArray) : RunState T :=
  if copy && (s.array id).isNone then s.putCopy id x else s

/-- A view, when the variable has no array yet. -/
def viewIfEmpty (s : RunState T) (id : Int) (x : NDArray) : RunState T :=
  if (s.array id).isNone then s.putView id x else s

end RunState

/-- The output of the node an input names is used in different branches. -/
def branches (mapped : Int → Option (Operation T)) (input : Int) : Option Bool :=
  if 0 < input then (mapped input).map fun node => 1 < node.output.length else some false

/-- One iteration over the outputs: hand the result to an external variable.  The arrays
must have the same length. -/
def announceTo (z : NDArray) (s : RunState T) (output : Int) : Option (RunState T) :=
  match s.vars output with
  | none => none
  | some none => some (s.putCopy output z)
  | some (some out) =>
      if out.object = z.object then some s
      else if (s.heap out.buffer).length ≠ (s.heap z.buffer).length then none
      else some (s.write out.buffer (s.heap z.buffer))

/-- The loop over the outputs. -/
def announce (skipped : Int → Bool) (node : Operation T) (z : NDArray) (s : RunState T) :
    Option (RunState T) :=
  if node.hasExternalOutputs then
    node.output.foldlM
      (fun s output => if skipped output then some s else announceTo z s output) s
  else
    some s

/-- `executeFlatNode`: transforms of one and of two inputs, and operations with a scalar.
`none` is an exception or a null array. -/
def executeFlatNode (mapped : Int → Option (Operation T)) (node : Operation T)
    (s : RunState T) : Option (RunState T) := do
  let input ← node.input[0]?
  let x ← s.inputArray input
  match node.opType with
  | .transform =>
      if node.input.length = 1 then
        let shared ← branches mapped input.1
        let s := (s.copyIfEmpty shared node.id x).viewIfEmpty node.id x
        let z ← s.array node.id
        announce (fun output => 0 ≤ output) node z
          (s.write z.buffer (node.unary (s.heap x.buffer)))
      else
        let second ← node.input[1]?
        let y ← s.inputArray second
        let s := (s.copyIfEmpty (0 < node.output.length) node.id x).viewIfEmpty node.id x
        let z ← s.array node.id
        announce (fun output => 0 ≤ output) node z
          (s.write z.buffer (node.binary (s.heap x.buffer) (s.heap y.buffer)))
  | .scalar =>
      let shared ← branches mapped input.1
      let s := (if shared then s.putCopy node.id x else s).viewIfEmpty node.id x
      let z ← s.array node.id
      announce (fun output => 0 < output) node z
        (s.write z.buffer (node.unary (s.heap x.buffer)))

/-- The node as `addNode` leaves it. -/
def Operation.added (op : Operation T) : Operation T :=
  { op with toNode := autoOutput op.toNode }

/-- The lookup of `getMapped`. -/
def mappedIn (ops : List (Operation T)) (id : Int) : Option (Operation T) :=
  ops.find? fun op => op.id = id

/-- The loops of `execute` over the nodes of a graph in some order. -/
def execute (ops : List (Operation T)) (s : RunState T) : Option (RunState T) :=
  (ops.map Operation.added).foldlM
    (fun s op => executeFlatNode (mappedIn (ops.map Operation.added)) op s) s

/-! ## One node -/

namespace RunState

/-- An array filed under a variable, with the elements of its buffer. -/
def put (s : RunState T) (id : Int) (a : NDArray) (elements : List T) : RunState T where
  vars := Function.update s.vars id (some (some a))
  heap := Function.update s.heap a.buffer elements
  next := s.next + 1

@[simp]
theorem array_put (s : RunState T) (id : Int) (a : NDArray) (elements : List T) (k : Int) :
    (s.put id a elements).array k = if k = id then some a else s.array k := by
  simp only [array, put, Function.update_apply]
  split <;> rfl

/-- A copy that is overwritten, or a view that is written through, is one new array. -/
theorem write_supplied {s : RunState T} {id : Int} (hempty : s.array id = none) (copy : Bool)
    (x : NDArray) (elements : List T) :
    ∃ z, ((s.copyIfEmpty copy id x).viewIfEmpty id x).array id = some z ∧
      ((s.copyIfEmpty copy id x).viewIfEmpty id x).write z.buffer elements =
        s.put id z elements ∧
      z.buffer = if copy then s.next else x.buffer := by
  have hcopied : (s.putCopy id x).array id = some ⟨s.next, s.next⟩ := by
    simp [array, putCopy]
  have hviewed : (s.putView id x).array id = some ⟨s.next, x.buffer⟩ := by
    simp [array, putView]
  unfold copyIfEmpty viewIfEmpty
  cases copy with
  | true =>
      refine ⟨⟨s.next, s.next⟩, ?_, ?_, rfl⟩
      · simp [hempty, hcopied]
      · simp only [hempty, hcopied, Option.isNone_none, Option.isNone_some, Bool.and_self,
          if_true, Bool.false_eq_true, if_false]
        unfold write putCopy put
        rw [Function.update_idem]
  | false =>
      refine ⟨⟨s.next, x.buffer⟩, ?_, ?_, rfl⟩
      · simp [hempty, hviewed]
      · simp only [hempty, Option.isNone_none, Bool.false_and, Bool.false_eq_true, if_false,
          if_true]
        rfl

/-- A new copy leaves the old buffers alone. -/
theorem heap_supplied {s : RunState T} (copy : Bool) (id : Int) (x : NDArray) {buffer : Nat}
    (hold : buffer < s.next) :
    ((s.copyIfEmpty copy id x).viewIfEmpty id x).heap buffer = s.heap buffer := by
  have hview : ∀ r : RunState T, (r.viewIfEmpty id x).heap = r.heap := by
    intro r
    unfold viewIfEmpty
    split <;> rfl
  rw [hview]
  unfold copyIfEmpty
  split
  · exact Function.update_of_ne hold.ne _ _
  · rfl

end RunState

open RunState

/-- What a node writes, and where: a new buffer, or the one of its only input. -/
inductive Writes (mapped : Int → Option (Operation T)) (node : Operation T) (s : RunState T) :
    Nat → List T → Prop where
  | inPlace {p : Int × Int} {x : NDArray} :
      node.input = [p] → branches mapped p.1 = some false → s.array p.1 = some x →
        Writes mapped node s x.buffer (node.unary (s.heap x.buffer))
  | copied {p : Int × Int} {x : NDArray} :
      node.input = [p] → branches mapped p.1 = some true → s.array p.1 = some x →
        Writes mapped node s s.next (node.unary (s.heap x.buffer))
  | pairwise {p q : Int × Int} {x y : NDArray} :
      node.input = [p, q] → s.array p.1 = some x → s.array q.1 = some y →
        Writes mapped node s s.next (node.binary (s.heap x.buffer) (s.heap y.buffer))

/-- A node with its inputs at hand files one array and announces it. -/
theorem executeFlatNode_one {mapped : Int → Option (Operation T)} {node : Operation T}
    {s : RunState T} (hzero : 0 ∉ node.output) (hempty : s.array node.id = none)
    {p : Int × Int} {x : NDArray} {shared : Bool} (hinput : node.input = [p]) (hp : p.2 = 0)
    (hx : s.array p.1 = some x) (hold : x.buffer < s.next)
    (hshared : branches mapped p.1 = some shared) :
    ∃ skipped z elements, executeFlatNode mapped node s =
        announce skipped node z (s.put node.id z elements) ∧
      (∀ e ∈ node.output, skipped e = true ↔ 0 < e) ∧ Writes mapped node s z.buffer elements := by
  obtain ⟨z, hz, hwrite, hbuffer⟩ := write_supplied hempty shared x (node.unary (s.heap x.buffer))
  have hheap := heap_supplied (s := s) shared node.id x hold
  have harray : s.inputArray p = some x := by
    unfold inputArray
    rw [if_pos hp]
    exact hx
  have hwrites : Writes mapped node s z.buffer (node.unary (s.heap x.buffer)) := by
    cases shared with
    | false =>
        rw [hbuffer]
        exact .inPlace hinput hshared hx
    | true =>
        rw [hbuffer]
        exact .copied hinput hshared hx
  cases htype : node.opType with
  | transform =>
      refine ⟨fun e => 0 ≤ e, z, _, ?_, ?_, hwrites⟩
      · unfold executeFlatNode
        simp only [hinput, List.getElem?_cons_zero, Option.bind_eq_bind, Option.bind_some, harray,
          htype, List.length_singleton, if_true, hshared, hz, hheap, hwrite]
      · intro e he
        have hne : e ≠ 0 := fun h => hzero (h ▸ he)
        simp only [decide_eq_true_eq]
        omega
  | scalar =>
      have hsupply : (if shared then s.putCopy node.id x else s) =
          s.copyIfEmpty shared node.id x := by
        unfold copyIfEmpty
        rw [hempty]
        cases shared <;> rfl
      refine ⟨fun e => 0 < e, z, _, ?_, ?_, hwrites⟩
      · unfold executeFlatNode
        simp only [hinput, List.getElem?_cons_zero, Option.bind_eq_bind, Option.bind_some, harray,
          htype, hshared, hsupply, hz, hheap, hwrite]
      · intro e he
        exact decide_eq_true_iff

theorem executeFlatNode_two {mapped : Int → Option (Operation T)} {node : Operation T}
    {s : RunState T} (hzero : 0 ∉ node.output) (hnil : node.output ≠ [])
    (hempty : s.array node.id = none) (htype : node.opType = .transform)
    {p q : Int × Int} {x y : NDArray} (hinput : node.input = [p, q]) (hp : p.2 = 0)
    (hq : q.2 = 0) (hx : s.array p.1 = some x) (hy : s.array q.1 = some y)
    (hxold : x.buffer < s.next) (hyold : y.buffer < s.next) :
    ∃ skipped z elements, executeFlatNode mapped node s =
        announce skipped node z (s.put node.id z elements) ∧
      (∀ e ∈ node.output, skipped e = true ↔ 0 < e) ∧ Writes mapped node s z.buffer elements := by
  obtain ⟨z, hz, hwrite, hbuffer⟩ := write_supplied hempty true x
    (node.binary (s.heap x.buffer) (s.heap y.buffer))
  have hxheap := heap_supplied (s := s) true node.id x hxold
  have hyheap := heap_supplied (s := s) true node.id x hyold
  have hcopy : decide (0 < node.output.length) = true :=
    decide_eq_true (List.length_pos_of_ne_nil hnil)
  have hxarray : s.inputArray p = some x := by
    unfold inputArray
    rw [if_pos hp]
    exact hx
  have hyarray : s.inputArray q = some y := by
    unfold inputArray
    rw [if_pos hq]
    exact hy
  have hwrites : Writes mapped node s z.buffer
      (node.binary (s.heap x.buffer) (s.heap y.buffer)) := by
    rw [hbuffer, if_pos rfl]
    exact .pairwise hinput hx hy
  refine ⟨fun e => 0 ≤ e, z, _, ?_, ?_, hwrites⟩
  · unfold executeFlatNode
    have htwo : ¬ [p, q].length = 1 := by simp
    simp only [hinput, List.getElem?_cons_zero, List.getElem?_cons_succ, Option.bind_eq_bind,
      Option.bind_some, hxarray, hyarray, htype, if_neg htwo, hcopy, hz, hxheap, hyheap, hwrite]
  · intro e he
    have hne : e ≠ 0 := fun h => hzero (h ▸ he)
    simp only [decide_eq_true_eq]
    omega

end Graph
end LibND4J
