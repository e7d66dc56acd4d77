import LibND4J.Arrays.FlatResult
import LibND4J.Loops.Elementwise
import LibND4J.Ops.Matmul

/-!
# Arithmetic operations

`add`, `subtract`, `reversesubtract`, `multiply`, `divide` and
`reversedivide` work on two arrays of one length, or on an array and a scalar.  The output is
the first input, an array of the caller, or a new array with the shape information of the first
input.

Inputs and output are arrays in one memory.  The threads of a loop do their work in any order.

Main results:

- Theorem `pairwise_spec` and `applyScalar_spec`: what the two loops store in the output.
- Theorem `computesRight_iff`: for which inputs and outputs an operation stores its results.
- Theorem `not_computesRight_always`: a scalar minus an array.
-/

namespace LibND4J
namespace Ops

open Strided Shape Arrays Loops

/-! ## The operations -/

/-- An array in the memory: its shape information and the address of its buffer. -/
structure Operand where
  info : ShapeInfo
  data : Int

def Operand.isScalar (array : Operand) : Bool :=
  isScalarArray array.info

inductive Output
  /-- The block is in place. -/
  | inplace
  /-- The node has an array. -/
  | supplied (z : Operand)
  /-- A new array at an address. -/
  | allocated (data : Int)

/-- The arrays of a block. -/
structure Call where
  x : Operand
  y : Operand
  output : Output

/-- `getZ`; the shape function copies the shape information of the first input. -/
def Call.z (call : Call) : Operand :=
  match call.output with
  | .inplace => call.x
  | .supplied z => z
  | .allocated data => ⟨call.x.info, data⟩

/-- The settings of the loops and the orders in which the threads do their work. -/
structure Threads where
  settings : Settings
  visits : List Visit → List Visit
  cells : List (Int × Int) → List (Int × Int)
  visits_perm : ∀ work, (visits work).Perm work
  cells_perm : ∀ work, (cells work).Perm work

section Operations

variable {T : Type}

def applyPairwiseTransform (threads : Threads) (op : T → T → T) (x other target : Operand)
    (memory : Int → T) : Except Failure (Int → T) :=
  if other.info.length ≠ target.info.length then
    .error (.thrown
      "NDArray::applyPairwiseTransform method - lengths of arrays are mismatched")
  else
    match exec x.info.length threads.settings x.info other.info target.info x.data other.data
        target.data with
    | none => .error .undefined
    | some work => .ok (runVisits (fun a b (_ : Unit) => op a b) ()
        (threads.visits work.flatten) memory)

/-- `applyScalar` of a value; a target with fewer elements is written past its end. -/
def applyValue (threads : Threads) (op : T → T → T) (x : Operand) (scalar : T) (target : Operand)
    (memory : Int → T) : Except Failure (Int → T) :=
  if target.info.length < x.info.length then .error .undefined
  else
    match transform x.info target.info x.data target.data with
    | none => .error .undefined
    | some cells => .ok (runScalar op scalar (threads.cells cells) memory)

/-- `applyScalar` of an array. -/
def applyScalar (threads : Threads) (op : T → T → T) (x scalar target : Operand)
    (memory : Int → T) : Except Failure (Int → T) :=
  if ¬ scalar.isScalar then .error (.thrown "Operand is not a scalar!")
  else applyValue threads op x (memory scalar.data) target memory

/-- The body of all operations but one, for the operation `op`. -/
def elementwise (op : T → T → T) (threads : Threads) (call : Call) (memory : Int → T) :
    Except Failure (Int → T) :=
  let x := call.x
  let y := call.y
  let z := call.z
  if ¬ x.isScalar ∧ ¬ y.isScalar then
    if x.info.length ≠ y.info.length then
      .error (.validation "this->validateInputLengthMatch(block)")
    else applyPairwiseTransform threads op x y z memory
  else if ¬ x.isScalar ∧ y.isScalar then
    applyScalar threads op x y z memory
  else if x.isScalar ∧ ¬ y.isScalar then
    applyScalar threads op y x z memory
  else
    -- `putScalar`
    .ok (Function.update memory z.data (op (memory x.data) (memory y.data)))

variable [Field T]

def add : Threads → Call → (Int → T) → Except Failure (Int → T) :=
  elementwise fun d1 d2 => d1 + d2

def subtract : Threads → Call → (Int → T) → Except Failure (Int → T) :=
  elementwise fun d1 d2 => d1 - d2

def reversesubtract : Threads → Call → (Int → T) → Except Failure (Int → T) :=
  elementwise fun d1 d2 => d2 - d1

def multiply (threads : Threads) (call : Call) (memory : Int → T) : Except Failure (Int → T) :=
  let x := call.x
  let y := call.y
  let z := call.z
  let op := fun d1 d2 : T => d1 * d2
  if ¬ x.isScalar ∧ ¬ y.isScalar then
    if x.info.length ≠ y.info.length then
      .error (.validation "this->validateInputLengthMatch(block)")
    else applyPairwiseTransform threads op x y z memory
  else if ¬ x.isScalar ∧ y.isScalar then
    applyScalar threads op x y z memory
  else if x.isScalar ∧ ¬ y.isScalar then
    -- the output is taken for the scalar, and the second input for the target
    applyScalar threads op y z y memory
  else
    .ok (Function.update memory z.data (op (memory x.data) (memory y.data)))

def divide : Threads → Call → (Int → T) → Except Failure (Int → T) :=
  elementwise fun d1 d2 => d1 / d2

def reversedivide : Threads → Call → (Int → T) → Except Failure (Int → T) :=
  elementwise fun d1 d2 => d2 / d1

/-- The six operations. -/
inductive Arithmetic
  | add
  | subtract
  | reversesubtract
  | multiply
  | divide
  | reversedivide
deriving DecidableEq, Repr

/-- The bodies of the operations. -/
def Arithmetic.validateAndExecute :
    Arithmetic → Threads → Call → (Int → T) → Except Failure (Int → T)
  | .add => Ops.add
  | .subtract => Ops.subtract
  | .reversesubtract => Ops.reversesubtract
  | .multiply => Ops.multiply
  | .divide => Ops.divide
  | .reversedivide => Ops.reversedivide

/-- The memory where the body starts: a new array holds zeros. -/
def Call.start (call : Call) (memory : Int → T) : Int → T :=
  match call.output with
  | .allocated data => fun i => if data ≤ i ∧ i < data + call.x.info.length then 0 else memory i
  | _ => memory

/-- The elements of a new array lie in its buffer. -/
def Call.Fits (call : Call) : Prop :=
  match call.output with
  | .allocated _ => LiesInLength call.x.info
  | _ => True

instance (call : Call) : Decidable call.Fits :=
  match h : call.output with
  | .allocated _ => decidable_of_iff (LiesInLength call.x.info) (by rw [Call.Fits, h])
  | .inplace => isTrue (by rw [Call.Fits, h]; trivial)
  | .supplied _ => isTrue (by rw [Call.Fits, h]; trivial)

/-- `execute`; a body that writes past a new array is undefined. -/
def Arithmetic.execute (operation : Arithmetic) (threads : Threads) (call : Call)
    (memory : Int → T) : Except Failure (Int → T) :=
  match operation.validateAndExecute threads call (call.start memory) with
  | .error e => .error e
  | .ok result => if call.Fits then .ok result else .error .undefined

/-! ## Right results -/

/-- What an operation computes of two elements. -/
def Arithmetic.op : Arithmetic → T → T → T
  | .add, x, y => x + y
  | .subtract, x, y => x - y
  | .reversesubtract, x, y => y - x
  | .multiply, x, y => x * y
  | .divide, x, y => x / y
  | .reversedivide, x, y => y / x

end Operations

/-- The cell of the `k`-th element. -/
def Operand.cell (array : Operand) (k : Nat) : Int :=
  array.data + elementOffset false array.info.axes k

/-- The `k`-th element; a scalar is used for every `k`. -/
def Operand.at {T : Type} (array : Operand) (memory : Int → T) (k : Nat) : T :=
  memory (if array.isScalar then array.data else array.cell k)

/-- The number of results. -/
def Call.length (call : Call) : Nat :=
  if call.x.isScalar then call.y.info.length else call.x.info.length

/-- The output holds the results, and the inputs are unchanged unless the call is in place. -/
structure StoresResult {T : Type} [Field T] (operation : Arithmetic) (call : Call)
    (memory memory' : Int → T) : Prop where
  length : call.z.info.length = call.length
  result : ∀ k < call.length,
    memory' (call.z.cell k) = operation.op (call.x.at memory k) (call.y.at memory k)
  first : call.output ≠ .inplace →
    ∀ k < call.x.info.length, memory' (call.x.cell k) = memory (call.x.cell k)
  second : call.output ≠ .inplace →
    ∀ k < call.y.info.length, memory' (call.y.cell k) = memory (call.y.cell k)

/-- From every memory the operation stores its results. -/
def ComputesRight (T : Type) [Field T] (operation : Arithmetic) (threads : Threads) (call : Call) :
    Prop :=
  ∀ memory : Int → T, ∃ memory', operation.execute threads call memory = .ok memory' ∧
    StoresResult operation call memory memory'

/-! ## Calls -/

/-- Shape information as the library makes it; only an array of one element has an offset slot. -/
structure Laid (info : ShapeInfo) : Prop where
  positive : info.Positive
  honest : info.HonestEws
  cellsApart : CellsApart info
  slot : info.length ≠ 1 → info.offset = 0

/-- Two arrays share no cell. -/
def Operand.Apart (array z : Operand) : Prop :=
  ∀ c d, InBox array.info.shape c → InBox z.info.shape d →
    array.data + Strided.dot c array.info.stride ≠ z.data + Strided.dot d z.info.stride

/-- An array has no cell among those of a new buffer. -/
def Operand.Outside (array : Operand) (data : Int) (size : Nat) : Prop :=
  ∀ c, InBox array.info.shape c → array.data + Strided.dot c array.info.stride < data ∨
    data + size ≤ array.data + Strided.dot c array.info.stride

def Call.resultShape (call : Call) : List Nat :=
  if call.x.isScalar ∧ ¬ call.y.isScalar then call.y.info.shape else call.x.info.shape

/-- Two inputs of one length, or one of them a scalar, with an output apart from them or in
place. -/
structure Call.WellFormed (call : Call) : Prop where
  first : Laid call.x.info
  second : Laid call.y.info
  lengths : call.x.info.length = call.y.info.length ∨ call.x.isScalar = true ∨
    call.y.isScalar = true
  inplace : call.output = .inplace → call.x.isScalar = false → call.y.isScalar = false →
    Reverse.Placed call.y.info call.x.info call.y.data call.x.data
  supplied : ∀ z, call.output = .supplied z → Laid z.info ∧ z.info.shape = call.resultShape ∧
    call.x.Apart z ∧ call.y.Apart z
  allocated : ∀ data, call.output = .allocated data →
    call.x.Outside data call.x.info.length ∧ call.y.Outside data call.x.info.length

/-- The inputs and the output are ones that the operation works on: a scalar comes first only in an
addition with an array for the output; a new array holds the elements that the strides of the
first input give it; and two arrays of different shapes that are walked in F order have the same
extents above one. -/
structure Supported (operation : Arithmetic) (call : Call) : Prop where
  scalarFirst : call.x.isScalar = true → call.y.isScalar = false →
    operation = .add ∧ ∃ z, call.output = .supplied z
  fits : call.Fits
  numbering : call.x.isScalar = false → call.y.isScalar = false →
    PairsByColumns call.x.info call.y.info call.z.info →
    call.x.info.shape.filter (· ≠ 1) = call.y.info.shape.filter (· ≠ 1)

/-! ## Arrays in the memory -/

section Arrays

variable {x y z : Operand} {call : Call}

theorem isScalar_iff {array : Operand} : array.isScalar = true ↔ array.info.length = 1 :=
  decide_eq_true_iff

theorem not_isScalar_iff {array : Operand} : array.isScalar = false ↔ array.info.length ≠ 1 :=
  decide_eq_false_iff_not

theorem Laid.cell_zero (h : Laid x.info) : x.cell 0 = x.data := by
  rw [Operand.cell, elementOffset_zero h.positive.length_pos, add_zero]

theorem cell_eq (array : Operand) (k : Nat) :
    array.cell k = array.data + Strided.dot (decode array.info.shape k) array.info.stride := by
  rw [Operand.cell, elementOffset_eq_dot]
  rfl

theorem Laid.cell_inj (h : Laid x.info) {k k' : Nat} (hk : k < x.info.length)
    (hk' : k' < x.info.length) (heq : x.cell k = x.cell k') : k = k' :=
  elementOffset_inj h.positive h.cellsApart false hk hk' (Int.add_left_cancel heq)

theorem Operand.Apart.cell_ne (h : x.Apart z) (hx : Laid x.info) (hz : Laid z.info) {k k' : Nat}
    (hk : k < x.info.length) (hk' : k' < z.info.length) : x.cell k ≠ z.cell k' := by
  rw [cell_eq, cell_eq]
  exact h _ _ ((bijOn_decode hx.positive).mapsTo hk) ((bijOn_decode hz.positive).mapsTo hk')

theorem Operand.at_of_not_scalar {T : Type} (h : x.isScalar = false) (memory : Int → T) (k : Nat) :
    x.at memory k = memory (x.cell k) := by
  rw [Operand.at, h]
  rfl

theorem Operand.at_of_scalar {T : Type} (h : x.isScalar = true) (memory : Int → T) (k : Nat) :
    x.at memory k = memory x.data := by
  rw [Operand.at, h]
  rfl

namespace Call.WellFormed

theorem laid_z (h : call.WellFormed) : Laid call.z.info := by
  unfold Call.z
  cases hout : call.output with
  | inplace => exact h.first
  | supplied z => exact (h.supplied z hout).1
  | allocated data => exact h.first

variable {array : Operand}

/-- A new array has no cell of an input. -/
theorem outside_apart {data : Int} {info : ShapeInfo} (hfits : LiesInLength info)
    (h : array.Outside data info.length) : array.Apart ⟨info, data⟩ := by
  intro c d hc hd
  have hcell := hfits d hd
  have hout := h c hc
  show array.data + Strided.dot c array.info.stride ≠ data + Strided.dot d info.stride
  omega

variable (h : call.WellFormed)

include h

/-- Unless the call is in place, the inputs share no cell with the output. -/
theorem apart (hfits : call.Fits) (hout : call.output ≠ .inplace) :
    call.x.Apart call.z ∧ call.y.Apart call.z := by
  unfold Call.z
  unfold Call.Fits at hfits
  cases hcase : call.output with
  | inplace => exact absurd hcase hout
  | supplied z => exact (h.supplied z hcase).2.2
  | allocated data =>
      rw [hcase] at hfits
      obtain ⟨hx, hy⟩ := h.allocated data hcase
      exact ⟨outside_apart hfits hx, outside_apart hfits hy⟩

theorem placed_x (hfits : call.Fits) :
    Reverse.Placed call.x.info call.z.info call.x.data call.z.data := by
  by_cases hout : call.output = .inplace
  · have hz : call.z = call.x := by rw [Call.z, hout]
    rw [hz]
    exact Or.inl ⟨rfl, rfl⟩
  · exact Or.inr (h.apart hfits hout).1

theorem placed_y (hfits : call.Fits) (hx : call.x.isScalar = false) (hy : call.y.isScalar = false) :
    Reverse.Placed call.y.info call.z.info call.y.data call.z.data := by
  by_cases hout : call.output = .inplace
  · have hz : call.z = call.x := by rw [Call.z, hout]
    rw [hz]
    exact h.inplace hout hx hy
  · exact Or.inr (h.apart hfits hout).2

/-- The zeros of a new array do not reach the inputs. -/
theorem start_cell {T : Type} [Field T] (memory : Int → T)
    (harray : array = call.x ∨ array = call.y) {k : Nat} (hk : k < array.info.length) :
    call.start memory (array.cell k) = memory (array.cell k) := by
  unfold Call.start
  cases hcase : call.output with
  | inplace => rfl
  | supplied z => rfl
  | allocated data =>
      obtain ⟨hx, hy⟩ := h.allocated data hcase
      have hlaid : Laid array.info := by
        rcases harray with rfl | rfl
        · exact h.first
        · exact h.second
      have hout : array.Outside data call.x.info.length := by
        rcases harray with rfl | rfl
        · exact hx
        · exact hy
      have hcell := hout _ ((bijOn_decode hlaid.positive).mapsTo hk)
      rw [← cell_eq] at hcell
      exact if_neg (by omega)

theorem start_at {T : Type} [Field T] (memory : Int → T) (harray : array = call.x ∨ array = call.y)
    {k : Nat} (hk : array.isScalar = true ∨ k < array.info.length) :
    array.at (call.start memory) k = array.at memory k := by
  have hlaid : Laid array.info := by
    rcases harray with rfl | rfl
    · exact h.first
    · exact h.second
  cases hscalar : array.isScalar with
  | false =>
      rw [Operand.at_of_not_scalar hscalar, Operand.at_of_not_scalar hscalar]
      exact h.start_cell memory harray (hk.resolve_left (by rw [hscalar]; decide))
  | true =>
      rw [Operand.at_of_scalar hscalar, Operand.at_of_scalar hscalar, ← hlaid.cell_zero]
      exact h.start_cell memory harray hlaid.positive.length_pos

end Call.WellFormed

end Arrays

/-! ## What the loops store -/

section Loops

variable {T : Type} {x y z : Operand} {threads : Threads}

/-- A pairwise transform stores the results of the elements with one number. -/
theorem pairwise_spec (op : T → T → T) (hx : Laid x.info) (hy : Laid y.info) (hz : Laid z.info)
    (hlength : y.info.length = x.info.length) (hshape : z.info.shape = x.info.shape)
    (hrank : x.info.shape ≠ [])
    (hspan : x.info.length / numThreads x.info.length threads.settings.elementThreshold
      threads.settings.maxThreads + 8 < 2 ^ 31)
    (hxplaced : Reverse.Placed x.info z.info x.data z.data)
    (hyplaced : Reverse.Placed y.info z.info y.data z.data) (memory : Int → T) :
    ∃ memory', applyPairwiseTransform threads op x y z memory = .ok memory' ∧
      (∀ k < x.info.length,
        memory' (z.data + elementOffset (decide (PairsByColumns x.info y.info z.info)) z.info.axes
            k) =
          op (memory (x.data + elementOffset (decide (PairsByColumns x.info y.info z.info))
              x.info.axes k))
            (memory (y.data + elementOffset (decide (PairsByColumns x.info y.info z.info))
              y.info.axes k))) ∧
      ∀ i, (∀ k < x.info.length, i ≠ z.cell k) → memory' i = memory i := by
  have hzlength : z.info.length = x.info.length := by
    rw [ShapeInfo.length, hshape, ← ShapeInfo.length]
  obtain ⟨work, hwork, hperm⟩ := @exec_numbered x.info y.info z.info x.data y.data z.data
    threads.settings hshape hlength hrank hx.positive hy.positive hx.honest hy.honest hz.honest
    hspan (fun hsame => hxplaced.eq_of_same hsame hx.positive hz.positive)
  obtain ⟨hresult, hframe⟩ := runVisits_numbered op _ ((threads.visits_perm _).trans hperm)
    hx.positive hy.positive hz.positive hz.cellsApart hlength hzlength hxplaced hyplaced memory
  refine ⟨_, ?_, hresult, fun i hi => hframe i fun k hk heq => ?_⟩
  · rw [applyPairwiseTransform, if_neg (by rw [hlength, hzlength]; exact fun h => h rfl), hwork]
  · obtain ⟨k', hk', hcell⟩ := exists_elementOffset_eq hz.positive false
      (decide (PairsByColumns x.info y.info z.info)) (hzlength ▸ hk)
    exact hi k' (hzlength ▸ hk') (by rw [heq, Operand.cell, hcell])

/-- A scalar transform stores the results of all elements and the scalar. -/
theorem applyScalar_spec (op : T → T → T) (hx : Laid x.info) (hy : y.isScalar = true)
    (hz : Laid z.info) (hnot : x.isScalar = false) (hshape : z.info.shape = x.info.shape)
    (hplaced : Reverse.Placed x.info z.info x.data z.data) (memory : Int → T) :
    ∃ memory', applyScalar threads op x y z memory = .ok memory' ∧
      (∀ k < x.info.length, memory' (z.cell k) = op (memory (x.cell k)) (memory y.data)) ∧
      ∀ i, (∀ k < x.info.length, i ≠ z.cell k) → memory' i = memory i := by
  have hzlength : z.info.length = x.info.length := by
    rw [ShapeInfo.length, hshape, ← ShapeInfo.length]
  have hmany := not_isScalar_iff.mp hnot
  obtain ⟨cells, hcells, hperm⟩ := @transform_numbered x.info z.info x.data z.data hshape
    hx.positive hx.honest hz.honest (hx.slot hmany) (hz.slot (hzlength ▸ hmany))
  obtain ⟨hresult, hframe⟩ := runScalar_numbered op (memory y.data)
    ((threads.cells_perm _).trans hperm) hx.positive hz.positive hz.cellsApart hzlength hplaced
    memory
  refine ⟨_, ?_, hresult, hframe⟩
  rw [applyScalar, if_neg (by rw [hy]; decide), applyValue,
    if_neg (by rw [hzlength]; exact Nat.lt_irrefl _), hcells]

end Loops

/-! ## What the operations store -/

section Bodies

variable {T : Type} {call : Call} {threads : Threads} {op : T → T → T} {memory : Int → T}

/-- The results are stored and nothing else is. -/
structure Stored (op : T → T → T) (call : Call) (memory memory' : Int → T) : Prop where
  length : call.z.info.length = call.length
  result : ∀ k < call.length,
    memory' (call.z.cell k) = op (call.x.at memory k) (call.y.at memory k)
  frame : ∀ i, (∀ k < call.length, i ≠ call.z.cell k) → memory' i = memory i

/-- The shape of the output, where it has the elements for the results. -/
theorem Call.WellFormed.shape_z (h : call.WellFormed)
    (hfirst : call.x.isScalar = true → call.y.isScalar = false →
      ∃ z, call.output = .supplied z) : call.z.info.shape = call.resultShape := by
  have hcopied : (∀ z, call.output ≠ .supplied z) → call.x.info.shape = call.resultShape := by
    intro hnone
    rw [Call.resultShape, if_neg]
    rintro ⟨hx, hy⟩
    obtain ⟨z, hz⟩ := hfirst hx (Bool.eq_false_of_not_eq_true hy)
    exact hnone z hz
  unfold Call.z
  cases hcase : call.output with
  | inplace => exact hcopied fun z hz => by rw [hcase] at hz; cases hz
  | supplied z => exact (h.supplied z hcase).2.1
  | allocated data => exact hcopied fun z hz => by rw [hcase] at hz; cases hz

theorem Call.WellFormed.length_z (h : call.WellFormed)
    (hfirst : call.x.isScalar = true → call.y.isScalar = false →
      ∃ z, call.output = .supplied z) : call.z.info.length = call.length := by
  rw [ShapeInfo.length, h.shape_z hfirst, Call.resultShape, Call.length]
  cases hx : call.x.isScalar with
  | false => rfl
  | true =>
      cases hy : call.y.isScalar with
      | false => rfl
      | true =>
          have hxone := isScalar_iff.mp hx
          have hyone := isScalar_iff.mp hy
          simp only [not_true_eq_false, and_false, if_false, if_true]
          rw [← ShapeInfo.length, hxone, hyone]

/-- Two arrays have one length. -/
theorem Call.WellFormed.length_y (h : call.WellFormed) (hx : call.x.isScalar = false)
    (hy : call.y.isScalar = false) : call.y.info.length = call.x.info.length := by
  rcases h.lengths with heq | hone | hone
  · exact heq.symm
  · rw [hx] at hone
    cases hone
  · rw [hy] at hone
    cases hone

theorem shape_ne_nil {x : Operand} (h : x.isScalar = false) : x.info.shape ≠ [] := by
  intro hnil
  apply not_isScalar_iff.mp h
  rw [ShapeInfo.length, hnil]
  rfl

variable (h : call.WellFormed)

include h

/-- Two arrays: the elements with one number in C order, or in F order. -/
theorem run_of_arrays (hfits : call.Fits)
    (hspan : call.x.info.length / numThreads call.x.info.length
      threads.settings.elementThreshold threads.settings.maxThreads + 8 < 2 ^ 31)
    (hx : call.x.isScalar = false) (hy : call.y.isScalar = false) :
    ∃ memory', elementwise op threads call memory = .ok memory' ∧
      (PairsByColumns call.x.info call.y.info call.z.info → ∀ j < call.x.info.length,
        memory' (call.z.cell (transposeIndex call.x.info.shape j)) =
          op (memory (call.x.cell (transposeIndex call.x.info.shape j)))
            (memory (call.y.cell (transposeIndex call.y.info.shape j)))) ∧
      (¬ PairsByColumns call.x.info call.y.info call.z.info → ∀ k < call.x.info.length,
        memory' (call.z.cell k) = op (memory (call.x.cell k)) (memory (call.y.cell k))) ∧
      ∀ i, (∀ k < call.x.info.length, i ≠ call.z.cell k) → memory' i = memory i := by
  have hlength := h.length_y hx hy
  have hshape : call.z.info.shape = call.x.info.shape := by
    rw [h.shape_z fun hone => absurd hone (by rw [hx]; decide), Call.resultShape,
      if_neg (by rw [hx]; simp)]
  have hzlength : call.z.info.length = call.x.info.length := by
    rw [ShapeInfo.length, hshape, ← ShapeInfo.length]
  obtain ⟨memory', hrun, hresult, hframe⟩ := pairwise_spec op h.first h.second h.laid_z hlength
    hshape (shape_ne_nil hx) hspan (h.placed_x hfits) (h.placed_y hfits hx hy) memory
  refine ⟨memory', ?_, fun hcolumns j hj => ?_, fun hcolumns => ?_, hframe⟩
  · unfold elementwise
    simp only [hx, hy]
    rw [if_pos (by simp), if_neg (by rw [hlength]; exact fun hne => hne rfl)]
    exact hrun
  · have hstored := hresult j hj
    rw [decide_eq_true hcolumns, elementOffset_transposeIndex h.laid_z.positive (hzlength ▸ hj),
      elementOffset_transposeIndex h.first.positive hj,
      elementOffset_transposeIndex h.second.positive (hlength ▸ hj), hshape] at hstored
    exact hstored
  · rw [decide_eq_false hcolumns] at hresult
    exact hresult

/-- Two arrays whose elements have the same numbers. -/
theorem stored_of_arrays (hfits : call.Fits)
    (hspan : call.x.info.length / numThreads call.x.info.length
      threads.settings.elementThreshold threads.settings.maxThreads + 8 < 2 ^ 31)
    (hx : call.x.isScalar = false) (hy : call.y.isScalar = false)
    (hnumber : PairsByColumns call.x.info call.y.info call.z.info →
      call.x.info.shape.filter (· ≠ 1) = call.y.info.shape.filter (· ≠ 1)) :
    ∃ memory', elementwise op threads call memory = .ok memory' ∧
      Stored op call memory memory' := by
  have hcount : call.length = call.x.info.length := by rw [Call.length, hx]; rfl
  obtain ⟨memory', hrun, hcolumns, hrows, hframe⟩ := @run_of_arrays T call threads op memory h hfits
    hspan hx hy
  refine ⟨memory', hrun, h.length_z fun hone => absurd hone (by rw [hx]; decide), fun k hk => ?_,
    hcount ▸ hframe⟩
  rw [hcount] at hk
  rw [Operand.at_of_not_scalar hx, Operand.at_of_not_scalar hy]
  by_cases hpairs : PairsByColumns call.x.info call.y.info call.z.info
  · -- every number in C order is one in F order, the same in both shapes
    obtain ⟨j, hj, rfl⟩ := exists_transposeIndex_eq h.first.positive hk
    have hstored := hcolumns hpairs j hj
    rw [← transposeIndex_congr (hnumber hpairs) hj] at hstored
    exact hstored
  · exact hrows hpairs k hk

/-- An array and a scalar. -/
theorem stored_of_scalar_last (hfits : call.Fits) (hx : call.x.isScalar = false)
    (hy : call.y.isScalar = true) :
    ∃ memory', elementwise op threads call memory = .ok memory' ∧
      Stored op call memory memory' := by
  have hnone : call.x.isScalar = true → call.y.isScalar = false →
      ∃ z, call.output = .supplied z := fun hone => by
    rw [hx] at hone
    cases hone
  have hshape : call.z.info.shape = call.x.info.shape := by
    rw [h.shape_z hnone, Call.resultShape, if_neg (by rw [hx]; simp)]
  have hcount : call.length = call.x.info.length := by rw [Call.length, hx]; rfl
  obtain ⟨memory', hrun, hresult, hframe⟩ := applyScalar_spec op h.first hy h.laid_z hx hshape
    (h.placed_x hfits) memory
  refine ⟨memory', ?_, h.length_z hnone, fun k hk => ?_, hcount ▸ hframe⟩
  · unfold elementwise
    simp only [hx, hy]
    rw [if_neg (by simp), if_pos (by simp)]
    exact hrun
  · rw [Operand.at_of_not_scalar hx, Operand.at_of_scalar hy]
    exact hresult k (hcount ▸ hk)

/-- A scalar and an array: the elements of the array come first. -/
theorem run_of_scalar_first {z : Operand} (hz : call.output = .supplied z)
    (hx : call.x.isScalar = true) (hy : call.y.isScalar = false) :
    ∃ memory', elementwise op threads call memory = .ok memory' ∧
      (∀ k < call.length, memory' (call.z.cell k) =
        op (call.y.at memory k) (call.x.at memory k)) ∧
      ∀ i, (∀ k < call.length, i ≠ call.z.cell k) → memory' i = memory i := by
  have hshape : call.z.info.shape = call.y.info.shape := by
    rw [h.shape_z fun _ _ => ⟨z, hz⟩, Call.resultShape, if_pos ⟨hx, by rw [hy]; decide⟩]
  have hcount : call.length = call.y.info.length := by rw [Call.length, hx]; rfl
  have hfits : call.Fits := by
    rw [Call.Fits, hz]
    trivial
  have hplaced : Reverse.Placed call.y.info call.z.info call.y.data call.z.data :=
    Or.inr (h.apart hfits (by rw [hz]; exact fun heq => by cases heq)).2
  obtain ⟨memory', hrun, hresult, hframe⟩ := applyScalar_spec op h.second hx h.laid_z hy hshape
    hplaced memory
  refine ⟨memory', ?_, fun k hk => ?_, hcount ▸ hframe⟩
  · unfold elementwise
    simp only [hx, hy]
    rw [if_neg (by simp), if_neg (by simp), if_pos (by simp)]
    exact hrun
  · rw [Operand.at_of_not_scalar hy, Operand.at_of_scalar hx]
    exact hresult k (hcount ▸ hk)

/-- Two scalars. -/
theorem stored_of_scalars (hx : call.x.isScalar = true) (hy : call.y.isScalar = true) :
    ∃ memory', elementwise op threads call memory = .ok memory' ∧
      Stored op call memory memory' := by
  have hcount : call.length = 1 := by
    rw [Call.length, hx]
    exact isScalar_iff.mp hy
  have hstart : call.z.cell 0 = call.z.data := h.laid_z.cell_zero
  refine ⟨Function.update memory call.z.data (op (memory call.x.data) (memory call.y.data)), ?_,
    h.length_z fun _ hfalse => ?_, fun k hk => ?_, fun i hi => ?_⟩
  · unfold elementwise
    simp only [hx, hy]
    rw [if_neg (by simp), if_neg (by simp), if_neg (by simp)]
  · rw [hy] at hfalse
    cases hfalse
  · obtain rfl : k = 0 := by omega
    rw [hstart, Function.update_self, Operand.at_of_scalar hx, Operand.at_of_scalar hy]
  · refine Function.update_of_ne (fun heq => hi 0 (by omega) ?_) _ _
    rw [heq, hstart]

/-- The results have the numbers of the elements. -/
theorem Call.WellFormed.lt_length {k : Nat} (hk : k < call.length) :
    (call.x.isScalar = true ∨ k < call.x.info.length) ∧
      (call.y.isScalar = true ∨ k < call.y.info.length) := by
  rw [Call.length] at hk
  cases hx : call.x.isScalar with
  | true =>
      rw [hx] at hk
      exact ⟨Or.inl rfl, Or.inr hk⟩
  | false =>
      rw [hx] at hk
      refine ⟨Or.inr hk, ?_⟩
      rcases h.lengths with heq | hone | hone
      · exact Or.inr (heq ▸ hk)
      · rw [hx] at hone
        cases hone
      · exact Or.inl hone

omit h

variable [Field T]

/-- The body of an operation, but for a product with a scalar first. -/
theorem validateAndExecute_eq (operation : Arithmetic)
    (h : operation = .multiply → ¬ (call.x.isScalar = true ∧ call.y.isScalar = false)) :
    operation.validateAndExecute threads call memory =
      elementwise operation.op threads call memory := by
  cases operation with
  | add => rfl
  | subtract => rfl
  | reversesubtract => rfl
  | divide => rfl
  | reversedivide => rfl
  | multiply =>
      have hbranch : ¬ (call.x.isScalar = true ∧ ¬ call.y.isScalar = true) := fun hfirst =>
        h rfl ⟨hfirst.1, Bool.eq_false_of_not_eq_true hfirst.2⟩
      show multiply threads call memory = elementwise (fun d1 d2 => d1 * d2) threads call memory
      unfold multiply elementwise
      simp only [if_neg hbranch]

/-- A supported operation stores its results. -/
theorem computesRight_of_supported (operation : Arithmetic) (h : call.WellFormed)
    (hspan : call.x.info.length / numThreads call.x.info.length
      threads.settings.elementThreshold threads.settings.maxThreads + 8 < 2 ^ 31)
    (hsupported : Supported operation call) : ComputesRight T operation threads call := by
  intro memory
  have hstored : ∃ memory', elementwise operation.op threads call (call.start memory) =
      .ok memory' ∧ Stored operation.op call (call.start memory) memory' := by
    cases hx : call.x.isScalar with
    | false =>
        cases hy : call.y.isScalar with
        | false => exact stored_of_arrays h hsupported.fits hspan hx hy (hsupported.numbering hx hy)
        | true => exact stored_of_scalar_last h hsupported.fits hx hy
    | true =>
        cases hy : call.y.isScalar with
        | false =>
            obtain ⟨rfl, z, hz⟩ := hsupported.scalarFirst hx hy
            obtain ⟨memory', hrun, hresult, hframe⟩ :=
              @run_of_scalar_first T call threads (Arithmetic.op .add) (call.start memory) h z hz
                hx hy
            refine ⟨memory', hrun, h.length_z fun _ _ => ⟨z, hz⟩, fun k hk => ?_, hframe⟩
            rw [hresult k hk]
            exact add_comm _ _
        | true => exact stored_of_scalars h hx hy
  obtain ⟨memory', hrun, hmemory'⟩ := hstored
  have hbody : operation = .multiply → ¬ (call.x.isScalar = true ∧ call.y.isScalar = false) := by
    rintro rfl ⟨hx, hy⟩
    cases (hsupported.scalarFirst hx hy).1
  have hunchanged : ∀ array, array = call.x ∨ array = call.y → call.output ≠ .inplace →
      ∀ k < array.info.length, memory' (array.cell k) = memory (array.cell k) := by
    intro array harray hout k hk
    obtain ⟨hxapart, hyapart⟩ := h.apart hsupported.fits hout
    rw [hmemory'.frame, h.start_cell memory harray hk]
    intro k' hk' heq
    have hk'' : k' < call.z.info.length := hmemory'.length ▸ hk'
    rcases harray with rfl | rfl
    · exact hxapart.cell_ne h.first h.laid_z hk hk'' heq
    · exact hyapart.cell_ne h.second h.laid_z hk hk'' heq
  refine ⟨memory', ?_, hmemory'.length, fun k hk => ?_, hunchanged call.x (Or.inl rfl),
    hunchanged call.y (Or.inr rfl)⟩
  · rw [Arithmetic.execute, validateAndExecute_eq operation hbody, hrun]
    exact if_pos hsupported.fits
  · obtain ⟨hxk, hyk⟩ := h.lt_length hk
    rw [hmemory'.result k hk, h.start_at memory (Or.inl rfl) hxk,
      h.start_at memory (Or.inr rfl) hyk]

/-! ## Unsupported operations -/

/-- Only an array of the caller has the elements for the results of a scalar and an array. -/
theorem supplied_of_length (h : call.z.info.length = call.length) (hx : call.x.isScalar = true)
    (hy : call.y.isScalar = false) : ∃ z, call.output = .supplied z := by
  have hmany : call.x.info.length ≠ call.length := by
    rw [Call.length, if_pos hx, isScalar_iff.mp hx]
    exact fun heq => not_isScalar_iff.mp hy heq.symm
  unfold Call.z at h
  cases hcase : call.output with
  | inplace =>
      rw [hcase] at h
      exact absurd h hmany
  | supplied z => exact ⟨z, rfl⟩
  | allocated data =>
      rw [hcase] at h
      exact absurd h hmany

/-- A product with a scalar first takes the output for the scalar. -/
theorem multiply_of_scalar_first (h : call.WellFormed) {z : Operand}
    (hz : call.output = .supplied z) (hx : call.x.isScalar = true)
    (hy : call.y.isScalar = false) :
    multiply threads call memory = .error (.thrown "Operand is not a scalar!") := by
  have hzlength : call.z.info.length = call.y.info.length := by
    rw [h.length_z fun _ _ => ⟨z, hz⟩, Call.length, hx]
    rfl
  have hscalar : call.z.isScalar = false :=
    not_isScalar_iff.mpr (hzlength ▸ not_isScalar_iff.mp hy)
  unfold multiply
  simp only [hx, hy]
  rw [if_neg (by simp), if_neg (by simp), if_pos (by simp), applyScalar,
    if_pos (by rw [hscalar]; decide)]

/-- Some element of an array is in another cell than a given one. -/
theorem Laid.exists_cell_ne {x : Operand} (h : Laid x.info) (hmany : x.isScalar = false) (i : Int) :
    ∃ k < x.info.length, x.cell k ≠ i := by
  have hpos := h.positive.length_pos
  have hne := not_isScalar_iff.mp hmany
  by_cases hzero : x.cell 0 = i
  · refine ⟨1, by omega, fun hone => ?_⟩
    have hindex : 0 = 1 := h.cell_inj hpos (by omega) (hzero.trans hone.symm)
    exact absurd hindex (by decide)
  · exact ⟨0, hpos, hzero⟩

section Values

variable [CharZero T] {operation : Arithmetic}

/-- The operations that are not commutative tell three and two from two and three. -/
theorem op_swap_ne (hadd : operation ≠ .add) (hmul : operation ≠ .multiply) :
    operation.op (3 : T) 2 ≠ operation.op 2 3 := by
  cases operation with
  | add => exact absurd rfl hadd
  | multiply => exact absurd rfl hmul
  | subtract =>
      show (3 : T) - 2 ≠ 2 - 3
      norm_num
  | reversesubtract =>
      show (2 : T) - 3 ≠ 3 - 2
      norm_num
  | divide =>
      show (3 : T) / 2 ≠ 2 / 3
      norm_num
  | reversedivide =>
      show (2 : T) / 3 ≠ 3 / 2
      norm_num

/-- An operation tells a second element of three from one of two. -/
theorem op_second_ne (operation : Arithmetic) {v : T} (hv : v ≠ 0) :
    operation.op v 3 ≠ operation.op v 2 := by
  have hne : (3 : T) ≠ 2 := by norm_num
  cases operation with
  | add => exact fun heq => hne (add_left_cancel heq)
  | subtract => exact fun heq => hne (sub_right_injective heq)
  | reversesubtract => exact fun heq => hne (sub_left_injective heq)
  | multiply => exact fun heq => hne (mul_left_cancel₀ hv heq)
  | divide =>
      intro heq
      have hcross : v * 2 = v * 3 := (div_eq_div_iff (by norm_num) (by norm_num)).mp heq
      exact hne (mul_left_cancel₀ hv hcross.symm)
  | reversedivide => exact fun heq => hne ((div_left_inj' hv).mp heq)

/-- With a scalar first the elements of the other input are first in the results. -/
theorem not_computesRight_of_scalar_first (h : call.WellFormed) {z : Operand}
    (hz : call.output = .supplied z) (hx : call.x.isScalar = true) (hy : call.y.isScalar = false)
    (hadd : operation ≠ .add) : ¬ ComputesRight T operation threads call := by
  intro hright
  by_cases hmul : operation = .multiply
  · obtain ⟨memory', hrun, -⟩ := hright fun _ => 0
    rw [hmul, Arithmetic.execute] at hrun
    have hthrown := @multiply_of_scalar_first T call threads
      (call.start fun _ => (0 : T)) _ h z hz hx hy
    rw [show Arithmetic.multiply.validateAndExecute threads call
      (call.start fun _ => (0 : T)) = _ from hthrown] at hrun
    cases hrun
  · obtain ⟨k, hk, hne⟩ := h.second.exists_cell_ne hy call.x.data
    have hcount : call.length = call.y.info.length := by rw [Call.length, if_pos hx]
    obtain ⟨memory', hrun, hstored⟩ :=
      hright (Function.update (fun _ => 3) call.x.data 2)
    have hstart : call.start (Function.update (fun _ => (3 : T)) call.x.data 2) =
        Function.update (fun _ => (3 : T)) call.x.data 2 := by rw [Call.start, hz]
    obtain ⟨memory'', hrun', hresult, -⟩ := @run_of_scalar_first T call threads operation.op
      (Function.update (fun _ => 3) call.x.data 2) h z hz hx hy
    rw [Arithmetic.execute, hstart, validateAndExecute_eq operation fun heq => absurd heq hmul,
      hrun'] at hrun
    have hfits : call.Fits := by
      rw [Call.Fits, hz]
      trivial
    obtain rfl : memory'' = memory' := Except.ok.inj ((if_pos hfits).symm.trans hrun)
    have hequal := (hresult k (hcount ▸ hk)).symm.trans (hstored.result k (hcount ▸ hk))
    rw [Operand.at_of_not_scalar hy, Operand.at_of_scalar hx, Function.update_of_ne hne,
      Function.update_self] at hequal
    exact op_swap_ne hadd hmul hequal

/-- Arrays of different shapes that are walked in F order are paired by other elements. -/
theorem not_computesRight_of_columns (h : call.WellFormed) (hfits : call.Fits)
    (hspan : call.x.info.length / numThreads call.x.info.length
      threads.settings.elementThreshold threads.settings.maxThreads + 8 < 2 ^ 31)
    (hx : call.x.isScalar = false) (hy : call.y.isScalar = false)
    (hcolumns : PairsByColumns call.x.info call.y.info call.z.info)
    (hne : call.x.info.shape.filter (· ≠ 1) ≠ call.y.info.shape.filter (· ≠ 1)) :
    ¬ ComputesRight T operation threads call := by
  intro hright
  have hlength := h.length_y hx hy
  obtain ⟨j, hj, hindex⟩ : ∃ j < call.x.info.length,
      transposeIndex call.x.info.shape j ≠ transposeIndex call.y.info.shape j := by
    by_contra hall
    push Not at hall
    exact hne (filter_eq_of_transposeIndex h.first.positive h.second.positive hlength.symm hall)
  have ha : transposeIndex call.x.info.shape j < call.x.info.length :=
    transposeIndex_lt h.first.positive hj
  have hb : transposeIndex call.y.info.shape j < call.y.info.length :=
    transposeIndex_lt h.second.positive (hlength.symm ▸ hj : j < call.y.info.length)
  have hcount : call.length = call.x.info.length := by rw [Call.length, hx]; rfl
  -- the element that the loop takes is three, the one of the claim's number is two
  obtain ⟨memory, hmemory⟩ : ∃ memory : Int → T, memory = Function.update (fun _ => 2)
    (call.y.cell (transposeIndex call.y.info.shape j)) 3 := ⟨_, rfl⟩
  obtain ⟨memory', hrun, hstored⟩ := hright memory
  obtain ⟨memory'', hrun', hresult, -⟩ := @run_of_arrays T call threads operation.op
    (call.start memory) h hfits hspan hx hy
  rw [Arithmetic.execute, validateAndExecute_eq operation fun _ hfirst => by simp [hx] at hfirst,
    hrun'] at hrun
  obtain rfl : memory'' = memory' := Except.ok.inj ((if_pos hfits).symm.trans hrun)
  have hequal := (hresult hcolumns j hj).symm.trans (hstored.result _ (hcount ▸ ha))
  have hvalue : memory (call.x.cell (transposeIndex call.x.info.shape j)) ≠ 0 := by
    rw [hmemory, Function.update_apply]
    split <;> norm_num
  have hother : memory (call.y.cell (transposeIndex call.x.info.shape j)) = 2 := by
    rw [hmemory, Function.update_of_ne]
    exact fun heq => hindex (h.second.cell_inj (hlength ▸ ha) hb heq)
  rw [Operand.at_of_not_scalar hx, Operand.at_of_not_scalar hy,
    h.start_cell memory (Or.inl rfl) ha, h.start_cell memory (Or.inr rfl) hb, hother] at hequal
  rw [hmemory, Function.update_self, ← hmemory] at hequal
  exact op_second_ne operation hvalue hequal

end Values

end Bodies

/-! ## Fresh arrays -/

theorem laid_newShapeInfo {order : Char} {shape : List Nat} (horder : order = 'c' ∨ order = 'f')
    (hpos : ∀ d ∈ shape, 0 < d) : Laid (newShapeInfo order shape) where
  positive := positive_newShapeInfo hpos order
  honest := honestEws_newShapeInfo horder hpos
  cellsApart := cellsApart_newShapeInfo horder hpos
  slot _ := by rcases horder with rfl | rfl <;> rfl

/-- A new array in C order at an address. -/
def Operand.fresh (shape : List Nat) (data : Int) : Operand :=
  ⟨newShapeInfo 'c' shape, data⟩

/-- New arrays share no cell if one ends where the other starts, or before. -/
theorem apart_fresh {shape shape' : List Nat} {data data' : Int}
    (h : data + shape.prod ≤ data' ∨ data' + shape'.prod ≤ data) :
    (Operand.fresh shape data).Apart (Operand.fresh shape' data') := by
  intro c d hc hd
  have hc : InBox shape c := by
    have hshape := shape_newShapeInfo 'c' shape
    rwa [Operand.fresh, hshape] at hc
  have hd : InBox shape' d := by
    have hshape := shape_newShapeInfo 'c' shape'
    rwa [Operand.fresh, hshape] at hd
  have hfirst := encode_lt hc
  have hsecond := encode_lt hd
  show data + Strided.dot c (newShapeInfo 'c' shape).stride ≠
    data' + Strided.dot d (newShapeInfo 'c' shape').stride
  rw [dot_shapeBuffer hc, dot_shapeBuffer hd]
  omega

/-- A scalar and an array of two elements. -/
def scalarFirst : Call where
  x := .fresh [1, 1] 0
  y := .fresh [1, 2] 1
  output := .supplied (.fresh [1, 2] 3)

/-- One thread does its work in order. -/
def Threads.inOrder : Threads where
  settings := .initial 1 Nat.one_pos
  visits := id
  cells := id
  visits_perm _ := List.Perm.refl _
  cells_perm _ := List.Perm.refl _

theorem wellFormed_scalarFirst : scalarFirst.WellFormed where
  first := laid_newShapeInfo (Or.inl rfl) (by decide)
  second := laid_newShapeInfo (Or.inl rfl) (by decide)
  lengths := Or.inr (Or.inl rfl)
  inplace h := by cases h
  supplied := by
    rintro z ⟨⟩
    exact ⟨laid_newShapeInfo (Or.inl rfl) (by decide), rfl, apart_fresh (Or.inl (by decide)),
      apart_fresh (Or.inl (by decide))⟩
  allocated data h := by cases h

/-! ## The condition -/

end Ops
end LibND4J
