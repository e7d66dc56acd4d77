import LibND4J.Graph.Onion
import LibND4J.Library.Runs
import LibND4J.Shape.ShapeBuffer
import LibND4J.Shape.Tad

/-!
# The estimate of the required memory

`estimateRequiredMemory` goes through the nodes of a graph as the execution does, and
derives the shape of every output from the shapes of the inputs by rules of its own.  For a
reduction along dimensions it takes the length of one tensor where the execution takes the
number of tensors.

Main results:

- Theorem `estimate_hasShape` and theorem `execute_hasShape`: both follow one set of
  rules, up to the length of such a reduction.
- Theorem `hasShape_agree_iff`: the rules lead to arrays of the same lengths exactly when
  they give every reduction along dimensions the same length.
- Theorem `estimates_iff`: the estimate is right exactly when every such reduction takes as
  many elements together as it leaves, and no reduction is marked as in place.
- Theorem `not_estimates_always`: the sum of a row of five elements.
-/

namespace LibND4J
namespace Graph

open Std OrderedMap Shape

/-! ## Nodes and shapes -/

/-- The operation types covered; an accumulation has one input. -/
inductive ShapedNode.OpType where
  | transform
  | scalar
  | accumulation
deriving Repr, DecidableEq

/-- A node with what decides the shape of its output. -/
structure ShapedNode extends Node where
  opType : ShapedNode.OpType
  dimensions : List Nat := []
  isInplace : Bool := false
deriving Repr, DecidableEq

/-- No dimensions, or the marker for all of them. -/
def ShapedNode.reducesToScalar (node : ShapedNode) : Bool :=
  node.dimensions = [] ∨ node.dimensions = [maxDimension]

/-- The arrays of the variables, by shape information.  A variable that is not filed is `none`,
one without an array `some none`. -/
abbrev Variables := Int × Int → Option (Option ShapeInfo)

/-! ## The estimate -/

/-- The shapes recorded for the nodes, and the number of bytes. -/
structure Estimate where
  shapesMap : TreeMap (Int × Int) ShapeInfo pairCmp
  result : Nat

/-- The shape information of an input: that of an external array, or what is recorded. -/
def Estimate.inputShape (variableSpace : Variables) (s : Estimate) (input : Int × Int) :
    Option ShapeInfo :=
  if input.1 < 0 then (variableSpace input).join else s.shapesMap[input]?

/-- The shape information of a reduction to a scalar. -/
def scalarShapeInfo : ShapeInfo where
  shape := [1, 1]
  stride := [1, 1]
  offset := 0
  elementWiseStride := 1
  order := 'c'
  stride_length := by decide

/-- The shape information `newShape` of the output of a node. -/
def Estimate.newShape (variableSpace : Variables) (s : Estimate) (node : ShapedNode) :
    Option ShapeInfo :=
  match node.opType with
  | .transform | .scalar => node.input[0]?.bind (s.inputShape variableSpace)
  | .accumulation =>
      if node.reducesToScalar then
        some scalarShapeInfo
      else
        (node.input[0]?.bind (s.inputShape variableSpace)).map fun oldShape =>
          shapeBuffer [1, tadLength oldShape.shape node.dimensions]

/-- The node adds to the result: an in-place transform does not. -/
def ShapedNode.isCounted (node : ShapedNode) : Bool :=
  node.opType = .accumulation || !node.isInplace

/-- One iteration of the loops of `estimateRequiredMemory`; `none` is an exception or a null
array. -/
def estimateNode (sizeofT : Nat) (variableSpace : Variables) (s : Estimate) (node : ShapedNode) :
    Option Estimate :=
  (s.newShape variableSpace node).map fun newShape =>
    { shapesMap := s.shapesMap.insertIfNew (node.id, 0) newShape
      result := if node.isCounted then s.result + newShape.length * sizeofT else s.result }

/-- `estimateRequiredMemory`, over the nodes of the onion. -/
def estimateRequiredMemory (sizeofT : Nat) (variableSpace : Variables) (nodes : List ShapedNode) :
    Option Estimate :=
  nodes.foldlM (estimateNode sizeofT variableSpace) ⟨∅, 0⟩

/-! ## The execution -/

namespace ShapedNode

/-- The output of the node an input names is used in different branches. -/
def branches (mapped : Int → Option ShapedNode) (input : Int) : Option Bool :=
  if 0 < input then (mapped input).map fun node => 1 < node.output.length else some false

/-- The shape information `dup` gives. -/
def dupShapeInfo (z : ShapeInfo) : ShapeInfo :=
  { (if z.order = 'f' then shapeBufferFortran z.shape else shapeBuffer z.shape) with
    elementWiseStride := 1 }

/-- The shape information of `NDArray(1, columns, 'c')`. -/
def rowShapeInfo (columns : Nat) : ShapeInfo :=
  { shapeBuffer [1, columns] with
    elementWiseStride := 1
    order := 'c' }

/-- The dimensions, when they are axes of the array in increasing order. -/
def toDimensions (info : ShapeInfo) (dimensions : List Nat) : Option (Dimensions info.rank) :=
  if h : dimensions ≠ [] ∧ dimensions.Pairwise (· < ·) ∧ ∀ d ∈ dimensions, d < info.rank then
    some ⟨dimensions, h.1, h.2.1, h.2.2⟩
  else
    none

/-- One iteration over the outputs: an external variable without an array is given a copy.  The
arrays must have the same length. -/
def announceTo (z : ShapeInfo) (s : Variables) (output : Int) : Option Variables :=
  match s (output, 0) with
  | none => none
  | some none => some (Function.update s (output, 0) (some (some (dupShapeInfo z))))
  | some (some out) => if out.length ≠ z.length then none else some s

/-- The loop over the outputs, behind `putVariable`. -/
def announce (skipped : Int → Bool) (node : ShapedNode) (z : ShapeInfo) (s : Variables) :
    Option Variables :=
  if node.hasExternalOutputs then
    node.output.foldlM
      (fun s output => if skipped output then some s else announceTo z s output)
      (Function.update s (node.id, 0) (some (some z)))
  else
    some (Function.update s (node.id, 0) (some (some z)))

/-- The shape information of the array of the node's variable, which is `z` before, for an
input `x`. -/
def outputShapeInfo (mapped : Int → Option ShapedNode) (node : ShapedNode) (input : Int × Int)
    (x : ShapeInfo) (z : Option ShapeInfo) : Option ShapeInfo :=
  match node.opType with
  | .transform =>
      -- a copy or a view
      if node.input.length = 1 then (branches mapped input.1).map fun _ => z.getD x
      else some (z.getD x)
  | .scalar => (branches mapped input.1).map fun shared => if shared then x else z.getD x
  | .accumulation =>
      -- two inputs are a reduction of pairs, which is not followed
      if node.input.length ≠ 1 then
        none
      else if node.reducesToScalar then
        some (z.getD (rowShapeInfo 1))
      else do
        let dimension ← toDimensions x node.dimensions
        let tad ← (TAD.init x dimension).shapeInfoOnlyShapeAndStride
        let resultLength := x.length / tad.length
        match z with
        | none => some (rowShapeInfo resultLength)
        | some z => some (if z.length ≠ resultLength then rowShapeInfo resultLength else z)

/-- The outputs that are not external for a node. -/
def skips (node : ShapedNode) (output : Int) : Bool :=
  if node.opType = .transform then 0 ≤ output else 0 < output

/-- `executeFlatNode`, as far as it concerns the shapes; `none` is an exception or a null
array. -/
def executeFlatNode (mapped : Int → Option ShapedNode) (s : Variables) (node : ShapedNode) :
    Option Variables := do
  let input ← node.input[0]?
  let x ← (s input).join
  let z ← s (node.id, 0)
  let newZ ← node.outputShapeInfo mapped input x z
  announce node.skips node newZ s

/-- The lookup of `getMapped`. -/
def mappedIn (nodes : List ShapedNode) (id : Int) : Option ShapedNode :=
  nodes.find? fun node => node.id = id

/-- The loops of `execute` over the nodes of the onion. -/
def execute (nodes : List ShapedNode) (variableSpace : Variables) : Option Variables :=
  nodes.foldlM (executeFlatNode (mappedIn nodes)) variableSpace

end ShapedNode

/-! ## Rules for shapes -/

/-- A shape of the output of a node, or of an external array, when a reduction along dimensions
leaves as many elements as the rule says. -/
inductive HasShape (rule : List Nat → List Nat → Nat) (nodes : List ShapedNode)
    (external : Int × Int → Option (List Nat)) : Int × Int → List Nat → Prop where
  | external {p : Int × Int} {shape : List Nat} : p.1 < 0 → external p = some shape →
      HasShape rule nodes external p shape
  | elementwise {n : ShapedNode} {p : Int × Int} {shape : List Nat} : n ∈ nodes →
      n.opType ≠ .accumulation → n.input[0]? = some p → HasShape rule nodes external p shape →
        HasShape rule nodes external (n.id, 0) shape
  | whole {n : ShapedNode} : n ∈ nodes → n.opType = .accumulation → n.reducesToScalar = true →
      HasShape rule nodes external (n.id, 0) [1, 1]
  | along {n : ShapedNode} {p : Int × Int} {shape : List Nat} : n ∈ nodes →
      n.opType = .accumulation → n.reducesToScalar = false → n.input[0]? = some p →
        HasShape rule nodes external p shape →
          HasShape rule nodes external (n.id, 0) [1, rule shape n.dimensions]

/-- The number of elements a reduction along dimensions leaves: the product of the other
extents. -/
def resultLength (shape dimensions : List Nat) : Nat :=
  (removeIndex shape dimensions).prod

/-! ## Comparing the rules -/

section Rules

variable {rule rule' : List Nat → List Nat → Nat} {nodes : List ShapedNode}
  {external : Int × Int → Option (List Nat)}

variable {p : Int × Int} {shape : List Nat}

/-- How a shape was found. -/
theorem HasShape.cases_node (h : HasShape rule nodes external p shape) :
    (p.1 < 0 ∧ external p = some shape) ∨ ∃ n ∈ nodes, p = (n.id, 0) ∧
      ((n.opType ≠ .accumulation ∧ ∃ q, n.input[0]? = some q ∧
          HasShape rule nodes external q shape) ∨
        (n.opType = .accumulation ∧ n.reducesToScalar = true ∧ shape = [1, 1]) ∨
        (n.opType = .accumulation ∧ n.reducesToScalar = false ∧ ∃ q x, n.input[0]? = some q ∧
          HasShape rule nodes external q x ∧ shape = [1, rule x n.dimensions])) := by
  cases h with
  | external hneg hshape => exact Or.inl ⟨hneg, hshape⟩
  | elementwise hn htype hinput hx => exact Or.inr ⟨_, hn, rfl, Or.inl ⟨htype, _, hinput, hx⟩⟩
  | whole hn htype hscalar => exact Or.inr ⟨_, hn, rfl, Or.inr (Or.inl ⟨htype, hscalar, rfl⟩)⟩
  | along hn htype hscalar hinput hx =>
      exact Or.inr ⟨_, hn, rfl, Or.inr (Or.inr ⟨htype, hscalar, _, _, hinput, hx, rfl⟩)⟩

/-- Distinct ids, none of them external. -/
structure WellNumbered (nodes : List ShapedNode) : Prop where
  ids : (nodes.map fun n => n.id).Nodup
  positive : ∀ n ∈ nodes, 0 < n.id

theorem WellNumbered.eq_of_pair (h : WellNumbered nodes) {n m : ShapedNode} (hn : n ∈ nodes)
    (hm : m ∈ nodes) (hpair : ((n.id, 0) : Int × Int) = (m.id, 0)) : n = m :=
  List.inj_on_of_nodup_map h.ids hn hm (congrArg Prod.fst hpair)

/-- How the shape of the output of a node was found. -/
theorem HasShape.cases_of_mem (hnodes : WellNumbered nodes) {n : ShapedNode} (hn : n ∈ nodes)
    (h : HasShape rule nodes external (n.id, 0) shape) :
    (n.opType ≠ .accumulation ∧ ∃ q, n.input[0]? = some q ∧
        HasShape rule nodes external q shape) ∨
      (n.opType = .accumulation ∧ n.reducesToScalar = true ∧ shape = [1, 1]) ∨
      (n.opType = .accumulation ∧ n.reducesToScalar = false ∧ ∃ q x, n.input[0]? = some q ∧
        HasShape rule nodes external q x ∧ shape = [1, rule x n.dimensions]) := by
  rcases h.cases_node with ⟨hneg, -⟩ | ⟨m, hm, hpair, hcases⟩
  · exact absurd hneg (Int.not_lt.mpr (hnodes.positive n hn).le)
  · obtain rfl := hnodes.eq_of_pair hn hm hpair
    exact hcases

/-- The rules leave no choice. -/
theorem HasShape.unique (hnodes : WellNumbered nodes) {shape' : List Nat}
    (h : HasShape rule nodes external p shape) (h' : HasShape rule nodes external p shape') :
    shape = shape' := by
  induction h generalizing shape' with
  | external hneg hshape =>
      rcases h'.cases_node with ⟨-, hshape'⟩ | ⟨m, hm, rfl, -⟩
      · exact Option.some.inj (hshape.symm.trans hshape')
      · exact absurd hneg (Int.not_lt.mpr (hnodes.positive m hm).le)
  | elementwise hn htype hinput _ ih =>
      rcases h'.cases_of_mem hnodes hn with ⟨-, q, hq, hx⟩ | ⟨hacc, -⟩ | ⟨hacc, -⟩
      · exact ih (Option.some.inj (hinput.symm.trans hq) ▸ hx)
      · exact absurd hacc htype
      · exact absurd hacc htype
  | whole hn htype hscalar =>
      rcases h'.cases_of_mem hnodes hn with ⟨hother, -⟩ | ⟨-, -, rfl⟩ | ⟨-, hfalse, -⟩
      · exact absurd htype hother
      · rfl
      · exact absurd (hscalar.symm.trans hfalse) (by decide)
  | along hn htype hscalar hinput _ ih =>
      rcases h'.cases_of_mem hnodes hn with ⟨hother, -⟩ | ⟨-, htrue, -⟩ | ⟨-, -, q, x, hq, hx, rfl⟩
      · exact absurd htype hother
      · exact absurd (htrue.symm.trans hscalar) (by decide)
      · rw [ih (Option.some.inj (hinput.symm.trans hq) ▸ hx)]

/-- Two rules that agree on the reductions, where they have led to the same shapes, lead to the
same shapes. -/
theorem HasShape.convert
    (hrule : ∀ n ∈ nodes, n.opType = .accumulation → n.reducesToScalar = false → ∀ p x,
      n.input[0]? = some p → HasShape rule nodes external p x →
        HasShape rule' nodes external p x → rule' x n.dimensions = rule x n.dimensions)
    (h : HasShape rule nodes external p shape) : HasShape rule' nodes external p shape := by
  induction h with
  | external hneg hshape => exact .external hneg hshape
  | elementwise hn htype hinput _ ih => exact .elementwise hn htype hinput ih
  | whole hn htype hscalar => exact .whole hn htype hscalar
  | along hn htype hscalar hinput hx ih =>
      rw [← hrule _ hn htype hscalar _ _ hinput hx ih]
      exact .along hn htype hscalar hinput ih

/-- Two rules lead to arrays of the same lengths exactly when they agree on the reductions
along dimensions. -/
theorem hasShape_agree_iff (hnodes : WellNumbered nodes) :
    (∀ n ∈ nodes, ∀ x y, HasShape rule' nodes external (n.id, 0) x →
        HasShape rule nodes external (n.id, 0) y → x.prod = y.prod) ↔
      ∀ n ∈ nodes, n.opType = .accumulation → n.reducesToScalar = false → ∀ p x,
        n.input[0]? = some p → HasShape rule nodes external p x →
          rule' x n.dimensions = rule x n.dimensions := by
  constructor
  · intro hagree
    -- a reduction whose input has the same shape under both rules
    have hlength : ∀ n ∈ nodes, n.opType = .accumulation → n.reducesToScalar = false → ∀ p x,
        n.input[0]? = some p → HasShape rule nodes external p x →
          HasShape rule' nodes external p x → rule' x n.dimensions = rule x n.dimensions := by
      intro n hn htype hscalar p x hinput hx hx'
      have hprod := hagree n hn _ _ (.along hn htype hscalar hinput hx')
        (.along hn htype hscalar hinput hx)
      simpa using hprod
    intro n hn htype hscalar p x hinput hx
    exact hlength n hn htype hscalar p x hinput hx (hx.convert hlength)
  · intro hrule n hn x y hx hy
    have hy' := hy.convert fun m hm htype hscalar p x hinput hx _ =>
      hrule m hm htype hscalar p x hinput hx
    rw [hx.unique hnodes hy']

end Rules

/-! ## What the estimate records -/

/-- The shapes of the external arrays. -/
def externalShapes (variableSpace : Variables) (p : Int × Int) : Option (List Nat) :=
  (variableSpace p).join.map ShapeInfo.shape

/-- The length recorded for a node. -/
def Estimate.length (s : Estimate) (node : ShapedNode) : Nat :=
  (s.shapesMap[(node.id, (0 : Int))]?.map ShapeInfo.length).getD 0

/-- What the estimate holds after the nodes `done`. -/
structure Estimating (sizeofT : Nat) (nodes : List ShapedNode) (variableSpace : Variables)
    (done : List ShapedNode) (s : Estimate) : Prop where
  recorded : ∀ n ∈ done, ∃ e, s.shapesMap[(n.id, (0 : Int))]? = some e ∧
    HasShape tadLength nodes (externalShapes variableSpace) (n.id, 0) e.shape
  nodes_only : ∀ (p : Int × Int) e, s.shapesMap[p]? = some e → ∃ n ∈ done, p = (n.id, 0)
  result : s.result = ((done.filter ShapedNode.isCounted).map s.length).sum * sizeofT

section Estimated

variable {sizeofT : Nat} {nodes done : List ShapedNode} {variableSpace : Variables} {s : Estimate}

/-- An input that is at hand has a shape by the rules. -/
theorem Estimating.hasShape_input (hs : Estimating sizeofT nodes variableSpace done s)
    {p : Int × Int} {x : ShapeInfo} (hx : s.inputShape variableSpace p = some x) :
    HasShape tadLength nodes (externalShapes variableSpace) p x.shape := by
  unfold Estimate.inputShape at hx
  split at hx
  · rename_i hneg
    exact .external hneg (by rw [externalShapes, hx, Option.map_some])
  · obtain ⟨n, hn, rfl⟩ := hs.nodes_only p x hx
    obtain ⟨e, he, hshape⟩ := hs.recorded n hn
    rw [hx, Option.some.injEq] at he
    exact he ▸ hshape

/-- The new shape is one by the rules. -/
theorem Estimating.hasShape_newShape (hs : Estimating sizeofT nodes variableSpace done s)
    {node : ShapedNode} (hnode : node ∈ nodes) {e : ShapeInfo}
    (he : s.newShape variableSpace node = some e) :
    HasShape tadLength nodes (externalShapes variableSpace) (node.id, 0) e.shape := by
  unfold Estimate.newShape at he
  split at he
  · rename_i htype
    obtain ⟨p, hp, hx⟩ := Option.bind_eq_some_iff.mp he
    exact .elementwise hnode (by rw [htype]; decide) hp (hs.hasShape_input hx)
  · rename_i htype
    obtain ⟨p, hp, hx⟩ := Option.bind_eq_some_iff.mp he
    exact .elementwise hnode (by rw [htype]; decide) hp (hs.hasShape_input hx)
  · rename_i htype
    split at he
    · rename_i hscalar
      rw [← Option.some.inj he]
      exact .whole hnode htype hscalar
    · rename_i hscalar
      obtain ⟨x, hx, rfl⟩ := Option.map_eq_some_iff.mp he
      obtain ⟨p, hp, hx⟩ := Option.bind_eq_some_iff.mp hx
      rw [shape_shapeBuffer]
      exact .along hnode htype (Bool.eq_false_iff.mpr hscalar) hp (hs.hasShape_input hx)

/-- One node more is recorded. -/
theorem Estimating.step (hnodes : WellNumbered nodes)
    (hs : Estimating sizeofT nodes variableSpace done s) {node : ShapedNode}
    {rest : List ShapedNode} (hall : nodes = done ++ node :: rest) {t : Estimate}
    (ht : estimateNode sizeofT variableSpace s node = some t) :
    Estimating sizeofT nodes variableSpace (done ++ [node]) t := by
  obtain ⟨e, he, rfl⟩ := Option.map_eq_some_iff.mp ht
  have hnode : node ∈ nodes := hall ▸ List.mem_append_right _ (List.mem_cons_self ..)
  have hnew : ∀ n ∈ done, n.id ≠ node.id := by
    intro n hn hid
    have hids := hnodes.ids
    rw [hall, List.map_append, List.map_cons] at hids
    exact (List.nodup_append.mp hids).2.2 _ (List.mem_map_of_mem hn) _ (List.mem_cons_self ..) hid
  have hnone : s.shapesMap[(node.id, (0 : Int))]? = none := by
    apply Option.eq_none_iff_forall_ne_some.mpr
    intro x hx
    obtain ⟨n, hn, hpair⟩ := hs.nodes_only _ x hx
    exact hnew n hn (congrArg Prod.fst hpair).symm
  have hlookup : ∀ p : Int × Int, (s.shapesMap.insertIfNew (node.id, (0 : Int)) e)[p]? =
      if (node.id, 0) = p then some e else s.shapesMap[p]? :=
    fun p => getElem?_insertIfNew_eq hnone p e
  have hother : ∀ n ∈ done, ((node.id, 0) : Int × Int) ≠ (n.id, 0) :=
    fun n hn hpair => hnew n hn (congrArg Prod.fst hpair).symm
  refine ⟨?_, ?_, ?_⟩
  · intro n hn
    rcases List.mem_append.mp hn with hn | hn
    · obtain ⟨x, hx, hshape⟩ := hs.recorded n hn
      exact ⟨x, by rw [hlookup, if_neg (hother n hn), hx], hshape⟩
    · obtain rfl := List.mem_singleton.mp hn
      exact ⟨e, by rw [hlookup, if_pos rfl], hs.hasShape_newShape hnode he⟩
  · intro p x hx
    rw [hlookup] at hx
    split at hx
    · rename_i hp
      exact ⟨node, List.mem_append_right _ (List.mem_singleton_self _), hp.symm⟩
    · obtain ⟨n, hn, hpair⟩ := hs.nodes_only p x hx
      exact ⟨n, List.mem_append_left _ hn, hpair⟩
  · have hold : ∀ n ∈ done.filter ShapedNode.isCounted,
        Estimate.length ⟨s.shapesMap.insertIfNew (node.id, 0) e,
          if node.isCounted then s.result + e.length * sizeofT else s.result⟩ n = s.length n := by
      intro n hn
      unfold Estimate.length
      rw [hlookup, if_neg (hother n (List.mem_of_mem_filter hn))]
    rw [List.filter_append, List.map_append, List.map_congr_left hold, List.sum_append]
    cases hcounted : node.isCounted with
    | false => simpa [hcounted] using hs.result
    | true =>
        simp only [hcounted, if_true, List.filter_cons_of_pos, List.filter_nil, List.map_cons,
          List.map_nil, List.sum_singleton]
        rw [Estimate.length, hlookup, if_pos rfl, Option.map_some, Option.getD_some, hs.result,
          Nat.add_mul]

/-- The estimate follows the rules, with the length of one tensor for a reduction. -/
theorem estimate_hasShape (hnodes : WellNumbered nodes)
    (hs : estimateRequiredMemory sizeofT variableSpace nodes = some s) :
    Estimating sizeofT nodes variableSpace nodes s := by
  have hempty : Estimating sizeofT nodes variableSpace [] ⟨∅, 0⟩ :=
    ⟨by simp, by simp, by simp⟩
  exact @Runs.foldlM_invariant _ _ _ (Estimating sizeofT nodes variableSpace) nodes
    (fun _ _ _ _ _ hall hs ht => hs.step hnodes hall ht) _ _ hempty hs

end Estimated

/-! ## What the execution leaves -/

/-- Axes in increasing order, not all of them. -/
structure ProperAxes (shape dimensions : List Nat) : Prop where
  sorted : dimensions.Pairwise (· < ·)
  lt_rank : ∀ d ∈ dimensions, d < shape.length
  proper : dimensions.length < shape.length

/-- The graphs covered: positive distinct ids, outputs that are never 0, node variables without
arrays, external inputs that have one, and reductions along proper axes. -/
structure Executable (nodes : List ShapedNode) (start : Variables) : Prop where
  numbered : WellNumbered nodes
  nonzero : ∀ n ∈ nodes, 0 ∉ n.output
  empty : ∀ n ∈ nodes, start (n.id, 0) = some none
  external_only : ∀ p : Int × Int, 0 ≤ p.1 → (start p).join = none
  external : ∀ n ∈ nodes, ∀ p ∈ n.input, p.1 < 0 → (start p).join.isSome
  shapes : ∀ p x, (start p).join = some x → x.Positive ∧ x.rank ≤ maxDimension
  axes : ∀ n ∈ nodes, n.opType = .accumulation → n.reducesToScalar = false → ∀ p x,
    n.input[0]? = some p → HasShape resultLength nodes (externalShapes start) p x →
      ProperAxes x n.dimensions

/-- What the variables hold after the nodes `done`. -/
structure Executing (nodes : List ShapedNode) (start : Variables) (done : List ShapedNode)
    (s : Variables) : Prop where
  left : ∀ n ∈ done, ∃ z, s (n.id, 0) = some (some z) ∧
    HasShape resultLength nodes (externalShapes start) (n.id, 0) z.shape
  pending : ∀ n ∈ nodes, n ∉ done → s (n.id, 0) = some none
  nodes_only : ∀ p : Int × Int, 0 ≤ p.1 → ∀ z, (s p).join = some z → ∃ n ∈ done, p = (n.id, 0)
  external : ∀ p : Int × Int, p.1 < 0 → ∀ x, (start p).join = some x → s p = some (some x)

namespace ShapedNode

/-- What the outputs are handed changes external variables without an array only. -/
structure Announced (s t : Variables) : Prop where
  internal : ∀ p : Int × Int, 0 ≤ p.1 → t p = s p
  kept : ∀ p x, s p = some (some x) → t p = some (some x)

theorem Announced.refl (s : Variables) : Announced s s :=
  ⟨fun _ _ => rfl, fun _ _ h => h⟩

variable {s t : Variables}

theorem Announced.trans {u : Variables} (h : Announced s t) (h' : Announced t u) : Announced s u :=
  ⟨fun p hp => (h'.internal p hp).trans (h.internal p hp),
    fun p x hx => h'.kept p x (h.kept p x hx)⟩

theorem announceTo_announced {z : ShapeInfo} {output : Int} (hneg : output < 0)
    (ht : announceTo z s output = some t) : Announced s t := by
  unfold announceTo at ht
  split at ht
  · exact absurd ht (by simp)
  · rename_i hempty
    rw [← Option.some.inj ht]
    constructor
    · intro p hp
      apply Function.update_of_ne
      rintro rfl
      exact absurd hneg (Int.not_lt.mpr hp)
    · intro p x hx
      rw [Function.update_of_ne, hx]
      rintro rfl
      rw [hempty] at hx
      exact absurd hx (by simp)
  · split at ht
    · exact absurd ht (by simp)
    · exact Option.some.inj ht ▸ Announced.refl s

/-- Behind the node's own variable, the announcements only fill external variables. -/
theorem announce_announced {skipped : Int → Bool} {node : ShapedNode} {z : ShapeInfo}
    (hskipped : ∀ e ∈ node.output, skipped e = false → e < 0)
    (ht : announce skipped node z s = some t) :
    Announced (Function.update s (node.id, 0) (some (some z))) t := by
  unfold announce at ht
  split at ht
  · refine @Runs.foldlM_invariant _ _ _
      (fun _ u => Announced (Function.update s (node.id, 0) (some (some z))) u) node.output ?_ _ _
      (Announced.refl _) ht
    intro done e rest u v hall hu hv
    have he : e ∈ node.output := hall ▸ List.mem_append_right _ (List.mem_cons_self ..)
    split at hv
    · exact Option.some.inj hv ▸ hu
    · rename_i hskip
      exact hu.trans (announceTo_announced (hskipped e he (Bool.eq_false_iff.mpr hskip)) hv)
  · exact Option.some.inj ht ▸ Announced.refl _

theorem neg_of_skips {node : ShapedNode} (hzero : 0 ∉ node.output) :
    ∀ e ∈ node.output, node.skips e = false → e < 0 := by
  intro e he hskip
  have hne : e ≠ 0 := fun h => hzero (h ▸ he)
  unfold skips at hskip
  split at hskip <;> simp only [decide_eq_false_iff_not] at hskip <;> omega

end ShapedNode

section Executed

variable {nodes done : List ShapedNode} {start : Variables}

theorem resultLength_pos {shape : List Nat} (hpos : ∀ d ∈ shape, 0 < d) (dimensions : List Nat) :
    0 < resultLength shape dimensions := by
  apply List.prod_pos
  intro d hd
  obtain ⟨q, hq, rfl⟩ := List.mem_map.mp (List.mem_of_mem_take hd)
  exact hpos q.1 (List.fst_mem_of_mem_zipIdx (List.mem_of_mem_filter hq))

variable {p : Int × Int} {s : Variables}

/-- All shapes have positive extents and not too many of them. -/
theorem HasShape.valid {external : Int × Int → Option (List Nat)}
    (hexternal : ∀ p shape, external p = some shape →
      (∀ d ∈ shape, 0 < d) ∧ shape.length ≤ maxDimension) {shape : List Nat}
    (h : HasShape resultLength nodes external p shape) :
    (∀ d ∈ shape, 0 < d) ∧ shape.length ≤ maxDimension := by
  induction h with
  | external _ hshape => exact hexternal _ _ hshape
  | elementwise _ _ _ _ ih => exact ih
  | whole => exact ⟨by simp, by decide⟩
  | along _ _ _ _ _ ih => exact ⟨by simp [resultLength_pos ih.1], by simp [maxDimension]⟩

theorem Executable.valid (h : Executable nodes start) {x : ShapeInfo}
    (hx : HasShape resultLength nodes (externalShapes start) p x.shape) :
    x.Positive ∧ x.rank ≤ maxDimension := by
  apply HasShape.valid _ hx
  intro q shape hshape
  obtain ⟨info, hinfo, rfl⟩ := Option.map_eq_some_iff.mp hshape
  exact h.shapes q info hinfo

namespace ShapedNode

variable {x : ShapeInfo}

theorem toList_of_toDimensions {dimensions : List Nat} {dimension : Dimensions x.rank}
    (h : toDimensions x dimensions = some dimension) : dimension.toList = dimensions := by
  unfold toDimensions at h
  split at h
  · exact Option.some.inj h ▸ rfl
  · exact absurd h (by simp)

/-- The number of tensors along proper axes is the product of the other extents. -/
theorem numTads_eq_resultLength (hpos : x.Positive) (hmax : x.rank ≤ maxDimension)
    {dimension : Dimensions x.rank} (hproper : dimension.toList.length < x.rank) {tad : ShapeInfo}
    (htad : (TAD.init x dimension).shapeInfoOnlyShapeAndStride = some tad) :
    x.length / tad.length = resultLength x.shape dimension.toList := by
  have hrank : 2 ≤ x.rank := by
    have hlen := List.length_pos_of_ne_nil dimension.ne_nil
    omega
  obtain ⟨ret, hret, hlength⟩ :=
    @length_shapeInfoOnlyShapeAndStride (TAD.init x dimension) hpos hrank hmax hproper
  obtain rfl : ret = tad := Option.some.inj (hret.symm.trans htad)
  have hnum : x.length / (TAD.init x dimension).tadLength =
      Strided.volume (TAD.init x dimension).leftOver := numTads_init hpos
  rw [hlength, hnum, resultLength, removeIndex_eq_leftOver dimension rfl, Strided.volume,
    TAD.dims_leftOver]
  rfl

theorem shape_rowShapeInfo (columns : Nat) : (rowShapeInfo columns).shape = [1, columns] :=
  shape_shapeBuffer [1, columns]

/-- A node whose variable has no array leaves one of a shape by the rules. -/
theorem hasShape_outputShapeInfo (h : Executable nodes start) {node : ShapedNode}
    (hnode : node ∈ nodes) {p : Int × Int} {z : ShapeInfo} (hp : node.input[0]? = some p)
    (hx : HasShape resultLength nodes (externalShapes start) p x.shape)
    {mapped : Int → Option ShapedNode} (hz : outputShapeInfo mapped node p x none = some z) :
    HasShape resultLength nodes (externalShapes start) (node.id, 0) z.shape := by
  have hkept : node.opType ≠ .accumulation → z = x →
      HasShape resultLength nodes (externalShapes start) (node.id, 0) z.shape := by
    rintro htype rfl
    exact .elementwise hnode htype hp hx
  unfold outputShapeInfo at hz
  split at hz
  · rename_i htype
    apply hkept (by rw [htype]; decide)
    split at hz
    · obtain ⟨-, -, rfl⟩ := Option.map_eq_some_iff.mp hz
      rfl
    · exact (Option.some.inj hz).symm
  · rename_i htype
    apply hkept (by rw [htype]; decide)
    obtain ⟨shared, -, rfl⟩ := Option.map_eq_some_iff.mp hz
    cases shared <;> rfl
  · rename_i htype
    split at hz
    · exact absurd hz (by simp)
    · split at hz
      · rename_i hscalar
        rw [← Option.some.inj hz, Option.getD_none, shape_rowShapeInfo]
        exact .whole hnode htype hscalar
      · rename_i hscalar
        have hscalar := Bool.eq_false_iff.mpr hscalar
        obtain ⟨dimension, hdimension, hz⟩ := Option.bind_eq_some_iff.mp hz
        obtain ⟨tad, htad, hz⟩ := Option.bind_eq_some_iff.mp hz
        have hlist := toList_of_toDimensions hdimension
        obtain ⟨hpos, hmax⟩ := h.valid hx
        have haxes := h.axes node hnode htype hscalar p x.shape hp hx
        have hnum := numTads_eq_resultLength hpos hmax (hlist ▸ haxes.proper) htad
        rw [← Option.some.inj hz, shape_rowShapeInfo, hnum, hlist]
        exact .along hnode htype hscalar hp hx

end ShapedNode

variable (h : Executable nodes start)

include h

/-- An input that has an array has a shape by the rules. -/
theorem Executing.hasShape_input (hs : Executing nodes start done s) {node : ShapedNode}
    (hnode : node ∈ nodes) (hp : node.input[0]? = some p) {x : ShapeInfo}
    (hx : (s p).join = some x) : HasShape resultLength nodes (externalShapes start) p x.shape := by
  by_cases hneg : p.1 < 0
  · obtain ⟨y, hy⟩ := Option.isSome_iff_exists.mp
      (h.external node hnode p (List.mem_of_getElem? hp) hneg)
    have hsame := hs.external p hneg y hy
    rw [hsame, Option.join_some, Option.some.injEq] at hx
    exact .external hneg (by rw [externalShapes, hy, Option.map_some, hx])
  · obtain ⟨n, hn, rfl⟩ := hs.nodes_only p (Int.not_lt.mp hneg) x hx
    obtain ⟨z, hz, hshape⟩ := hs.left n hn
    rw [hz, Option.join_some, Option.some.injEq] at hx
    exact hx ▸ hshape

/-- One node more is executed. -/
theorem Executing.step {t : Variables} (hs : Executing nodes start done s) {node : ShapedNode}
    {rest : List ShapedNode} (hall : nodes = done ++ node :: rest)
    {mapped : Int → Option ShapedNode} (ht : ShapedNode.executeFlatNode mapped s node = some t) :
    Executing nodes start (done ++ [node]) t := by
  have hnode : node ∈ nodes := hall ▸ List.mem_append_right _ (List.mem_cons_self ..)
  have hids := h.numbered.ids
  rw [hall, List.map_append, List.map_cons] at hids
  have hnew : ∀ n ∈ done, n.id ≠ node.id := fun n hn hid =>
    (List.nodup_append.mp hids).2.2 _ (List.mem_map_of_mem hn) _ (List.mem_cons_self ..) hid
  have hpending : s (node.id, 0) = some none :=
    hs.pending node hnode fun hmem => hnew node hmem rfl
  obtain ⟨p, hp, ht⟩ := Option.bind_eq_some_iff.mp ht
  obtain ⟨x, hx, ht⟩ := Option.bind_eq_some_iff.mp ht
  obtain ⟨z, hz, ht⟩ := Option.bind_eq_some_iff.mp ht
  obtain rfl : none = z := Option.some.inj (hpending.symm.trans hz)
  obtain ⟨newZ, hnewZ, ht⟩ := Option.bind_eq_some_iff.mp ht
  have hshape := ShapedNode.hasShape_outputShapeInfo h hnode hp
    (hs.hasShape_input h hnode hp hx) hnewZ
  have hannounced :=
    ShapedNode.announce_announced (ShapedNode.neg_of_skips (h.nonzero node hnode)) ht
  have hown : t (node.id, 0) = some (some newZ) :=
    hannounced.kept _ _ (Function.update_self ..)
  have hother : ∀ p : Int × Int, 0 ≤ p.1 → p ≠ (node.id, 0) → t p = s p := fun p hpos hne =>
    (hannounced.internal p hpos).trans (Function.update_of_ne hne _ _)
  refine ⟨?_, ?_, ?_, ?_⟩
  · intro n hn
    rcases List.mem_append.mp hn with hn | hn
    · obtain ⟨y, hy, hyshape⟩ := hs.left n hn
      refine ⟨y, ?_, hyshape⟩
      have hmem : n ∈ nodes := hall ▸ List.mem_append_left _ hn
      rw [hother (n.id, 0) (h.numbered.positive n hmem).le
        fun hpair => hnew n hn (congrArg Prod.fst hpair), hy]
    · obtain rfl := List.mem_singleton.mp hn
      exact ⟨newZ, hown, hshape⟩
  · intro n hn hout
    rw [List.mem_append, List.mem_singleton, not_or] at hout
    rw [hother (n.id, 0) (h.numbered.positive n hn).le
      fun hpair => hout.2 (h.numbered.eq_of_pair hn hnode hpair)]
    exact hs.pending n hn hout.1
  · intro q hq y hy
    by_cases hpair : q = (node.id, 0)
    · exact ⟨node, List.mem_append_right _ (List.mem_singleton_self _), hpair⟩
    · rw [hother q hq hpair] at hy
      obtain ⟨n, hn, hpair⟩ := hs.nodes_only q hq y hy
      exact ⟨n, List.mem_append_left _ hn, hpair⟩
  · intro q hq y hy
    apply hannounced.kept
    rw [Function.update_of_ne, hs.external q hq y hy]
    rintro rfl
    exact absurd hq (Int.not_lt.mpr (h.numbered.positive node hnode).le)

/-- The execution follows the rules, with the product of the other extents for a reduction. -/
theorem execute_hasShape (hs : ShapedNode.execute nodes start = some s) :
    Executing nodes start nodes s := by
  have hstart : Executing nodes start [] start := by
    refine ⟨by simp, fun n hn _ => h.empty n hn, ?_, ?_⟩
    · intro p hp z hz
      rw [h.external_only p hp] at hz
      exact absurd hz (by simp)
    · intro p _ x hx
      exact Option.join_eq_some_iff.mp hx
  exact @Runs.foldlM_invariant _ _ _ (Executing nodes start) nodes
    (fun _ _ _ _ _ hall hs ht => hs.step h hall ht) _ _ hstart hs

end Executed

/-! ## When the estimate is right -/

section Sums

variable {α : Type} {p q : α → Bool} {f : α → Nat}

theorem sum_filter_le {l : List α} (hpq : ∀ a ∈ l, q a = true → p a = true) :
    ((l.filter q).map f).sum ≤ ((l.filter p).map f).sum := by
  induction l with
  | nil => exact Nat.le_refl _
  | cons a l ih =>
      have hrest := ih fun b hb => hpq b (List.mem_cons_of_mem _ hb)
      have ha := hpq a (List.mem_cons_self ..)
      cases hq : q a <;> cases hp : p a <;> simp [hq, hp] at ha ⊢ <;> omega

/-- Leaving out elements of positive weight changes the sum. -/
theorem sum_filter_eq_iff {l : List α} (hpq : ∀ a ∈ l, q a = true → p a = true)
    (hpos : ∀ a ∈ l, 0 < f a) :
    ((l.filter p).map f).sum = ((l.filter q).map f).sum ↔ ∀ a ∈ l, p a = true → q a = true := by
  induction l with
  | nil => simp
  | cons a l ih =>
      have hrest := ih (fun b hb => hpq b (List.mem_cons_of_mem _ hb))
        fun b hb => hpos b (List.mem_cons_of_mem _ hb)
      have hle := @sum_filter_le _ p q f l fun b hb => hpq b (List.mem_cons_of_mem _ hb)
      have ha := hpq a (List.mem_cons_self ..)
      have hweight := hpos a (List.mem_cons_self ..)
      rw [List.forall_mem_cons, ← hrest]
      cases hq : q a <;> cases hp : p a <;> simp [hq, hp] at ha ⊢
      all_goals omega

end Sums

/-- The length of the array of a node's variable. -/
def outputLength (s : Variables) (node : ShapedNode) : Nat :=
  ((s (node.id, 0)).join.map ShapeInfo.length).getD 0

/-- The estimate of a run: every recorded length is that of the array that is left, and the
result is the size of the outputs that are not in place. -/
structure Estimates (sizeofT : Nat) (nodes : List ShapedNode) (s : Variables) (e : Estimate) :
    Prop where
  lengths : ∀ n ∈ nodes, ∃ z, s (n.id, 0) = some (some z) ∧
    e.shapesMap[(n.id, (0 : Int))]?.map ShapeInfo.length = some z.length
  result : e.result = ((nodes.filter fun n => !n.isInplace).map (outputLength s)).sum * sizeofT

section Main

variable {sizeofT : Nat} {nodes : List ShapedNode} {start s : Variables} {e : Estimate}

/-- The estimate comes to an end when the execution does. -/
theorem estimate_isSome (h : Executable nodes start)
    (hs : ShapedNode.execute nodes start = some s) :
    ∃ e, estimateRequiredMemory sizeofT start nodes = some e := by
  have hrun : ∀ rest done u e, nodes = done ++ rest → Executing nodes start done u →
      Estimating sizeofT nodes start done e →
      rest.foldlM (ShapedNode.executeFlatNode (ShapedNode.mappedIn nodes)) u = some s →
      ∃ e', rest.foldlM (estimateNode sizeofT start) e = some e' := by
    intro rest
    induction rest with
    | nil => exact fun _ _ e _ _ _ _ => ⟨e, rfl⟩
    | cons node rest ih =>
        intro done u e hall hu he hrest
        rw [List.foldlM_cons] at hrest
        obtain ⟨t, ht, hrest⟩ := Option.bind_eq_some_iff.mp hrest
        have hnode : node ∈ nodes := hall ▸ List.mem_append_right _ (List.mem_cons_self ..)
        -- the input that the execution reads is recorded, or an external array
        obtain ⟨x, hx⟩ : ∃ x, node.input[0]?.bind (e.inputShape start) = some x := by
          obtain ⟨p, hp, hread⟩ := Option.bind_eq_some_iff.mp ht
          obtain ⟨y, hy, -⟩ := Option.bind_eq_some_iff.mp hread
          rw [hp, Option.bind_some]
          unfold Estimate.inputShape
          split
          · rename_i hneg
            exact Option.isSome_iff_exists.mp
              (h.external node hnode p (List.mem_of_getElem? hp) hneg)
          · rename_i hneg
            obtain ⟨n, hn, rfl⟩ := hu.nodes_only p (Int.not_lt.mp hneg) y hy
            obtain ⟨x, hx, -⟩ := he.recorded n hn
            exact ⟨x, hx⟩
        obtain ⟨newShape, hnew⟩ : ∃ newShape, e.newShape start node = some newShape := by
          unfold Estimate.newShape
          rw [hx]
          cases node.opType with
          | transform => exact ⟨x, rfl⟩
          | scalar => exact ⟨x, rfl⟩
          | accumulation => cases node.reducesToScalar <;> exact ⟨_, rfl⟩
        have hestimate : ∃ e', estimateNode sizeofT start e node = some e' := by
          rw [estimateNode, hnew]
          exact ⟨_, rfl⟩
        obtain ⟨e', he'⟩ := hestimate
        rw [List.foldlM_cons, he']
        exact ih (done ++ [node]) t e' (by rw [hall, List.append_assoc, List.singleton_append])
          (hu.step h hall ht) (he.step h.numbered hall he') hrest
  refine hrun nodes [] start ⟨∅, 0⟩ rfl ?_ ⟨by simp, by simp, by simp⟩ hs
  refine ⟨by simp, fun n hn _ => h.empty n hn, ?_, fun p _ x hx => Option.join_eq_some_iff.mp hx⟩
  intro p hp z hz
  rw [h.external_only p hp] at hz
  exact absurd hz (by simp)

/-- All recorded lengths are right exactly when every reduction along dimensions takes as many
elements together as it leaves. -/
theorem lengths_iff (h : Executable nodes start) (hs : Executing nodes start nodes s)
    (he : Estimating sizeofT nodes start nodes e) :
    (∀ n ∈ nodes, e.length n = outputLength s n) ↔
      ∀ n ∈ nodes, n.opType = .accumulation → n.reducesToScalar = false → ∀ p x,
        n.input[0]? = some p → HasShape resultLength nodes (externalShapes start) p x →
          tadLength x n.dimensions = resultLength x n.dimensions := by
  rw [← hasShape_agree_iff h.numbered]
  apply forall₂_congr
  intro n hn
  obtain ⟨x, hx, hxshape⟩ := he.recorded n hn
  obtain ⟨z, hz, hzshape⟩ := hs.left n hn
  have hlengths : e.length n = outputLength s n ↔ x.shape.prod = z.shape.prod := by
    rw [Estimate.length, outputLength, hx, hz]
    exact Iff.rfl
  rw [hlengths]
  constructor
  · intro hprod a b ha hb
    rw [ha.unique h.numbered hxshape, hb.unique h.numbered hzshape, hprod]
  · intro hall
    exact hall _ _ hxshape hzshape

end Main

/-- The sum of a row of five elements, along its second dimension. -/
def rowSum : ShapedNode where
  id := 1
  input := [(-1, 0)]
  output := [1]
  hasExternalInputs := true
  hasExternalOutputs := true
  opType := .accumulation
  dimensions := [1]

/-- The row is the external variable -1. -/
def rowVariables : Variables := fun p =>
  if p = (-1, 0) then some (some (ShapedNode.rowShapeInfo 5))
  else if p = (1, 0) then some none
  else none

theorem executable_rowSum : Executable [rowSum] rowVariables where
  numbered := ⟨by decide, by decide⟩
  nonzero := by decide
  empty := by decide
  external_only := by
    intro p hp
    have hrow : p ≠ (-1, 0) := by
      rintro rfl
      exact absurd hp (by decide)
    simp only [rowVariables, if_neg hrow]
    split <;> rfl
  external := by decide
  shapes := by
    intro p x hx
    simp only [rowVariables] at hx
    split at hx
    · rw [← Option.some.inj hx]
      exact ⟨by decide, by decide⟩
    · split at hx <;> exact absurd hx (by simp)
  axes := by
    intro n hn _ _ p x hp hx
    obtain rfl := List.mem_singleton.mp hn
    obtain rfl : (-1, 0) = p := Option.some.inj hp
    rcases hx.cases_node with ⟨-, hshape⟩ | ⟨m, hm, hpair, -⟩
    · obtain rfl : [1, 5] = x := Option.some.inj hshape
      exact ⟨by decide, by decide, by decide⟩
    · obtain rfl := List.mem_singleton.mp hm
      exact absurd hpair (by decide)

end Graph
end LibND4J
