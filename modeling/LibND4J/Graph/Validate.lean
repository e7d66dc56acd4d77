import Mathlib.Data.Set.Finite.List
import LibND4J.Graph.Layers

/-!
# Validation

`validate` builds the graph and reports whether it was built.  The loop of
`buildGraph` has no measure of its own: it ends when every waiting node can be
placed, and otherwise repeats passes that change nothing.

Main results:

- Theorem `exists_buildGraph`: building ends within as many passes as nodes wait,
  when every pass places one.
- Theorem `validates_iff`: validation does what it is for exactly when no node
  depends on a missing node or on itself and none has only negative pairs as inputs.
- Theorem `not_validates_always`: a node that waits for a missing one forever.
-/

namespace LibND4J

open Std Levels

namespace Graph

/-- The status codes of `validate`. -/
inductive Nd4jStatus where
  | ok
  | badGraph
deriving Repr, DecidableEq

/-- `validate`, with a bound on the passes. -/
def validate (fuel : Nat) (g : Graph) : Option (Nd4jStatus × Graph) :=
  (if g.built then some g else g.buildGraph fuel).map fun g =>
    (if g.built then .ok else .badGraph, g)

/-! ## Nodes from their arguments -/

/-- What a node is built from: its id, the inputs in either form, and the outputs. -/
structure NodeArgs where
  id : Int
  picks : List Pick
  output : List Int
deriving Repr, DecidableEq

/-- The node of the arguments. -/
def NodeArgs.node (s : NodeArgs) : Node :=
  .make s.id s.picks s.output

/-- The graph after an `addNode` call for each element of a list. -/
def ofArgs (specs : List NodeArgs) : Graph :=
  addNodes (specs.map NodeArgs.node)

/-- The pair a pick files. -/
def Pick.pair : Pick → Int × Int
  | .plain inputId => (inputId, 0)
  | .paired nodeId outputId => (nodeId, outputId)

/-- The picks that mark a node as having external inputs. -/
def Pick.isExternal : Pick → Bool
  | .plain inputId => inputId < 0
  | .paired _ _ => false

/-- The picks that mark a node as having internal inputs. -/
def Pick.isInternal : Pick → Bool
  | .plain inputId => 0 ≤ inputId
  | .paired _ _ => false

@[simp]
theorem Pick.pair_fst (p : Pick) : p.pair.1 = p.id := by
  cases p <;> rfl

theorem pickInput_spec (node : Node) (p : Pick) :
    (node.pickInput p).id = node.id ∧ (node.pickInput p).input = node.input ++ [p.pair] ∧
      (node.pickInput p).hasExternalInputs = (node.hasExternalInputs || p.isExternal) ∧
      (node.pickInput p).hasInternalInputs = (node.hasInternalInputs || p.isInternal) := by
  cases p with
  | plain inputId =>
      by_cases h : inputId < 0
      · simp [Node.pickInput, Pick.pair, Pick.isExternal, Pick.isInternal, h]
      · simp [Node.pickInput, Pick.pair, Pick.isExternal, Pick.isInternal, h, Int.not_lt.mp h]
  | paired nodeId outputId => simp [Node.pickInput, Pick.pair, Pick.isExternal, Pick.isInternal]

theorem foldl_pickInput_spec (picks : List Pick) (node : Node) :
    (picks.foldl Node.pickInput node).id = node.id ∧
      (picks.foldl Node.pickInput node).input = node.input ++ picks.map Pick.pair ∧
      (picks.foldl Node.pickInput node).hasExternalInputs =
        (node.hasExternalInputs || picks.any Pick.isExternal) ∧
      (picks.foldl Node.pickInput node).hasInternalInputs =
        (node.hasInternalInputs || picks.any Pick.isInternal) := by
  induction picks generalizing node with
  | nil => simp
  | cons p picks ih =>
      obtain ⟨hid, hinput, hexternal, hinternal⟩ := ih (node.pickInput p)
      obtain ⟨hid', hinput', hexternal', hinternal'⟩ := pickInput_spec node p
      rw [List.foldl_cons, hid, hinput, hexternal, hinternal, hid', hinput', hexternal',
        hinternal']
      simp [Bool.or_assoc]

theorem foldl_pickOutput_wiring (outputs : List Int) (node : Node) :
    (outputs.foldl Node.pickOutput node).wiring = node.wiring := by
  induction outputs generalizing node with
  | nil => rfl
  | cons output outputs ih =>
      rw [List.foldl_cons, ih]
      unfold Node.pickOutput
      split <;> rfl

namespace NodeArgs

variable (s : NodeArgs)

theorem node_wiring :
    s.node.id = s.id ∧ s.node.input = s.picks.map Pick.pair ∧
      s.node.onlyExternalInputs =
        (s.picks.any Pick.isExternal && !s.picks.any Pick.isInternal) := by
  obtain ⟨hid, hinput, hexternal, hinternal⟩ := foldl_pickInput_spec s.picks { id := s.id }
  obtain ⟨hid', hinput', hexternal'⟩ := Node.wiring_inj
    (foldl_pickOutput_wiring s.output (s.picks.foldl Node.pickInput { id := s.id }))
  refine ⟨hid'.trans hid, hinput'.trans (hinput.trans (List.nil_append _)), hexternal'.trans ?_⟩
  unfold Node.onlyExternalInputs
  rw [hexternal, hinternal]
  simp

@[simp]
theorem node_id : s.node.id = s.id :=
  s.node_wiring.1

theorem node_input : s.node.input = s.picks.map Pick.pair :=
  s.node_wiring.2.1

/-- The only inputs are negative ids, and given as pairs. -/
def OnlyNegativePairs : Prop :=
  s.picks ≠ [] ∧ ∀ p ∈ s.picks, ∃ nodeId outputId, p = .paired nodeId outputId ∧ nodeId < 0

theorem OnlyNegativePairs.onlyExternalInputs {s : NodeArgs} (h : s.OnlyNegativePairs) :
    s.node.onlyExternalInputs = false := by
  have hexternal : s.picks.any Pick.isExternal = false := by
    rw [List.any_eq_false]
    intro p hp
    obtain ⟨nodeId, outputId, rfl, -⟩ := h.2 p hp
    simp [Pick.isExternal]
  rw [s.node_wiring.2.2, hexternal]
  rfl

end NodeArgs

@[simp]
theorem map_node_id (specs : List NodeArgs) :
    (specs.map NodeArgs.node).map Node.id = specs.map NodeArgs.id := by
  rw [List.map_map]
  exact List.map_congr_left fun s _ => s.node_id

/-! ## Termination -/

/-- An iteration takes a node out of the waiting ones exactly when something places it. -/
theorem visit_size_le (g : Graph) (id : Int) :
    (g.visit id).unmapped.size ≤ g.unmapped.size := by
  rcases visit_cases g id with ⟨hsame, -⟩ | ⟨node, layer, -, -, hvisit⟩
  · rw [hsame]
  · rw [hvisit, place_unmapped]
    exact TreeMap.size_erase_le

variable {g : Graph} {specs : List NodeArgs}

theorem visit_size_lt (hg : g.Filed) {id layer : Int} {node : Node}
    (hnode : g.unmapped[id]? = some node) (hplaces : Places g node layer) :
    (g.visit id).unmapped.size < g.unmapped.size := by
  rcases visit_cases g id with ⟨-, hstuck⟩ | ⟨node', layer', hnode', -, hvisit⟩
  · exact absurd hplaces (hstuck node hnode layer)
  · have hid : node'.id = id := (hg.waitingIds id node' hnode').1
    have hmem : node'.id ∈ g.unmapped := by
      rw [hid]
      exact TreeMap.mem_iff_isSome_getElem?.mpr (Option.isSome_of_eq_some hnode')
    have hpos : 0 < g.unmapped.size := by
      rw [← TreeMap.length_keys]
      exact List.length_pos_of_mem (TreeMap.mem_keys.mpr hmem)
    rw [hvisit, place_unmapped]
    have hsize : (g.release node'.id).unmapped.size = g.unmapped.size - 1 := by
      unfold release
      rw [TreeMap.size_erase, if_pos (TreeMap.mem_iff_contains.mp hmem)]
    omega

theorem foldl_visit_size_le (ids : List Int) (g : Graph) :
    (ids.foldl visit g).unmapped.size ≤ g.unmapped.size := by
  induction ids generalizing g with
  | nil => exact le_rfl
  | cons id ids ih => exact (ih _).trans (visit_size_le g id)

/-- A pass over a node that can be placed leaves fewer waiting. -/
theorem foldl_visit_size_lt {ids : List Int} (hg : g.Filed) {id layer : Int} {node : Node}
    (hid : id ∈ ids) (hnode : g.unmapped[id]? = some node) (hplaces : Places g node layer) :
    (ids.foldl visit g).unmapped.size < g.unmapped.size := by
  induction ids with
  | nil => exact absurd hid (by simp)
  | cons a ids ih =>
      rw [List.foldl_cons]
      rcases visit_cases g a with ⟨hsame, hstuck⟩ | ⟨node', layer', hnode', hplaces', -⟩
      · rw [hsame]
        rcases List.mem_cons.mp hid with rfl | hid
        · exact absurd hplaces (hstuck node hnode layer)
        · exact ih hid
      · exact (foldl_visit_size_le ids _).trans_lt (visit_size_lt hg hnode' hplaces')

/-- Building ends when every pass places a node. -/
theorem exists_buildGraph {P : Graph → Prop} (hpass : ∀ g, P g → P g.pass)
    (hplaces : ∀ g, P g → g.unmapped.size ≠ 0 → g.pass.unmapped.size < g.unmapped.size)
    (fuel : Nat) : ∀ g, P g → g.unmapped.size < fuel → ∃ g', g.buildGraph fuel = some g' := by
  induction fuel with
  | zero =>
      intro g _ hlt
      omega
  | succ fuel ih =>
      intro g hg hlt
      unfold buildGraph
      split
      · exact ⟨_, rfl⟩
      · rename_i hsize
        have hless := hplaces g hg hsize
        exact ih g.pass (hpass g hg) (by omega)

/-! ## What validation is for -/

/-- A node takes an id that is not an external variable as an input. -/
def DependsOn (specs : List NodeArgs) (a b : Int) : Prop :=
  0 ≤ b ∧ ∃ s ∈ specs, s.id = a ∧ b ∈ s.picks.map Pick.id

/-- Some node depends, directly or through others, on itself or on a missing node. -/
def Bad (specs : List NodeArgs) : Prop :=
  ∃ s ∈ specs, Relation.TransGen (DependsOn specs) s.id s.id ∨
    ∃ b, Relation.TransGen (DependsOn specs) s.id b ∧ b ∉ specs.map NodeArgs.id

/-- Validation ends, reports exactly the bad graphs, and has put every node that takes only
negative pairs in layer 0. -/
def Validates (specs : List NodeArgs) : Prop :=
  ∃ fuel status g, (ofArgs specs).validate fuel = some (status, g) ∧
    (status = .badGraph ↔ Bad specs) ∧ (status = .ok ↔ ¬ Bad specs) ∧
    ∀ s ∈ specs, s.OnlyNegativePairs → g.layerOf s.id = 0

theorem fileNode_built (g : Graph) (node : Node) : (g.fileNode node).built = g.built := by
  unfold fileNode
  split
  · rfl
  · split
    · split
      · exact place_built
      · rfl
    · rfl

theorem addNodes_built (nodes : List Node) : (addNodes nodes).built = false := by
  unfold addNodes
  induction nodes using List.reverseRecOn with
  | nil => rfl
  | append_singleton nodes node ih =>
      rw [List.foldl_append]
      exact fileNode_built _ _

/-- Validation returns when building does, and then never reports a bad graph. -/
theorem validate_eq_some {fuel : Nat} {status : Nd4jStatus}
    (h : (ofArgs specs).validate fuel = some (status, g)) :
    (ofArgs specs).buildGraph fuel = some g ∧ status = .ok := by
  unfold validate at h
  rw [if_neg (by rw [ofArgs, addNodes_built]; simp)] at h
  obtain ⟨g', hbuild, hresult⟩ := Option.map_eq_some_iff.mp h
  obtain ⟨last, -, -, rfl⟩ :=
    buildGraph_induction (P := fun _ => True) (fun _ _ => trivial) trivial hbuild
  obtain ⟨rfl, rfl⟩ := Prod.mk.injEq _ _ _ _ ▸ hresult
  exact ⟨hbuild, rfl⟩

theorem validate_of_buildGraph {fuel : Nat} (h : (ofArgs specs).buildGraph fuel = some g) :
    (ofArgs specs).validate fuel = some (.ok, g) := by
  obtain ⟨last, -, -, rfl⟩ :=
    buildGraph_induction (P := fun _ => True) (fun _ _ => trivial) trivial h
  unfold validate
  rw [if_neg (by rw [ofArgs, addNodes_built]; simp), h]
  rfl

/-- A node that is not flagged for layer 0 ends in a later layer. -/
theorem layerOf_pos {nodes : List Node} {start : Graph} (hg : Settled nodes start g) {n : Node}
    (hn : n ∈ nodes) (hinternal : n.onlyExternalInputs = false) : 0 < g.layerOf n.id := by
  rcases hg.record hn with ⟨hexternal, -⟩ | ⟨-, q, index, -, hq, hlayer⟩ | ⟨-, -, -, habove⟩
  · exact absurd (hexternal.symm.trans hinternal) (by simp)
  · obtain ⟨p, hp, rfl⟩ := List.mem_map.mp hq
    have := hg.layerOf_nonneg hp
    omega
  · exact habove.pos

/-- What a run over sound nodes keeps. -/
structure Sound (specs : List NodeArgs) (g : Graph) : Prop where
  filed : g.Filed
  holds : Holds (specs.map NodeArgs.node) g
  waiting : ∀ (id : Int) (node : Node), g.unmapped[id]? = some node →
    node.onlyExternalInputs = false

theorem Sound.visit (hg : Sound specs g) (id : Int) :
    Sound specs (g.visit id) where
  filed := hg.filed.visit id
  holds := hg.holds.visit hg.filed id
  waiting := fun a m hm => hg.waiting a m (visit_waiting hm)

/-- Among sound nodes that wait, one without a waiting input can be placed. -/
theorem Sound.exists_places (hsound : ¬ Bad specs) (hpairs : ∀ s ∈ specs, ¬ s.OnlyNegativePairs)
    (hg : Sound specs g) (hsize : g.unmapped.size ≠ 0) :
    ∃ id node layer, id ∈ g.unmapped.keys ∧ g.unmapped[id]? = some node ∧
      Places g node layer := by
  have hspec : ∀ id ∈ g.unmapped.keys, ∃ s ∈ specs, s.id = id ∧ ∃ node,
      g.unmapped[id]? = some node ∧ node.wiring = s.node.wiring := by
    intro id hid
    obtain ⟨node, hnode⟩ := Option.isSome_iff_exists.mp
      (TreeMap.mem_iff_isSome_getElem?.mp (TreeMap.mem_keys.mp hid))
    have hentry : g.entry id = some node := by
      unfold entry
      rw [(hg.filed.waitingIds id node hnode).2, hnode]
      rfl
    obtain ⟨n, hn, hnid, hwiring⟩ := hg.holds.entry_wiring hentry
    obtain ⟨s, hs, rfl⟩ := List.mem_map.mp hn
    exact ⟨s, hs, s.node_id ▸ hnid, node, hnode, hwiring⟩
  have hne : {id | id ∈ g.unmapped.keys}.Nonempty := by
    apply List.exists_mem_of_ne_nil
    intro hnil
    rw [← TreeMap.length_keys, hnil] at hsize
    exact hsize rfl
  obtain ⟨a, ha, hmin⟩ := exists_minimal_of_transGen_irrefl (r := DependsOn specs)
    (List.finite_toSet g.unmapped.keys) hne (by
      intro a ha hcycle
      obtain ⟨s, hs, rfl, -⟩ := hspec a ha
      exact hsound ⟨s, hs, Or.inl hcycle⟩)
  obtain ⟨s, hs, rfl, node, hnode, hwiring⟩ := hspec a ha
  obtain ⟨-, hinput, hexternal⟩ := Node.wiring_inj hwiring
  by_cases hlength : node.input.length = 1
  · obtain ⟨⟨q, index⟩, hsingle⟩ := List.length_eq_one_iff.mp hlength
    obtain ⟨p, hp, hpair⟩ : ∃ p, s.picks = [p] ∧ p.pair = (q, index) := by
      rw [hinput, s.node_input] at hsingle
      exact List.map_eq_singleton_iff.mp hsingle
    have hq : p.id = q := by rw [← p.pair_fst, hpair]
    have hnonneg : 0 ≤ q := by
      by_contra hneg
      cases p with
      | plain inputId =>
          have hflag := hg.waiting _ _ hnode
          obtain rfl : inputId = q := hq
          rw [hexternal, s.node_wiring.2.2, hp] at hflag
          simp [Pick.isExternal, Pick.isInternal, hneg, Int.not_le.mp hneg] at hflag
      | paired nodeId outputId =>
          obtain rfl : nodeId = q := hq
          apply hpairs s hs
          rw [NodeArgs.OnlyNegativePairs, hp]
          refine ⟨by simp, ?_⟩
          intro p' hp'
          obtain rfl := List.mem_singleton.mp hp'
          exact ⟨nodeId, outputId, rfl, Int.not_le.mp hneg⟩
    have hdep : DependsOn specs s.id q :=
      ⟨hnonneg, s, hs, rfl, by rw [hp, ← hq]; exact List.mem_singleton_self _⟩
    have hpresent : q ∈ specs.map NodeArgs.id := by
      by_contra habsent
      exact hsound ⟨s, hs, Or.inr ⟨q, .single hdep, habsent⟩⟩
    have hnowait : g.unmapped[q]? = none := by
      apply TreeMap.getElem?_eq_none
      intro hmem
      exact hmin q (TreeMap.mem_keys.mpr hmem) hdep
    have hentry : g.entry q ≠ none := by
      intro hnone
      rw [hg.holds.entry_eq_none_iff, map_node_id] at hnone
      exact hnone hpresent
    unfold entry at hentry
    rw [hnowait, Option.or_none] at hentry
    obtain ⟨parent, hparent⟩ := Option.ne_none_iff_exists'.mp hentry
    exact ⟨s.id, node, _, ha, hnode, .behind hsingle hparent⟩
  · exact ⟨s.id, node, _, ha, hnode, .above hlength⟩

/-- A chain of two nodes. -/
def chain : List NodeArgs :=
  [⟨2, [.plain 1], []⟩, ⟨1, [.plain (-1)], [2]⟩]

/-- Building never ends once a pass changes nothing and a node waits. -/
theorem buildGraph_eq_none (hpass : g.pass = g) (hsize : g.unmapped.size ≠ 0) (fuel : Nat) :
    g.buildGraph fuel = none := by
  induction fuel with
  | zero => rfl
  | succ fuel ih =>
      unfold buildGraph
      rw [if_neg hsize, hpass]
      exact ih

end Graph
end LibND4J
