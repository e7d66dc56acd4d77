import LibND4J.Library.OrderedMap
import LibND4J.Library.Levels

/-!
# The onion of a graph

A graph files its nodes in layers.  `addNode` places a node at once when only its
flags or its single input decide the layer, and keeps the others waiting;
`buildGraph` passes over the waiting nodes in the order of their ids until none
is left.

Main results:

- Theorem `addNode_cases`: what one call of `addNode` can do.
- Theorem `visit_cases`: what one step of a pass can do.
- Theorem `Filed.addNode` and theorem `Filed.visit`: the layers stay
  consecutive and hold every mapped node once, in the layer it reports.
-/

namespace LibND4J

open Std OrderedMap Levels

namespace Graph

/-! ## Nodes -/

/-- The arguments of the overloads of `pickInput`. -/
inductive Pick where
  | plain (inputId : Int)
  | paired (nodeId outputId : Int)
deriving Repr, DecidableEq

/-- The node id a pick names. -/
def Pick.id : Pick → Int
  | .plain inputId => inputId
  | .paired nodeId _ => nodeId

/-- The fields of a `Node` that decide its layer. -/
structure Node where
  id : Int
  input : List (Int × Int) := []
  output : List Int := []
  hasExternalOutputs : Bool := false
  hasExternalInputs : Bool := false
  hasInternalOutputs : Bool := false
  hasInternalInputs : Bool := false
  layer : Int := -1
deriving Repr, DecidableEq

namespace Node

def setLayer (node : Node) (layer : Int) : Node :=
  { node with layer := layer }

/-- `pickInput`: the overloads with an output index leave the flags alone. -/
def pickInput (node : Node) : Pick → Node
  | .paired nodeId outputId => { node with input := node.input ++ [(nodeId, outputId)] }
  | .plain inputId =>
      if inputId < 0 then
        { node with input := node.input ++ [(inputId, 0)], hasExternalInputs := true }
      else
        { node with input := node.input ++ [(inputId, 0)], hasInternalInputs := true }

def pickExternalOutput (node : Node) (outputId : Int) : Node :=
  { node with output := node.output ++ [outputId], hasExternalOutputs := true }

def pickOutput (node : Node) (outputId : Int) : Node :=
  if outputId < 0 then
    { node with output := node.output ++ [outputId], hasExternalOutputs := true }
  else
    { node with output := node.output ++ [outputId], hasInternalOutputs := true }

/-- The constructors: pick the inputs, then the outputs. -/
def make (id : Int) (picks : List Pick) (outputs : List Int) : Node :=
  outputs.foldl pickOutput (picks.foldl pickInput { id := id })

/-- The test of `addNode` for the first layer. -/
def onlyExternalInputs (node : Node) : Bool :=
  node.hasExternalInputs && !node.hasInternalInputs

/-- The node ids among the inputs. -/
def inputIds (node : Node) : List Int :=
  node.input.map Prod.fst

/-- What a graph never changes about a node it holds. -/
def wiring (node : Node) : Int × List (Int × Int) × Bool :=
  (node.id, node.input, node.onlyExternalInputs)

theorem wiring_inj {m n : Node} (h : m.wiring = n.wiring) :
    m.id = n.id ∧ m.input = n.input ∧ m.onlyExternalInputs = n.onlyExternalInputs := by
  simp only [wiring, Prod.mk.injEq] at h
  exact h

@[simp]
theorem wiring_setLayer (node : Node) (layer : Int) :
    (node.setLayer layer).wiring = node.wiring :=
  rfl

@[simp]
theorem setLayer_layer (node : Node) (layer : Int) : (node.setLayer layer).layer = layer :=
  rfl

@[simp]
theorem setLayer_id (node : Node) (layer : Int) : (node.setLayer layer).id = node.id :=
  rfl

end Node

end Graph

/-! ## Graphs -/

/-- The containers that hold the nodes of a graph. -/
structure Graph where
  mapped : TreeMap Int Graph.Node
  unmapped : TreeMap Int Graph.Node
  onion : TreeMap Int (List Graph.Node)
  built : Bool

namespace Graph

/-- A graph without nodes has layer 0. -/
def empty : Graph where
  mapped := ∅
  unmapped := ∅
  onion := (∅ : TreeMap Int (List Node)).insertIfNew 0 []
  built := false

def expandOnion (g : Graph) (newLayer : Int) : Graph :=
  { g with onion := g.onion.insertIfNew newLayer [] }

/-- `injectNode`: append to the layer the node reports and map the id. -/
def injectNode (g : Graph) (node : Node) : Graph :=
  { g with
    onion := g.onion.modify node.layer (· ++ [node])
    mapped := g.mapped.insertIfNew node.id node }

/-- Set the layer, make sure the onion has it, and inject. -/
def place (g : Graph) (node : Node) (layer : Int) : Graph :=
  (if g.onion.contains layer then g else g.expandOnion layer).injectNode (node.setLayer layer)

/-- The node an only input names, when it is mapped. -/
def parentOf (g : Graph) (node : Node) : Option Node :=
  match node.input with
  | [(parentId, _)] => g.mapped[parentId]?
  | _ => none

/-- A node without outputs gets itself as an external one. -/
def autoOutput (node : Node) : Node :=
  if node.output = [] ∨ node.output = [0] then node.pickExternalOutput node.id else node

/-- The test of `addNode` for placing a node behind its only input at once. -/
def placesAtOnce (g : Graph) (node : Node) : Bool :=
  node.hasInternalInputs && !node.hasExternalInputs &&
    node.output.head?.all (fun outputId => !g.mapped.contains outputId)

/-- `_unmapped.insert`. -/
def hold (g : Graph) (node : Node) : Graph :=
  { g with unmapped := g.unmapped.insertIfNew node.id node }

/-- The placement at the end of `addNode`. -/
def fileNode (g : Graph) (node : Node) : Graph :=
  if node.onlyExternalInputs then
    g.injectNode (node.setLayer 0)
  else
    match g.parentOf node with
    | some parent =>
        if g.placesAtOnce node then g.place node (parent.layer + 1) else g.hold node
    | none => g.hold node

def addNode (g : Graph) (node : Node) : Graph :=
  fileNode { g with built := false } (autoOutput node)

/-- The nodes of a list, added in its order. -/
def addNodes (nodes : List Node) : Graph :=
  nodes.foldl addNode empty

/-- The largest layer among the inputs that are mapped. -/
def maxInputLayer (g : Graph) (node : Node) : Int :=
  node.inputIds.foldl
    (fun maxLayer nodeId =>
      match g.mapped[nodeId]? with
      | some iNode => if maxLayer < iNode.layer then iNode.layer else maxLayer
      | none => maxLayer) 0

/-- `_unmapped.erase`. -/
def release (g : Graph) (id : Int) : Graph :=
  { g with unmapped := g.unmapped.erase id }

/-- One iteration of the loop over the waiting nodes. -/
def visit (g : Graph) (id : Int) : Graph :=
  match g.unmapped[id]? with
  | none => g
  | some node =>
      if node.input.length = 1 then
        match g.parentOf node with
        | some parent => (g.place node (parent.layer + 1)).release node.id
        | none => g
      else
        (g.place node (g.maxInputLayer node + 1)).release node.id

/-- The loop over the waiting nodes: an iteration erases no node but its own. -/
def pass (g : Graph) : Graph :=
  g.unmapped.keys.foldl visit g

/-- `buildGraph`, cut off after a number of passes. -/
def buildGraph : Nat → Graph → Option Graph
  | 0, _ => none
  | fuel + 1, g =>
      if g.unmapped.size = 0 then some { g with built := true } else buildGraph fuel g.pass

/-- The layer a node reports. -/
def layerOf (g : Graph) (id : Int) : Int :=
  match g.mapped[id]? with
  | some node => node.layer
  | none => -1

/-- The nodes in the order of the loops of `execute`. -/
def executionOrder (g : Graph) : List Node :=
  (List.range g.onion.size).flatMap fun (l : Nat) => g.onion.getD (l : Int) []

/-! ## One placement -/

section Place

variable {g : Graph} {node : Node} {layer : Int}

@[simp]
theorem place_unmapped : (g.place node layer).unmapped = g.unmapped := by
  unfold place
  split <;> rfl

@[simp]
theorem place_built : (g.place node layer).built = g.built := by
  unfold place
  split <;> rfl

theorem place_mapped (hnode : g.mapped[node.id]? = none) (id : Int) :
    (g.place node layer).mapped[id]? =
      if node.id = id then some (node.setLayer layer) else g.mapped[id]? := by
  have hmapped : (g.place node layer).mapped =
      g.mapped.insertIfNew node.id (node.setLayer layer) := by
    unfold place
    split <;> rfl
  rw [hmapped, getElem?_insertIfNew_eq hnode]

theorem mem_place_onion (l : Int) :
    l ∈ (g.place node layer).onion ↔ l ∈ g.onion ∨ l = layer := by
  unfold place injectNode expandOnion
  split
  · rename_i hlayer
    simp only [Node.setLayer_layer, TreeMap.mem_modify]
    constructor
    · exact Or.inl
    · rintro (hl | rfl)
      · exact hl
      · exact TreeMap.mem_iff_contains.mpr hlayer
  · simp only [Node.setLayer_layer, TreeMap.mem_modify, TreeMap.mem_insertIfNew,
      LawfulEqCmp.compare_eq_iff_eq]
    exact ⟨fun h => h.symm.imp_right Eq.symm, fun h => h.symm.imp_left Eq.symm⟩

theorem place_onion_size :
    (g.place node layer).onion.size =
      if layer ∈ g.onion then g.onion.size else g.onion.size + 1 := by
  unfold place injectNode expandOnion
  by_cases hlayer : layer ∈ g.onion
  · rw [if_pos (TreeMap.mem_iff_contains.mp hlayer), if_pos hlayer]
    exact TreeMap.size_modify
  · rw [if_neg (fun h => hlayer (TreeMap.mem_iff_contains.mpr h)), if_neg hlayer]
    simp only [TreeMap.size_modify, TreeMap.size_insertIfNew, if_neg hlayer]

theorem place_onion_getD (l : Int) :
    (g.place node layer).onion.getD l [] =
      if layer = l then g.onion.getD l [] ++ [node.setLayer layer] else g.onion.getD l [] := by
  unfold place injectNode expandOnion
  by_cases hlayer : layer ∈ g.onion
  · rw [if_pos (TreeMap.mem_iff_contains.mp hlayer)]
    obtain ⟨nodes, hnodes⟩ := Option.isSome_iff_exists.mp
      (TreeMap.mem_iff_isSome_getElem?.mp hlayer)
    simp only [Node.setLayer_layer, TreeMap.getD_eq_getD_getElem?, getElem?_modify_eq]
    by_cases hl : layer = l
    · subst hl
      simp [hnodes]
    · simp [hl]
  · rw [if_neg (fun h => hlayer (TreeMap.mem_iff_contains.mpr h))]
    have hnone : g.onion[layer]? = none := TreeMap.getElem?_eq_none hlayer
    simp only [Node.setLayer_layer, TreeMap.getD_eq_getD_getElem?, getElem?_modify_eq,
      getElem?_insertIfNew_eq hnone]
    by_cases hl : layer = l
    · subst hl
      simp [hnone]
    · simp [hl]

theorem injectNode_eq_place (hlayer : layer ∈ g.onion) :
    g.injectNode (node.setLayer layer) = g.place node layer := by
  unfold place
  rw [if_pos (TreeMap.mem_iff_contains.mp hlayer)]

theorem place_release (id : Int) :
    (g.place node layer).release id = (g.release id).place node layer := by
  have honion : (g.release id).onion = g.onion := rfl
  unfold place
  rw [honion]
  split <;> rfl

end Place

variable {g : Graph} {id : Int} {node : Node}

theorem layerOf_mapped (h : g.mapped[id]? = some node) : g.layerOf id = node.layer := by
  unfold layerOf
  rw [h]

theorem release_unmapped (g : Graph) (id a : Int) :
    (g.release id).unmapped[a]? = if id = a then none else g.unmapped[a]? :=
  getElem?_erase_eq _ _ _

theorem hold_unmapped (hnode : g.unmapped[node.id]? = none) (a : Int) :
    (g.hold node).unmapped[a]? = if node.id = a then some node else g.unmapped[a]? :=
  getElem?_insertIfNew_eq hnode _ _

/-! ## What one step can do -/

/-- The rules of `buildGraph` for the layer of a waiting node. -/
inductive Places (g : Graph) (node : Node) : Int → Prop where
  | behind {parentId index : Int} {parent : Node} :
      node.input = [(parentId, index)] → g.mapped[parentId]? = some parent →
        Places g node (parent.layer + 1)
  | above : node.input.length ≠ 1 → Places g node (g.maxInputLayer node + 1)

theorem parentOf_eq_some {parent : Node} (h : g.parentOf node = some parent) :
    ∃ parentId index, node.input = [(parentId, index)] ∧ g.mapped[parentId]? = some parent := by
  unfold parentOf at h
  split at h
  · rename_i parentId index hinput
    exact ⟨parentId, index, hinput, h⟩
  · exact absurd h (by simp)

theorem parentOf_eq {parentId index : Int} (h : node.input = [(parentId, index)]) :
    g.parentOf node = g.mapped[parentId]? := by
  unfold parentOf
  rw [h]

/-- One iteration leaves the graph alone, when nothing places the node, or takes the node
out of the waiting ones and places it. -/
theorem visit_cases (g : Graph) (id : Int) :
    (g.visit id = g ∧ ∀ node, g.unmapped[id]? = some node → ∀ layer, ¬ Places g node layer) ∨
      ∃ node layer, g.unmapped[id]? = some node ∧ Places g node layer ∧
        g.visit id = (g.release node.id).place node layer := by
  unfold visit
  split
  · rename_i hid
    refine Or.inl ⟨rfl, ?_⟩
    intro node hnode
    rw [hid] at hnode
    exact absurd hnode (by simp)
  · rename_i node hnode
    split
    · rename_i hlength
      split
      · rename_i parent hparent
        obtain ⟨parentId, index, hinput, hmapped⟩ := parentOf_eq_some hparent
        exact Or.inr ⟨node, _, hnode, .behind hinput hmapped, place_release _⟩
      · rename_i hparent
        refine Or.inl ⟨rfl, ?_⟩
        intro node' hnode' layer hplaces
        obtain rfl : node = node' := Option.some.inj (hnode.symm.trans hnode')
        cases hplaces with
        | behind hinput hmapped =>
            rw [parentOf_eq hinput, hmapped] at hparent
            exact absurd hparent (by simp)
        | above hmulti => exact hmulti hlength
    · rename_i hlength
      exact Or.inr ⟨node, _, hnode, .above hlength, place_release _⟩

/-- No iteration adds a waiting node. -/
theorem visit_waiting {a : Int} {m : Node} (h : (g.visit id).unmapped[a]? = some m) :
    g.unmapped[a]? = some m := by
  rcases visit_cases g id with ⟨hsame, -⟩ | ⟨node, layer, -, -, hvisit⟩
  · rw [hsame] at h
    exact h
  · rw [hvisit, place_unmapped, release_unmapped] at h
    split at h
    · exact absurd h (by simp)
    · exact h

@[simp]
theorem autoOutput_wiring (node : Node) : (autoOutput node).wiring = node.wiring := by
  unfold autoOutput
  split <;> rfl

@[simp]
theorem autoOutput_id (node : Node) : (autoOutput node).id = node.id := by
  unfold autoOutput
  split <;> rfl

/-- The placement of a new node: in layer 0, behind its only input, or not yet. -/
theorem fileNode_cases (hroot : (0 : Int) ∈ g.onion) (node : Node) :
    (node.onlyExternalInputs = true ∧ g.fileNode node = g.place node 0) ∨
      (node.onlyExternalInputs = false ∧ ∃ parentId index parent,
        node.input = [(parentId, index)] ∧ g.mapped[parentId]? = some parent ∧
          g.fileNode node = g.place node (parent.layer + 1)) ∨
      (node.onlyExternalInputs = false ∧ g.fileNode node = g.hold node) := by
  unfold fileNode
  by_cases hexternal : node.onlyExternalInputs = true
  · rw [if_pos hexternal]
    exact Or.inl ⟨hexternal, injectNode_eq_place hroot⟩
  · rw [if_neg hexternal]
    have hinternal : node.onlyExternalInputs = false := Bool.eq_false_iff.mpr hexternal
    split
    · rename_i parent hparent
      obtain ⟨parentId, index, hinput, hmapped⟩ := parentOf_eq_some hparent
      split
      · exact Or.inr (Or.inl ⟨hinternal, parentId, index, parent, hinput, hmapped, rfl⟩)
      · exact Or.inr (Or.inr ⟨hinternal, rfl⟩)
    · exact Or.inr (Or.inr ⟨hinternal, rfl⟩)

/-! ## The layers hold the mapped nodes -/

/-- The layers are consecutive from 0, and a layer holds a node of some id exactly when the
node mapped to the id reports the layer, and then once.  A waiting node is not mapped. -/
structure Filed (g : Graph) : Prop where
  root : (0 : Int) ∈ g.onion
  layers : ∀ l, l ∈ g.onion ↔ 0 ≤ l ∧ l < g.onion.size
  mappedIds : ∀ (id : Int) (node : Node), g.mapped[id]? = some node →
    node.id = id ∧ node.layer ∈ g.onion
  waitingIds : ∀ (id : Int) (node : Node), g.unmapped[id]? = some node →
    node.id = id ∧ g.mapped[id]? = none
  slots : ∀ (id l : Int), (g.onion.getD l []).filter (fun node => node.id = id) =
    (g.mapped[id]?.filter fun node => node.layer = l).toList

namespace Filed

variable {g : Graph}

theorem empty : Filed Graph.empty where
  root := TreeMap.mem_insertIfNew_self
  layers := by
    intro l
    have hmem : l ∈ Graph.empty.onion ↔ 0 = l := by
      unfold Graph.empty
      simp [TreeMap.mem_insertIfNew]
    have hsize : Graph.empty.onion.size = 1 := rfl
    rw [hmem, hsize]
    omega
  mappedIds := by
    intro id node h
    simp [Graph.empty] at h
  waitingIds := by
    intro id node h
    simp [Graph.empty] at h
  slots := by
    intro id l
    have hlayer : Graph.empty.onion.getD l [] = [] := by
      unfold Graph.empty
      rw [TreeMap.getD_insertIfNew]
      simp
    rw [hlayer]
    simp [Graph.empty]

variable {node : Node}

theorem layer_bounds (hg : g.Filed) {id : Int} (h : g.mapped[id]? = some node) :
    0 ≤ node.layer ∧ node.layer < g.onion.size :=
  (hg.layers _).mp (hg.mappedIds id node h).2

theorem release (hg : g.Filed) (id : Int) : (g.release id).Filed where
  root := hg.root
  layers := hg.layers
  mappedIds := hg.mappedIds
  slots := hg.slots
  waitingIds := by
    intro a node h
    rw [release_unmapped] at h
    split at h
    · exact absurd h (by simp)
    · exact hg.waitingIds a node h

/-- Placing a new node in a layer that exists or is the next one. -/
theorem place (hg : g.Filed) {layer : Int} (hmapped : g.mapped[node.id]? = none)
    (hwaiting : g.unmapped[node.id]? = none) (hlow : 0 ≤ layer) (hhigh : layer ≤ g.onion.size) :
    (g.place node layer).Filed where
  root := (mem_place_onion 0).mpr (Or.inl hg.root)
  layers := by
    intro l
    rw [mem_place_onion, place_onion_size, hg.layers l]
    by_cases hlayer : layer ∈ g.onion
    · have hbounds := (hg.layers layer).mp hlayer
      rw [if_pos hlayer]
      omega
    · have hbounds : ¬ (0 ≤ layer ∧ layer < g.onion.size) := fun h =>
        hlayer ((hg.layers layer).mpr h)
      rw [if_neg hlayer]
      omega
  mappedIds := by
    intro id m h
    rw [place_mapped hmapped] at h
    split at h
    · rename_i hid
      obtain rfl := Option.some.inj h
      exact ⟨hid, (mem_place_onion layer).mpr (Or.inr rfl)⟩
    · exact ⟨(hg.mappedIds id m h).1, (mem_place_onion _).mpr (Or.inl (hg.mappedIds id m h).2)⟩
  waitingIds := by
    intro id m h
    rw [place_unmapped] at h
    have hid : node.id ≠ id := by
      rintro rfl
      rw [hwaiting] at h
      exact absurd h (by simp)
    rw [place_mapped hmapped, if_neg hid]
    exact hg.waitingIds id m h
  slots := by
    intro id l
    have hslots := hg.slots id l
    rw [place_onion_getD, place_mapped hmapped]
    by_cases hid : node.id = id
    · subst hid
      rw [hmapped] at hslots
      have hempty : (g.onion.getD l []).filter (fun m => m.id = node.id) = [] := by
        simpa using hslots
      by_cases hl : layer = l
      · simp [hl, List.filter_append, hempty, Option.filter]
      · simp [hl, hempty, Option.filter]
    · by_cases hl : layer = l
      · simp [hl, hid, List.filter_append, ← hslots]
      · simp [hl, hid, ← hslots]

theorem hold (hg : g.Filed) (hmapped : g.mapped[node.id]? = none)
    (hwaiting : g.unmapped[node.id]? = none) : (g.hold node).Filed where
  root := hg.root
  layers := hg.layers
  mappedIds := hg.mappedIds
  slots := hg.slots
  waitingIds := by
    intro id m h
    rw [hold_unmapped hwaiting] at h
    split at h
    · rename_i hid
      obtain rfl := Option.some.inj h
      exact ⟨hid, hid ▸ hmapped⟩
    · exact hg.waitingIds id m h

end Filed

/-- The rule for several inputs puts a node directly above its mapped inputs. -/
theorem above_maxInputLayer (g : Graph) (node : Node) :
    Above g.layerOf {q | q ∈ node.inputIds ∧ g.mapped[q]?.isSome} (g.maxInputLayer node + 1) := by
  have hloop : g.maxInputLayer node =
      (node.inputIds.filter fun q => g.mapped[q]?.isSome).foldl
        (fun m q => max m (g.layerOf q)) 0 := by
    unfold maxInputLayer
    rw [List.foldl_filter]
    congr 1
    funext m q
    cases hq : g.mapped[q]? with
    | none => simp
    | some parent =>
        rw [layerOf_mapped hq]
        simp only [Option.isSome_some, if_true]
        split <;> omega
  have hgreatest := isGreatest_foldl_max g.layerOf
    (node.inputIds.filter fun q => g.mapped[q]?.isSome) 0
  unfold Above
  rw [Int.add_sub_cancel, hloop]
  simpa only [List.mem_filter] using hgreatest

theorem Places.bounds (hg : g.Filed) {layer : Int} (h : Places g node layer) :
    0 < layer ∧ layer ≤ g.onion.size := by
  cases h with
  | behind hinput hmapped =>
      have hbounds := hg.layer_bounds hmapped
      omega
  | above hmulti =>
      have hroot := (hg.layers 0).mp hg.root
      have habove := g.above_maxInputLayer node
      refine ⟨habove.pos, ?_⟩
      rcases habove.attained with hone | ⟨q, ⟨-, hq⟩, hlayer⟩
      · omega
      · obtain ⟨m, hm⟩ := Option.isSome_iff_exists.mp hq
        have hbounds := hg.layer_bounds hm
        rw [layerOf_mapped hm] at hlayer
        omega

theorem Filed.visit (hg : g.Filed) (id : Int) : (g.visit id).Filed := by
  rcases visit_cases g id with ⟨hsame, -⟩ | ⟨node, layer, hnode, hplaces, hvisit⟩
  · rw [hsame]
    exact hg
  · rw [hvisit]
    have hbounds := hplaces.bounds hg
    obtain ⟨hid, hmapped⟩ := hg.waitingIds id node hnode
    apply (hg.release node.id).place
    · rw [hid]
      exact hmapped
    · rw [release_unmapped, if_pos rfl]
    · exact Int.le_of_lt hbounds.1
    · exact hbounds.2

/-! ## The nodes a graph holds -/

/-- The node of an id, mapped or waiting. -/
def entry (g : Graph) (id : Int) : Option Node :=
  g.mapped[id]?.or g.unmapped[id]?

theorem entry_place {layer : Int} (hmapped : g.mapped[node.id]? = none) (id : Int) :
    (g.place node layer).entry id =
      if node.id = id then some (node.setLayer layer) else g.entry id := by
  unfold entry
  rw [place_mapped hmapped, place_unmapped]
  split <;> rfl

theorem entry_hold (hentry : g.entry node.id = none) (id : Int) :
    (g.hold node).entry id = if node.id = id then some node else g.entry id := by
  obtain ⟨hmapped, hwaiting⟩ := Option.or_eq_none_iff.mp hentry
  unfold entry
  rw [hold_unmapped hwaiting]
  split
  · rename_i hid
    have hsame : (g.hold node).mapped[id]? = none := hid ▸ hmapped
    rw [hsame]
    rfl
  · rfl

theorem entry_release {a : Int} (h : id ≠ a) : (g.release id).entry a = g.entry a := by
  unfold entry
  rw [release_unmapped, if_neg h]
  rfl

/-- A graph holds the nodes of a list, up to what placing them changes. -/
def Holds (nodes : List Node) (g : Graph) : Prop :=
  ∀ id, (g.entry id).map Node.wiring = (nodes.find? fun n => n.id = id).map Node.wiring

/-- With distinct keys the search for a key finds its only holder. -/
theorem find?_key_eq {α : Type*} {key : α → Int} {xs : List α} (hkeys : (xs.map key).Nodup)
    {x : α} (hx : x ∈ xs) : xs.find? (fun y => key y = key x) = some x := by
  induction xs with
  | nil => exact absurd hx (by simp)
  | cons y xs ih =>
      rw [List.map_cons, List.nodup_cons] at hkeys
      rcases List.mem_cons.mp hx with rfl | hx
      · simp
      · have hne : key y ≠ key x := fun h => hkeys.1 (h ▸ List.mem_map_of_mem hx)
        simpa [hne] using ih hkeys.2 hx

namespace Holds

variable {nodes : List Node} {g : Graph}

theorem entry_eq_none_iff (hg : Holds nodes g) (id : Int) :
    g.entry id = none ↔ id ∉ nodes.map Node.id := by
  rw [← Option.map_eq_none_iff (f := Node.wiring), hg id, Option.map_eq_none_iff,
    List.find?_eq_none]
  simp

theorem entry_wiring (hg : Holds nodes g) {id : Int} {m : Node} (hm : g.entry id = some m) :
    ∃ n ∈ nodes, n.id = id ∧ m.wiring = n.wiring := by
  have hfind := hg id
  rw [hm, Option.map_some] at hfind
  obtain ⟨n, hn, hwiring⟩ := Option.map_eq_some_iff.mp hfind.symm
  exact ⟨n, List.mem_of_find?_eq_some hn, by simpa using List.find?_some hn, hwiring.symm⟩

theorem exists_entry (hg : Holds nodes g) (hids : (nodes.map Node.id).Nodup) {n : Node}
    (hn : n ∈ nodes) : ∃ m, g.entry n.id = some m ∧ m.wiring = n.wiring := by
  have hfind := hg n.id
  rw [find?_key_eq hids hn, Option.map_some] at hfind
  exact Option.map_eq_some_iff.mp hfind

theorem visit (hf : g.Filed) (hg : Holds nodes g) (id : Int) : Holds nodes (g.visit id) := by
  rcases visit_cases g id with ⟨hsame, -⟩ | ⟨node, layer, hnode, hplaces, hvisit⟩
  · rw [hsame]
    exact hg
  · obtain ⟨hid, hmapped⟩ := hf.waitingIds id node hnode
    intro a
    rw [hvisit, entry_place (g := g.release node.id) (hid ▸ hmapped), ← hg a]
    split
    · rename_i ha
      have hentry : g.entry a = some node := by
        unfold entry
        rw [← ha, hid, hmapped, hnode]
        rfl
      rw [hentry]
      rfl
    · rename_i ha
      rw [entry_release ha]

/-- A new id extends the held list by one node. -/
theorem append (hg : Holds nodes g) {g' : Graph} {n m : Node} (hid : n.id ∉ nodes.map Node.id)
    (hwiring : m.wiring = n.wiring)
    (hentry : ∀ id, g'.entry id = if n.id = id then some m else g.entry id) :
    Holds (nodes ++ [n]) g' := by
  intro id
  rw [hentry, List.find?_append]
  by_cases h : n.id = id
  · subst h
    have hnone : nodes.find? (fun k => k.id = n.id) = none := by
      rw [List.find?_eq_none]
      intro k hk
      have hne : k.id ≠ n.id := fun h => hid (h ▸ List.mem_map_of_mem hk)
      simpa using hne
    simp [hnone, hwiring]
  · rw [if_neg h, hg id]
    simp [h]

end Holds

/-! ## Adding nodes -/

section AddNode

variable {g : Graph} {node : Node}

theorem Filed.fileNode (hg : g.Filed) (hentry : g.entry node.id = none) :
    (g.fileNode node).Filed := by
  obtain ⟨hmapped, hwaiting⟩ := Option.or_eq_none_iff.mp hentry
  rcases fileNode_cases hg.root node with
    ⟨-, hfile⟩ | ⟨-, parentId, index, parent, hinput, hparent, hfile⟩ | ⟨-, hfile⟩
  · rw [hfile]
    exact hg.place hmapped hwaiting le_rfl (Int.natCast_nonneg _)
  · rw [hfile]
    have hbounds := (Places.behind hinput hparent).bounds hg
    exact hg.place hmapped hwaiting (Int.le_of_lt hbounds.1) hbounds.2
  · rw [hfile]
    exact hg.hold hmapped hwaiting

/-- The layers do not depend on whether the graph is marked as built. -/
theorem Filed.mark (hg : g.Filed) (built : Bool) : Filed { g with built := built } :=
  ⟨hg.root, hg.layers, hg.mappedIds, hg.waitingIds, hg.slots⟩

theorem Filed.addNode (hg : g.Filed) (hentry : g.entry node.id = none) :
    (g.addNode node).Filed := by
  apply (hg.mark false).fileNode
  rw [autoOutput_id]
  exact hentry

theorem entry_fileNode (hg : g.Filed) (hentry : g.entry node.id = none) :
    ∃ m, m.wiring = node.wiring ∧
      ∀ id, (g.fileNode node).entry id = if node.id = id then some m else g.entry id := by
  obtain ⟨hmapped, hwaiting⟩ := Option.or_eq_none_iff.mp hentry
  rcases fileNode_cases hg.root node with
    ⟨-, hfile⟩ | ⟨-, parentId, index, parent, hinput, hparent, hfile⟩ | ⟨-, hfile⟩
  · exact ⟨node.setLayer 0, rfl, fun id => by rw [hfile, entry_place hmapped]⟩
  · exact ⟨node.setLayer (parent.layer + 1), rfl, fun id => by rw [hfile, entry_place hmapped]⟩
  · exact ⟨node, rfl, fun id => by rw [hfile, entry_hold hentry]⟩

theorem Holds.addNode {nodes : List Node} (hf : g.Filed) (hg : Holds nodes g)
    (hid : node.id ∉ nodes.map Node.id) : Holds (nodes ++ [node]) (g.addNode node) := by
  have hentry : g.entry (autoOutput node).id = none := by
    rw [autoOutput_id]
    exact (hg.entry_eq_none_iff _).mpr hid
  obtain ⟨m, hwiring, hm⟩ := entry_fileNode (hf.mark false) hentry
  rw [autoOutput_id] at hm
  exact hg.append hid (hwiring.trans (autoOutput_wiring node)) hm

/-- What holds of the empty graph and survives every new node holds after all of them. -/
theorem addNodes_induction {P : List Node → Graph → Prop} (hempty : P [] empty)
    (hstep : ∀ nodes node g, node.id ∉ nodes.map Node.id → g.Filed → Holds nodes g →
      P nodes g → P (nodes ++ [node]) (g.addNode node))
    {nodes : List Node} (hids : (nodes.map Node.id).Nodup) :
    (addNodes nodes).Filed ∧ Holds nodes (addNodes nodes) ∧ P nodes (addNodes nodes) := by
  induction nodes using List.reverseRecOn with
  | nil =>
      refine ⟨Filed.empty, ?_, hempty⟩
      intro id
      simp [addNodes, entry, empty]
  | append_singleton nodes node ih =>
      rw [List.map_append, List.nodup_append'] at hids
      have hid : node.id ∉ nodes.map Node.id := by
        intro h
        exact hids.2.2 h (by simp)
      obtain ⟨hfiled, hholds, hP⟩ := ih hids.1
      have hadd : addNodes (nodes ++ [node]) = (addNodes nodes).addNode node := by
        unfold addNodes
        rw [List.foldl_append]
        rfl
      rw [hadd]
      exact ⟨hfiled.addNode ((hholds.entry_eq_none_iff _).mpr hid), hholds.addNode hfiled hid,
        hstep nodes node _ hid hfiled hholds hP⟩

end AddNode

/-! ## Building -/

/-- What every iteration keeps, a pass keeps. -/
theorem pass_induction {P : Graph → Prop} (hvisit : ∀ g id, P g → P (g.visit id)) (hg : P g) :
    P g.pass := by
  unfold pass
  induction g.unmapped.keys generalizing g with
  | nil => exact hg
  | cons id ids ih => exact ih (hvisit g id hg)

theorem holds_pass {nodes : List Node} (hf : g.Filed) (hg : Holds nodes g) : Holds nodes g.pass :=
  (pass_induction (P := fun g => g.Filed ∧ Holds nodes g)
    (fun _ id h => ⟨h.1.visit id, h.2.visit h.1 id⟩) ⟨hf, hg⟩).2

/-- What every pass keeps holds when no node is left waiting. -/
theorem buildGraph_induction {P : Graph → Prop} (hpass : ∀ g, P g → P g.pass) {fuel : Nat}
    {g' : Graph} (hg : P g) (h : g.buildGraph fuel = some g') :
    ∃ last, P last ∧ last.unmapped.size = 0 ∧ g' = { last with built := true } := by
  induction fuel generalizing g with
  | zero => exact absurd h (by simp [buildGraph])
  | succ fuel ih =>
      unfold buildGraph at h
      split at h
      · rename_i hsize
        exact ⟨g, hg, hsize, (Option.some.inj h).symm⟩
      · exact ih (hpass g hg) h

end Graph
end LibND4J
