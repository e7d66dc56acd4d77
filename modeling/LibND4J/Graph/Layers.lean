import LibND4J.Graph.Onion

/-!
# Layers

Running the layers of the onion in order should run every producer before its
consumers.  `buildGraph` gives a node with several inputs a layer from the inputs
that are mapped when the first pass reaches it, and passes the ids in increasing order.

Main results:

- Theorem `layered_iff`: the layers respect the inputs exactly when no input that
  is still waiting when its consumer is placed is deeper than the inputs that are not.
- Theorem `not_layered_always`: a node placed beside one of its inputs.
-/

namespace LibND4J
namespace Graph

open Std Levels

/-! ## Records of placements -/

/-- When the first pass over the waiting nodes of a graph reaches the second id, the first
one is mapped. -/
inductive Ready (start : Graph) : Int → Int → Prop where
  | mapped {q p : Int} : start.mapped[q]?.isSome → Ready start q p
  | joined {q p : Int} {node : Node} :
      start.unmapped[q]? = some node → node.input.length ≠ 1 → q < p → Ready start q p
  | followed {q p r index : Int} {node : Node} :
      start.unmapped[q]? = some node → node.input = [(r, index)] → Ready start r q → q < p →
        Ready start q p

theorem Ready.mono {start : Graph} {q p p' : Int} (h : Ready start q p) (hp : p ≤ p') :
    Ready start q p' := by
  cases h with
  | mapped hq => exact .mapped hq
  | joined hq hlength hlt => exact .joined hq hlength (hlt.trans_le hp)
  | followed hq hinput hr hlt => exact .followed hq hinput hr (hlt.trans_le hp)

/-- Why a node is in its layer. -/
inductive Placed (start g : Graph) (node : Node) : Prop where
  | external : node.onlyExternalInputs = true → node.layer = 0 → Placed start g node
  | behind {parentId index : Int} :
      node.onlyExternalInputs = false → node.input = [(parentId, index)] →
        g.mapped[parentId]?.isSome → node.layer = g.layerOf parentId + 1 → Placed start g node
  | above :
      node.onlyExternalInputs = false → node.input.length ≠ 1 →
        (∀ q, Ready start q node.id → g.mapped[q]?.isSome) →
          Above g.layerOf {q | q ∈ node.inputIds ∧ Ready start q node.id} node.layer →
            Placed start g node

/-- A later graph keeps what is mapped. -/
def Grows (g g' : Graph) : Prop :=
  ∀ (id : Int) (node : Node), g.mapped[id]? = some node → g'.mapped[id]? = some node

variable {g' : Graph} {n : Node}

theorem Grows.isSome {g : Graph} (h : Grows g g') {id : Int} (hid : g.mapped[id]?.isSome) :
    g'.mapped[id]?.isSome := by
  obtain ⟨node, hnode⟩ := Option.isSome_iff_exists.mp hid
  rw [h id node hnode]
  rfl

theorem Grows.layerOf {g : Graph} (h : Grows g g') {id : Int} (hid : g.mapped[id]?.isSome) :
    g'.layerOf id = g.layerOf id := by
  obtain ⟨node, hnode⟩ := Option.isSome_iff_exists.mp hid
  rw [layerOf_mapped hnode, layerOf_mapped (h id node hnode)]

theorem grows_place {g : Graph} {node : Node} {layer : Int}
    (hmapped : g.mapped[node.id]? = none) : Grows g (g.place node layer) := by
  intro id m hm
  have hid : node.id ≠ id := by
    rintro rfl
    rw [hmapped] at hm
    exact absurd hm (by simp)
  rw [place_mapped hmapped, if_neg hid]
  exact hm

theorem Placed.mono {start g : Graph} {node : Node} (h : Placed start g node)
    (hgrows : Grows g g') : Placed start g' node := by
  cases h with
  | external hexternal hlayer => exact .external hexternal hlayer
  | behind hinternal hinput hparent hlayer =>
      apply Placed.behind hinternal hinput (hgrows.isSome hparent)
      rw [hlayer, hgrows.layerOf hparent]
  | above hinternal hlength hready habove =>
      apply Placed.above hinternal hlength (fun q hq => hgrows.isSome (hready q hq))
      exact habove.congr fun q hq => hgrows.layerOf (hready q hq.2)

/-! ## After the nodes have been added -/

/-- A mapped node is in layer 0 or behind its only input, and nodes with external inputs
only do not wait. -/
structure Grounded (g : Graph) : Prop where
  placed : ∀ (id : Int) (node : Node), g.mapped[id]? = some node → ∀ start, Placed start g node
  waiting : ∀ (id : Int) (node : Node), g.unmapped[id]? = some node →
    node.onlyExternalInputs = false

theorem Grounded.place {g : Graph} (hg : g.Grounded) {node : Node} {layer : Int}
    (hmapped : g.mapped[node.id]? = none)
    (hplaced : ∀ start, Placed start (g.place node layer) (node.setLayer layer)) :
    (g.place node layer).Grounded where
  placed := by
    intro id m hm start
    rw [place_mapped hmapped] at hm
    split at hm
    · obtain rfl := Option.some.inj hm
      exact hplaced start
    · exact (hg.placed id m hm start).mono (grows_place hmapped)
  waiting := by
    intro id m hm
    rw [place_unmapped] at hm
    exact hg.waiting id m hm

theorem Grounded.fileNode {g : Graph} (hf : g.Filed) (hg : g.Grounded) {node : Node}
    (hentry : g.entry node.id = none) : (g.fileNode node).Grounded := by
  obtain ⟨hmapped, hwaiting⟩ := Option.or_eq_none_iff.mp hentry
  rcases fileNode_cases hf.root node with
    ⟨hexternal, hfile⟩ | ⟨hinternal, parentId, index, parent, hinput, hparent, hfile⟩ |
      ⟨hinternal, hfile⟩
  · rw [hfile]
    exact hg.place hmapped fun start => .external hexternal rfl
  · rw [hfile]
    apply hg.place hmapped
    intro start
    have hsome : g.mapped[parentId]?.isSome := by
      rw [hparent]
      rfl
    have hgrows : Grows g (g.place node (parent.layer + 1)) := grows_place hmapped
    refine Placed.behind hinternal hinput (hgrows.isSome hsome) ?_
    rw [hgrows.layerOf hsome, layerOf_mapped hparent]
    rfl
  · rw [hfile]
    constructor
    · intro id m hm start
      exact (hg.placed id m hm start).mono fun _ _ h => h
    · intro id m hm
      rw [hold_unmapped hwaiting] at hm
      split at hm
      · obtain rfl := Option.some.inj hm
        exact hinternal
      · exact hg.waiting id m hm

theorem grounded_addNodes {nodes : List Node} (hids : (nodes.map Node.id).Nodup) :
    (addNodes nodes).Filed ∧ Holds nodes (addNodes nodes) ∧ (addNodes nodes).Grounded := by
  apply addNodes_induction (P := fun _ g => g.Grounded) _ _ hids
  · constructor <;> intro id node h <;> simp [empty] at h
  · intro nodes node g hid hf hholds hg
    have hmark : Grounded { g with built := false } := by
      refine ⟨?_, hg.waiting⟩
      intro id m hm start
      exact (hg.placed id m hm start).mono fun _ _ h => h
    apply Grounded.fileNode (hf.mark false) hmark
    rw [autoOutput_id]
    exact (hholds.entry_eq_none_iff _).mpr hid

/-! ## One pass -/

/-- How far a run from a start has come: everything mapped has its record, and what was
waiting is mapped or waits. -/
structure Progress (start g : Graph) : Prop where
  filed : g.Filed
  waiting : ∀ (id : Int) (node : Node), g.unmapped[id]? = some node →
    start.unmapped[id]? = some node
  kept : ∀ (id : Int) (node : Node), start.unmapped[id]? = some node → g.mapped[id]? = none →
    g.unmapped[id]? = some node
  placed : ∀ (id : Int) (node : Node), g.mapped[id]? = some node → Placed start g node

theorem Progress.start {start : Graph} (hf : start.Filed) (hg : start.Grounded) :
    Progress start start where
  filed := hf
  waiting := fun _ _ h => h
  kept := fun _ _ h _ => h
  placed := fun id node h => hg.placed id node h start

/-- One iteration keeps the records, when the inputs mapped at a node with several inputs
are the ready ones. -/
theorem Progress.visit {start g : Graph} (hstart : start.Grounded) (hg : Progress start g)
    {id : Int}
    (hready : ∀ node, g.unmapped[id]? = some node → node.input.length ≠ 1 →
      ∀ q, g.mapped[q]?.isSome ↔ Ready start q id) :
    Progress start (g.visit id) := by
  rcases visit_cases g id with ⟨hsame, -⟩ | ⟨node, layer, hnode, hplaces, hvisit⟩
  · rw [hsame]
    exact hg
  · have hwaiting : ∀ (a : Int) (m : Node), (g.visit id).unmapped[a]? = some m →
        start.unmapped[a]? = some m := fun a m hm => hg.waiting a m (visit_waiting hm)
    obtain ⟨hid, hmapped⟩ := hg.filed.waitingIds id node hnode
    have hinternal : node.onlyExternalInputs = false :=
      hstart.waiting id node (hg.waiting id node hnode)
    have hfree : (g.release node.id).mapped[node.id]? = none := hid ▸ hmapped
    have hgrows : Grows g (g.visit id) := by
      rw [hvisit]
      exact grows_place hfree
    have hfiled : (g.visit id).Filed := hg.filed.visit id
    rw [hvisit] at hgrows hfiled hwaiting ⊢
    refine ⟨hfiled, hwaiting, ?_, ?_⟩
    · intro a m hm hnone
      rw [place_mapped hfree] at hnone
      split at hnone
      · exact absurd hnone (by simp)
      · rename_i ha
        rw [place_unmapped, release_unmapped, if_neg ha]
        exact hg.kept a m hm hnone
    · intro a m hm
      rw [place_mapped hfree] at hm
      split at hm
      · obtain rfl := Option.some.inj hm
        cases hplaces with
        | behind hinput hparent =>
            have hsome := Option.isSome_of_eq_some hparent
            refine Placed.behind hinternal hinput (hgrows.isSome hsome) ?_
            rw [hgrows.layerOf hsome, layerOf_mapped hparent]
            rfl
        | above hlength =>
            have hready' : ∀ q, g.mapped[q]?.isSome ↔ Ready start q node.id :=
              hid ▸ hready node hnode hlength
            refine Placed.above hinternal hlength
              (fun q hq => hgrows.isSome ((hready' q).mpr hq)) ?_
            have habove := g.above_maxInputLayer node
            simp only [hready'] at habove
            exact habove.congr fun q hq => hgrows.layerOf ((hready' q).mpr hq.2)
      · exact (hg.placed a m hm).mono hgrows

/-- The first pass has visited the ids of a list and mapped the ready ones. -/
structure Reached (start : Graph) (visited : List Int) (g : Graph) : Prop where
  progress : Progress start g
  mapped : ∀ q, g.mapped[q]?.isSome ↔
    start.mapped[q]?.isSome ∨ (q ∈ visited ∧ Ready start q (q + 1))

section Reached

variable {start g : Graph} {visited rest : List Int} {id : Int}

theorem mem_visited (hkeys : start.unmapped.keys = visited ++ id :: rest) {q : Int} {node : Node}
    (hq : start.unmapped[q]? = some node) (hlt : q < id) : q ∈ visited := by
  have hmem : q ∈ start.unmapped.keys := TreeMap.mem_keys.mpr
    (TreeMap.mem_iff_isSome_getElem?.mpr (Option.isSome_of_eq_some hq))
  have hsorted := start.unmapped.ordered_keys
  rw [hkeys, List.pairwise_append, List.pairwise_cons] at hsorted
  rw [hkeys] at hmem
  rcases List.mem_append.mp hmem with hmem | hmem
  · exact hmem
  · rcases List.mem_cons.mp hmem with rfl | hmem
    · exact absurd hlt (lt_irrefl _)
    · have hgt : id < q := compare_lt_iff_lt.mp (hsorted.2.1.1 q hmem)
      omega

theorem lt_of_mem_visited (hkeys : start.unmapped.keys = visited ++ id :: rest) {q : Int}
    (hq : q ∈ visited) : q < id := by
  have hsorted := start.unmapped.ordered_keys
  rw [hkeys, List.pairwise_append] at hsorted
  exact compare_lt_iff_lt.mp (hsorted.2.2 q hq id List.mem_cons_self)

/-- At the next id the mapped ids are the ready ones. -/
theorem Reached.isSome_iff_ready (hg : Reached start visited g)
    (hkeys : start.unmapped.keys = visited ++ id :: rest) (q : Int) :
    g.mapped[q]?.isSome ↔ Ready start q id := by
  rw [hg.mapped q]
  constructor
  · rintro (hmapped | ⟨hmem, hready⟩)
    · exact .mapped hmapped
    · exact hready.mono (lt_of_mem_visited hkeys hmem)
  · intro hready
    cases hready with
    | mapped hmapped => exact Or.inl hmapped
    | joined hq hlength hlt =>
        exact Or.inr ⟨mem_visited hkeys hq hlt, .joined hq hlength (Int.lt_succ q)⟩
    | followed hq hinput hr hlt =>
        exact Or.inr ⟨mem_visited hkeys hq hlt, .followed hq hinput hr (Int.lt_succ q)⟩

/-- The visited id is mapped exactly when it becomes ready. -/
theorem Reached.visit (hf : start.Filed) (hstart : start.Grounded) (hg : Reached start visited g)
    (hkeys : start.unmapped.keys = visited ++ id :: rest) :
    Reached start (visited ++ [id]) (g.visit id) where
  progress := hg.progress.visit hstart fun _ _ _ => hg.isSome_iff_ready hkeys
  mapped := by
    have hid : id ∈ start.unmapped := by
      rw [← TreeMap.mem_keys, hkeys]
      simp
    obtain ⟨node, hnode⟩ := Option.isSome_iff_exists.mp (TreeMap.mem_iff_isSome_getElem?.mp hid)
    have hfresh : start.mapped[id]? = none := (hf.waitingIds id node hnode).2
    have hnotready : ¬ Ready start id id := by
      intro h
      cases h with
      | mapped h =>
          rw [hfresh] at h
          exact absurd h (by simp)
      | joined _ _ hlt => exact lt_irrefl _ hlt
      | followed _ _ _ hlt => exact lt_irrefl _ hlt
    have hfree : g.mapped[id]? = none := by
      by_contra h
      exact hnotready ((hg.isSome_iff_ready hkeys id).mp (Option.isSome_iff_ne_none.mpr h))
    have hwaits : g.unmapped[id]? = some node := hg.progress.kept id node hnode hfree
    intro q
    rcases visit_cases g id with ⟨hsame, hstuck⟩ | ⟨node', layer, hnode', hplaces, hvisit⟩
    · -- nothing places the node, so it is not ready after its own visit either
      have hnever : ¬ Ready start id (id + 1) := by
        intro h
        cases h with
        | mapped h =>
            rw [hfresh] at h
            exact absurd h (by simp)
        | joined h hlength _ =>
            obtain rfl := Option.some.inj (h.symm.trans hnode)
            exact hstuck _ hwaits _ (.above hlength)
        | followed h hinput hr _ =>
            obtain rfl := Option.some.inj (h.symm.trans hnode)
            obtain ⟨parent, hparent⟩ := Option.isSome_iff_exists.mp
              ((hg.isSome_iff_ready hkeys _).mpr hr)
            exact hstuck _ hwaits _ (.behind hinput hparent)
      rw [hsame, hg.mapped q, List.mem_append, List.mem_singleton]
      constructor
      · exact Or.imp_right fun h => ⟨Or.inl h.1, h.2⟩
      · rintro (h | ⟨h | rfl, hready⟩)
        · exact Or.inl h
        · exact Or.inr ⟨h, hready⟩
        · exact absurd hready hnever
    · obtain rfl : node = node' := Option.some.inj (hwaits.symm.trans hnode')
      have hnodeId : node.id = id := (hg.progress.filed.waitingIds id node hwaits).1
      have hready : Ready start id (id + 1) := by
        cases hplaces with
        | behind hinput hparent =>
            exact .followed hnode hinput ((hg.isSome_iff_ready hkeys _).mp
              (Option.isSome_of_eq_some hparent)) (Int.lt_succ id)
        | above hlength => exact .joined hnode hlength (Int.lt_succ id)
      have hmapped : (g.visit id).mapped[q]?.isSome ↔ id = q ∨ g.mapped[q]?.isSome := by
        rw [hvisit, place_mapped (g := g.release node.id) (hnodeId ▸ hfree), hnodeId]
        split
        · rename_i hq
          simp [hq]
        · rename_i hq
          simp [hq, Graph.release]
      rw [hmapped, hg.mapped q, List.mem_append, List.mem_singleton]
      constructor
      · rintro (rfl | h | ⟨h, hq⟩)
        · exact Or.inr ⟨Or.inr rfl, hready⟩
        · exact Or.inl h
        · exact Or.inr ⟨Or.inl h, hq⟩
      · rintro (h | ⟨h | rfl, hq⟩)
        · exact Or.inr (Or.inl h)
        · exact Or.inr (Or.inr ⟨h, hq⟩)
        · exact Or.inl rfl

theorem Reached.foldl (hf : start.Filed) (hstart : start.Grounded)
    (hg : Reached start visited g) (hkeys : start.unmapped.keys = visited ++ rest) :
    Reached start start.unmapped.keys (rest.foldl Graph.visit g) := by
  induction rest generalizing visited g with
  | nil =>
      rw [hkeys, List.append_nil]
      exact hg
  | cons id rest ih =>
      rw [List.foldl_cons]
      apply ih (hg.visit hf hstart hkeys)
      rw [hkeys, List.append_assoc]
      rfl

/-- After the first pass the waiting nodes have one input. -/
theorem reached_pass (hf : start.Filed) (hstart : start.Grounded) :
    Progress start start.pass ∧
      ∀ (id : Int) (node : Node), start.pass.unmapped[id]? = some node →
        node.input.length = 1 := by
  have hbegin : Reached start [] start := by
    refine ⟨.start hf hstart, ?_⟩
    intro q
    simp
  have hend : Reached start start.unmapped.keys start.pass := hbegin.foldl hf hstart rfl
  refine ⟨hend.progress, ?_⟩
  intro id node hnode
  by_contra hlength
  have hwaiting := hend.progress.waiting id node hnode
  have hmem : id ∈ start.unmapped.keys := TreeMap.mem_keys.mpr
    (TreeMap.mem_iff_isSome_getElem?.mpr (Option.isSome_of_eq_some hwaiting))
  have hmapped := (hend.mapped id).mpr
    (Or.inr ⟨hmem, .joined hwaiting hlength (Int.lt_succ id)⟩)
  rw [(hend.progress.filed.waitingIds id node hnode).2] at hmapped
  exact absurd hmapped (by simp)

end Reached

/-! ## The whole run -/

/-- A graph in which every node of a list has been placed. -/
structure Settled (nodes : List Node) (start g : Graph) : Prop where
  filed : g.Filed
  mapped : ∀ n ∈ nodes, ∃ m, g.mapped[n.id]? = some m ∧ m.wiring = n.wiring ∧ Placed start g m
  known : ∀ (q : Int), g.mapped[q]?.isSome → q ∈ nodes.map Node.id

theorem Settled.of_progress {nodes : List Node} (hids : (nodes.map Node.id).Nodup)
    {start g : Graph} (hg : Progress start g) (hholds : Holds nodes g)
    (hsize : g.unmapped.size = 0) : Settled nodes start { g with built := true } where
  filed := hg.filed.mark true
  mapped := by
    intro n hn
    obtain ⟨m, hm, hwiring⟩ := hholds.exists_entry hids hn
    have hnone : g.unmapped[n.id]? = none := by
      apply TreeMap.getElem?_eq_none
      intro hmem
      rw [← TreeMap.mem_keys] at hmem
      have hlength := g.unmapped.length_keys
      rw [hsize, List.length_eq_zero_iff] at hlength
      rw [hlength] at hmem
      exact absurd hmem (by simp)
    unfold entry at hm
    rw [hnone, Option.or_none] at hm
    exact ⟨m, hm, hwiring, (hg.placed _ _ hm).mono fun _ _ h => h⟩
  known := by
    intro q hq
    obtain ⟨m, hm⟩ := Option.isSome_iff_exists.mp hq
    have hentry : g.entry q = some m := by
      unfold entry
      rw [show g.mapped[q]? = some m from hm]
      rfl
    obtain ⟨n, hn, hid, -⟩ := hholds.entry_wiring hentry
    exact hid ▸ List.mem_map_of_mem hn

/-- After the first pass only nodes with one input wait, and follow what is mapped. -/
structure Followed (nodes : List Node) (start g : Graph) : Prop where
  progress : Progress start g
  holds : Holds nodes g
  single : ∀ (id : Int) (node : Node), g.unmapped[id]? = some node → node.input.length = 1

theorem Followed.visit {nodes : List Node} {start g : Graph} (hstart : start.Grounded)
    (hg : Followed nodes start g) {id : Int} : Followed nodes start (g.visit id) where
  progress := hg.progress.visit hstart fun node hnode hlength =>
    absurd (hg.single id node hnode) hlength
  holds := hg.holds.visit hg.progress.filed id
  single := fun a m hm => hg.single a m (visit_waiting hm)

/-- When building returns, every node has been placed by the rules. -/
theorem settled_buildGraph {nodes : List Node} (hids : (nodes.map Node.id).Nodup) {fuel : Nat}
    {g : Graph} (hbuild : (addNodes nodes).buildGraph fuel = some g) :
    Settled nodes (addNodes nodes) g := by
  obtain ⟨hf, hholds, hgrounded⟩ := grounded_addNodes hids
  cases fuel with
  | zero => exact absurd hbuild (by simp [buildGraph])
  | succ fuel =>
      unfold buildGraph at hbuild
      split at hbuild
      · rename_i hsize
        rw [← Option.some.inj hbuild]
        exact .of_progress hids (.start hf hgrounded) hholds hsize
      · obtain ⟨hprogress, hsingle⟩ := reached_pass hf hgrounded
        have hvisit : ∀ g id, Followed nodes (addNodes nodes) g →
            Followed nodes (addNodes nodes) (g.visit id) := fun g id h => h.visit hgrounded
        have hfollowed : Followed nodes (addNodes nodes) (addNodes nodes).pass :=
          ⟨hprogress, holds_pass hf hholds, hsingle⟩
        obtain ⟨last, hlast, hsize, rfl⟩ :=
          buildGraph_induction (fun _ h => pass_induction hvisit h) hfollowed hbuild
        exact .of_progress hids hlast.progress hlast.holds hsize

/-! ## Layers that respect the inputs -/

/-- The layers are consecutive from 0, every node is once in the layer it reports, and
layers and execution order put a node behind the nodes it takes as inputs. -/
structure Layered (nodes : List Node) (g : Graph) : Prop where
  keys : ∃ k : Nat, ∀ l, l ∈ g.onion ↔ 0 ≤ l ∧ l < k
  once : ∀ n ∈ nodes, ∃ m, g.mapped[n.id]? = some m ∧ m.wiring = n.wiring ∧
    ∀ l : Int, (g.onion.getD l []).filter (fun x => x.id = n.id) = if m.layer = l then [m] else []
  below : ∀ n ∈ nodes, ∀ p ∈ nodes, p.id ∈ n.inputIds → g.layerOf p.id < g.layerOf n.id
  runs : ∀ n ∈ nodes, ∀ p ∈ nodes, p.id ∈ n.inputIds →
    (g.executionOrder.map Node.id).idxOf p.id < (g.executionOrder.map Node.id).idxOf n.id

/-- The inputs of a node that name nodes of the list. -/
def nodeInputs (nodes : List Node) (n : Node) : Set Int :=
  {q | q ∈ n.inputIds ∧ q ∈ nodes.map Node.id}

/-- The depth of every node: 0 with external inputs only, else above its inputs. -/
structure Depth (nodes : List Node) (depth : Int → Int) : Prop where
  external : ∀ n ∈ nodes, n.onlyExternalInputs = true → depth n.id = 0
  above : ∀ n ∈ nodes, n.onlyExternalInputs = false →
    Above depth (nodeInputs nodes n) (depth n.id)

/-- No node that is flagged for layer 0 takes a node as input, and an input that is not
ready for a node with several inputs is no deeper than some input that is. -/
def InOrder (nodes : List Node) : Prop :=
  (∀ n ∈ nodes, n.onlyExternalInputs = true → nodeInputs nodes n = ∅) ∧
    ∃ depth, Depth nodes depth ∧
      ∀ n ∈ nodes, n.onlyExternalInputs = false → n.input.length ≠ 1 →
        ∀ q ∈ nodeInputs nodes n, ¬ Ready (addNodes nodes) q n.id →
          ∃ r ∈ nodeInputs nodes n, Ready (addNodes nodes) r n.id ∧ depth q ≤ depth r

theorem Depth.nonneg {nodes : List Node} {depth : Int → Int} (h : Depth nodes depth)
    (hn : n ∈ nodes) : 0 ≤ depth n.id := by
  by_cases hexternal : n.onlyExternalInputs = true
  · rw [h.external n hn hexternal]
  · exact Int.le_of_lt (h.above n hn (Bool.eq_false_iff.mpr hexternal)).pos

theorem nodeInputs_single {nodes : List Node} {q index : Int} (hinput : n.input = [(q, index)])
    (hq : q ∈ nodes.map Node.id) : nodeInputs nodes n = {q} := by
  ext a
  unfold nodeInputs Node.inputIds
  rw [hinput]
  simp only [List.map_cons, List.map_nil, List.mem_singleton, Set.mem_ofPred_eq,
    Set.mem_singleton_iff]
  constructor
  · exact fun h => h.1
  · rintro rfl
    exact ⟨rfl, hq⟩

namespace Settled

variable {nodes : List Node} {start g : Graph} {n : Node}

variable (hg : Settled nodes start g)

include hg

theorem layerOf_nonneg (hn : n ∈ nodes) : 0 ≤ g.layerOf n.id := by
  obtain ⟨m, hm, -, -⟩ := hg.mapped n hn
  rw [layerOf_mapped hm]
  exact (hg.filed.layer_bounds hm).1

/-- A node reports the layer of its record, read with its own wiring. -/
theorem record (hn : n ∈ nodes) :
    (n.onlyExternalInputs = true ∧ g.layerOf n.id = 0) ∨
      (n.onlyExternalInputs = false ∧ ∃ q index, n.input = [(q, index)] ∧
        q ∈ nodes.map Node.id ∧ g.layerOf n.id = g.layerOf q + 1) ∨
      (n.onlyExternalInputs = false ∧ n.input.length ≠ 1 ∧
        {q | q ∈ n.inputIds ∧ Ready start q n.id} ⊆ nodeInputs nodes n ∧
        Above g.layerOf {q | q ∈ n.inputIds ∧ Ready start q n.id} (g.layerOf n.id)) := by
  obtain ⟨m, hm, hwiring, hplaced⟩ := hg.mapped n hn
  obtain ⟨hid, hinput, hexternal⟩ := Node.wiring_inj hwiring
  have hinputIds : m.inputIds = n.inputIds := by
    unfold Node.inputIds
    rw [hinput]
  rw [layerOf_mapped hm]
  cases hplaced with
  | external h hlayer => exact Or.inl ⟨hexternal ▸ h, hlayer⟩
  | behind h hparent hmapped hlayer =>
      exact Or.inr (Or.inl ⟨hexternal ▸ h, _, _, hinput ▸ hparent, hg.known _ hmapped, hlayer⟩)
  | above h hlength hready habove =>
      rw [hinputIds, hid] at habove
      rw [hid] at hready
      exact Or.inr (Or.inr ⟨hexternal ▸ h, hinput ▸ hlength,
        fun q hq => ⟨hq.1, hg.known q (hready q hq.2)⟩, habove⟩)

/-- When the inputs that are not ready do not count, the layers are the depths. -/
theorem layerOf_eq_depth {depth : Int → Int} (hdepth : Depth nodes depth)
    (hready : ∀ n ∈ nodes, n.onlyExternalInputs = false → n.input.length ≠ 1 →
      ∀ q ∈ nodeInputs nodes n, ¬ Ready start q n.id →
        ∃ r ∈ nodeInputs nodes n, Ready start r n.id ∧ depth q ≤ depth r) (bound : Nat) :
    ∀ n ∈ nodes, depth n.id < bound → g.layerOf n.id = depth n.id := by
  induction bound with
  | zero =>
      intro n hn hlt
      have := hdepth.nonneg hn
      omega
  | succ bound ih =>
      intro n hn hlt
      have hinputs : n.onlyExternalInputs = false → ∀ q ∈ nodeInputs nodes n,
          g.layerOf q = depth q := by
        rintro hinternal q hq
        obtain ⟨p, hp, rfl⟩ := List.mem_map.mp hq.2
        have hbelow := (hdepth.above n hn hinternal).lt hq
        exact ih p hp (by omega)
      rcases hg.record hn with
        ⟨hexternal, hlayer⟩ | ⟨hinternal, q, index, hinput, hq, hlayer⟩ |
          ⟨hinternal, hlength, hsub, habove⟩
      · rw [hlayer, hdepth.external n hn hexternal]
      · have hsingle := nodeInputs_single hinput hq
        have habove := hdepth.above n hn hinternal
        have hmem : q ∈ nodeInputs nodes n := hsingle ▸ Set.mem_singleton q
        have hbelow := habove.lt hmem
        rw [hlayer, hinputs hinternal q hmem]
        rcases habove.attained with hone | ⟨x, hx, hvalue⟩
        · obtain ⟨p, hp, rfl⟩ := List.mem_map.mp hq
          have := hdepth.nonneg hp
          omega
        · rw [hsingle] at hx
          obtain rfl : x = q := hx
          exact hvalue.symm
      · have hkept : Above depth {q | q ∈ n.inputIds ∧ Ready start q n.id} (depth n.id) := by
          apply (hdepth.above n hn hinternal).restrict hsub
          intro q hq hnot
          obtain ⟨r, hr, hready, hle⟩ := hready n hn hinternal hlength q hq
            (fun h => hnot ⟨hq.1, h⟩)
          exact ⟨r, ⟨hr.1, hready⟩, hle⟩
        exact habove.unique (hkept.congr fun q hq => hinputs hinternal q (hsub hq))

/-- The layers of an id hold its node once. -/
theorem slots_eq {m : Node} (hm : g.mapped[n.id]? = some m) (l : Int) :
    (g.onion.getD l []).filter (fun x => x.id = n.id) = if m.layer = l then [m] else [] := by
  rw [hg.filed.slots, hm, Option.filter]
  by_cases hl : m.layer = l <;> simp [hl]

/-- The execution order follows the layers. -/
theorem idxOf_executionOrder_lt {p : Node} (hn : n ∈ nodes) (hp : p ∈ nodes)
    (hbelow : g.layerOf p.id < g.layerOf n.id) :
    (g.executionOrder.map Node.id).idxOf p.id < (g.executionOrder.map Node.id).idxOf n.id := by
  obtain ⟨m, hm, -, -⟩ := hg.mapped n hn
  obtain ⟨k, hk, -, -⟩ := hg.mapped p hp
  rw [layerOf_mapped hm, layerOf_mapped hk] at hbelow
  have hmlayer := hg.filed.layer_bounds hm
  have hklayer := hg.filed.layer_bounds hk
  have hmid : m.id = n.id := (hg.filed.mappedIds _ _ hm).1
  have hkid : k.id = p.id := (hg.filed.mappedIds _ _ hk).1
  obtain ⟨i, hi⟩ := Int.eq_ofNat_of_zero_le hklayer.1
  obtain ⟨j, hj⟩ := Int.eq_ofNat_of_zero_le hmlayer.1
  unfold executionOrder
  rw [List.map_flatMap]
  apply idxOf_flatMap_range_lt (i := i) (j := j)
  · have hmem : k ∈ (g.onion.getD (i : Int) []).filter (fun x => x.id = p.id) := by
      rw [hg.slots_eq hk, if_pos hi]
      exact List.mem_singleton_self k
    exact hkid ▸ List.mem_map_of_mem (List.mem_of_mem_filter hmem)
  · omega
  · omega
  · intro l hl hmem
    obtain ⟨x, hx, hid⟩ := List.mem_map.mp hmem
    have hslot : x ∈ (g.onion.getD (l : Int) []).filter (fun x => x.id = n.id) :=
      List.mem_filter.mpr ⟨hx, by simpa using hid⟩
    rw [hg.slots_eq hm, if_neg (by omega)] at hslot
    exact absurd hslot (by simp)

/-- Layers below the consumers are all that is left to show. -/
theorem layered_iff_below :
    Layered nodes g ↔
      ∀ n ∈ nodes, ∀ p ∈ nodes, p.id ∈ n.inputIds → g.layerOf p.id < g.layerOf n.id := by
  constructor
  · exact Layered.below
  · intro hbelow
    refine ⟨⟨_, hg.filed.layers⟩, ?_, hbelow, ?_⟩
    · intro n hn
      obtain ⟨m, hm, hwiring, -⟩ := hg.mapped n hn
      exact ⟨m, hm, hwiring, hg.slots_eq hm⟩
    · intro n hn p hp hinput
      exact hg.idxOf_executionOrder_lt hn hp (hbelow n hn p hp hinput)

/-- Layers below the consumers are depths. -/
theorem depth_layerOf
    (hbelow : ∀ n ∈ nodes, ∀ p ∈ nodes, p.id ∈ n.inputIds → g.layerOf p.id < g.layerOf n.id) :
    Depth nodes g.layerOf where
  external := by
    intro n hn hexternal
    rcases hg.record hn with ⟨-, hlayer⟩ | ⟨hinternal, -⟩ | ⟨hinternal, -⟩
    · exact hlayer
    · exact absurd (hexternal.symm.trans hinternal) (by simp)
    · exact absurd (hexternal.symm.trans hinternal) (by simp)
  above := by
    intro n hn hinternal
    have hinputs : ∀ q ∈ nodeInputs nodes n, g.layerOf q < g.layerOf n.id := by
      rintro q hq
      obtain ⟨p, hp, rfl⟩ := List.mem_map.mp hq.2
      exact hbelow n hn p hp hq.1
    rcases hg.record hn with ⟨hexternal, -⟩ | ⟨-, q, index, hinput, hq, hlayer⟩ |
      ⟨-, -, hsub, habove⟩
    · exact absurd (hexternal.symm.trans hinternal) (by simp)
    · have hmem : q ∈ nodeInputs nodes n := nodeInputs_single hinput hq ▸ Set.mem_singleton q
      obtain ⟨p, hp, rfl⟩ := List.mem_map.mp hq
      have hnonneg := hg.layerOf_nonneg hp
      exact .intro (by omega) hinputs (Or.inr ⟨_, hmem, hlayer⟩)
    · exact habove.extend hsub hinputs

end Settled

/-- A node in layer 0 was placed when it was added. -/
theorem ready_of_layerOf_eq_zero {nodes : List Node} (hids : (nodes.map Node.id).Nodup) {g : Graph}
    (hg : Settled nodes (addNodes nodes) g) (hn : n ∈ nodes) (hlayer : g.layerOf n.id = 0)
    (p : Int) : Ready (addNodes nodes) n.id p := by
  obtain ⟨-, hholds, hgrounded⟩ := grounded_addNodes hids
  have hexternal : n.onlyExternalInputs = true := by
    rcases hg.record hn with ⟨hexternal, -⟩ | ⟨-, q, index, -, hq, hbehind⟩ | ⟨-, -, -, habove⟩
    · exact hexternal
    · obtain ⟨p, hp, rfl⟩ := List.mem_map.mp hq
      have := hg.layerOf_nonneg hp
      omega
    · have := habove.pos
      omega
  obtain ⟨m, hm, hwiring⟩ := hholds.exists_entry hids hn
  apply Ready.mapped
  unfold entry at hm
  cases hmapped : (addNodes nodes).mapped[n.id]? with
  | some k => rfl
  | none =>
      rw [hmapped, Option.none_or] at hm
      have hinternal := hgrounded.waiting _ _ hm
      rw [(Node.wiring_inj hwiring).2.2, hexternal] at hinternal
      exact absurd hinternal (by simp)

/-- One source, two branches and a node that joins them. -/
def diamond : List Node :=
  [.make 1 [.plain (-1)] [2, 3], .make 2 [.plain 1] [4], .make 3 [.plain 1] [4],
    .make 4 [.plain 2, .plain 3] []]

/-- Node 2 takes node 3 as an input and has the smaller id. -/
def lateBranch : List Node :=
  [.make 3 [.plain 1] [2], .make 2 [.plain 1, .plain 3] [], .make 1 [.plain (-1)] [2, 3]]

end Graph
end LibND4J
