import Mathlib.Data.Prod.Lex
import Mathlib.Data.List.Nodup
import Mathlib.Data.List.Perm.Subperm
import Mathlib.Algebra.Group.Action.Defs
import Blizzard.WorkflowGraph
import Blizzard.SortedRanks
import Blizzard.ForwardWalks
import Blizzard.ForwardLayers

/-! # A graph's nodes, start to finish

Each node the entry reaches ranks by its longest forward path from it, ties in
discovery order, and the others follow in the graph's own order. -/
namespace Blizzard.NodeOrder
open Relation WorkflowGraph SortedRanks ForwardWalks ForwardLayers

/-- A graph with its nodes under distinct ids, a node's id being its key. -/
structure KeyedGraph extends Graph where
  ids : (nodes.map (·.nodeId)).Nodup

def nodeIds (graph : Graph) : List String := graph.nodes.map (·.nodeId)

/-- The id a name leads to: the last node's of that name. -/
def idByName (graph : Graph) (name : String) : Option String :=
  (graph.nodes.filter fun node => decide (node.name = name)).getLast?.map (·.nodeId)

/-- Where a node's edges lead inside the graph, in edge order. -/
def out (graph : Graph) (nodeId : String) : List String :=
  graph.edges.filterMap fun edge =>
    if edge.fromNodeId = nodeId ∧ nodeId ∈ nodeIds graph then
      if edge.targetGraph.isNone then idByName graph edge.toNodeName else none
    else none

/-- The walk from the entry; nothing is walked where the graph lacks it. -/
def walked (graph : Graph) : Option (Walk String) :=
  if graph.entryNodeId ∈ nodeIds graph then
    walk (out graph) (nodeIds graph).length graph.entryNodeId {}
  else some {}

/-- The graph's node ids, start to finish. -/
def orderNodes (graph : Graph) : Option (List String) :=
  match walked graph with
  | none => none
  | some w =>
    match relaxed ((nodeIds graph).length * (nodeIds graph).length + 1) w.discovery w.nexts with
    | none => none
    | some depth =>
      some (ranked (fun nodeId => toLex (depth nodeId, w.discovery.idxOf nodeId)) w.discovery ++
        (nodeIds graph).filter fun nodeId => decide (nodeId ∉ w.discovery))

/-- An edge of the graph that leads to a node of it. -/
def Step (graph : Graph) (a b : String) : Prop := b ∈ out graph a

/-- The nodes the entry reaches. -/
def Reached (graph : Graph) (nodeId : String) : Prop :=
  graph.entryNodeId ∈ nodeIds graph ∧ ReflTransGen (Step graph) graph.entryNodeId nodeId

/-- An edge the walk from the entry does not close back onto its path. -/
def ForwardEdge (graph : Graph) (a b : String) : Prop :=
  ∃ w, walked graph = some w ∧ Forward w.forward a b

variable {graph : Graph} {w : Walk String} {a b : String}

theorem idByName_mem {name nodeId : String} (found : idByName graph name = some nodeId) :
    nodeId ∈ nodeIds graph := by
  obtain ⟨node, last, rfl⟩ := Option.map_eq_some_iff.mp found
  exact List.mem_map_of_mem (List.mem_filter.mp (List.mem_of_getLast? last)).1

theorem out_subset (graph : Graph) (nodeId : String) : out graph nodeId ⊆ nodeIds graph := by
  intro next mem
  obtain ⟨edge, -, leads⟩ := List.mem_filterMap.mp mem
  split at leads
  · split at leads
    · exact idByName_mem leads
    · cases leads
  · cases leads

/-- The walk ends, with the reached nodes discovered and every edge of them forward or closing a
cycle of forward ones. -/
theorem walked_ends (graph : Graph) : ∃ w, walked graph = some w ∧
    w.discovery.Perm w.finished ∧ w.discovery.Nodup ∧ Layered w.forward ∧
    (∀ nodeId, nodeId ∈ w.discovery ↔ Reached graph nodeId) ∧
    (graph.entryNodeId ∈ nodeIds graph → ∃ rest, w.discovery = graph.entryNodeId :: rest) ∧
    (∀ a ∈ w.discovery, ReflTransGen (Forward w.forward) graph.entryNodeId a) ∧
    (∀ a b, Forward w.forward a b → Step graph a b) ∧
    ∀ a ∈ w.discovery, ∀ b, Step graph a b →
      Forward w.forward a b ∨ ReflTransGen (Forward w.forward) b a := by
  by_cases inGraph : graph.entryNodeId ∈ nodeIds graph
  · obtain ⟨w, ends⟩ := walk_answers (fun a _ => out_subset graph a) (nodeIds graph).length
      graph.entryNodeId {} (.start (out graph)) inGraph List.not_mem_nil List.countP_le_length
    have whole := walk_walked ends
    refine ⟨w, by rw [walked, if_pos inGraph, ends], whole.finished, whole.once, whole.layered, ?_,
      fun _ => whole.first, whole.below, whole.edges, whole.back⟩
    intro nodeId
    rw [whole.reached, Reached]
    exact ⟨fun walks => ⟨inGraph, walks⟩, And.right⟩
  · refine ⟨{}, by rw [walked, if_neg inGraph], .refl _, List.nodup_nil, trivial, ?_,
      fun is => absurd is inGraph, fun a mem => absurd mem List.not_mem_nil, ?_, ?_⟩
    · intro nodeId
      constructor
      · exact fun mem => absurd mem List.not_mem_nil
      · exact fun reached => absurd reached.1 inGraph
    · intro a b edge
      obtain ⟨nexts, mem, -⟩ := edge
      cases mem
    · exact fun a mem => absurd mem List.not_mem_nil

theorem Reached.mem (reached : Reached graph a) : a ∈ nodeIds graph := by
  obtain ⟨inGraph, walks⟩ := reached
  rcases ReflTransGen.cases_tail walks with rfl | ⟨b, -, last⟩
  · exact inGraph
  · exact out_subset graph b last

/-- The relaxation ends within the passes allowed, every forward edge's end deeper than its start
and the entry at the top. -/
theorem depths (within : w.discovery.length ≤ (nodeIds graph).length)
    (finished : w.discovery.Perm w.finished) (once : w.discovery.Nodup)
    (layered : Layered w.forward) :
    ∃ depth, relaxed ((nodeIds graph).length * (nodeIds graph).length + 1) w.discovery w.nexts =
        some depth ∧
      (∀ a b, Forward w.forward a b → depth a < depth b) ∧
      ∀ a, (∀ b, ¬Forward w.forward b a) → depth a = 0 := by
  have onceFinished : w.finished.Nodup := finished.nodup_iff.mp once
  have starts : ∀ {a b}, Forward w.forward a b → a ∈ w.discovery := by
    intro a b edge
    obtain ⟨nexts, mem, -⟩ := edge
    exact finished.mem_iff.mpr (List.mem_map_of_mem (f := Prod.fst) mem)
  have enough : (w.discovery.map fun a => w.finished.idxOf a).sum <
      (nodeIds graph).length * (nodeIds graph).length + 1 := by
    have each : ∀ rank ∈ w.discovery.map (fun a => w.finished.idxOf a),
        rank ≤ (nodeIds graph).length := by
      intro rank mem
      obtain ⟨a, -, rfl⟩ := List.mem_map.mp mem
      exact List.idxOf_le_length.trans (finished.length_eq ▸ within)
    have total := List.sum_le_card_nsmul _ _ each
    rw [List.length_map, smul_eq_mul] at total
    have square := Nat.mul_le_mul_right (nodeIds graph).length within
    omega
  obtain ⟨depth, ends, deeper, top⟩ := relaxed_layers
    (fun a _ b next => layered_idxOf_lt layered onceFinished ((mem_nexts onceFinished).mp next))
    (fun a _ b next => finished.mem_iff.mpr
      (((mem_nexts onceFinished).mp next).finished layered)) enough
  refine ⟨depth, ends, ?_, ?_⟩
  · intro a b edge
    exact deeper a (starts edge) b ((mem_nexts onceFinished).mpr edge)
  · intro a untouched
    exact top a fun b _ next => untouched b ((mem_nexts onceFinished).mp next)

/-- The order's rank of a discovered node. -/
def rankOf (depth : String → ℕ) (w : Walk String) (nodeId : String) : ℕ ×ₗ ℕ :=
  toLex (depth nodeId, w.discovery.idxOf nodeId)

theorem rankOf_lt_of_deeper {depth : String → ℕ} (deeper : depth a < depth b) :
    rankOf depth w a < rankOf depth w b :=
  Prod.Lex.toLex_lt_toLex.mpr (.inl deeper)

/-- The entry's rank is the least: no forward edge ends at it, and it was discovered first. -/
theorem rankOf_entry {depth : String → ℕ} {entry : String} {rest : List String}
    (deeper : ∀ a b, Forward w.forward a b → depth a < depth b)
    (top : ∀ a, (∀ b, ¬Forward w.forward b a) → depth a = 0)
    (below : ∀ a ∈ w.discovery, ReflTransGen (Forward w.forward) entry a)
    (starts : ∀ a b, Forward w.forward a b → a ∈ w.discovery)
    (first : w.discovery = entry :: rest) (other : b ≠ entry) :
    rankOf depth w entry < rankOf depth w b := by
  have rises : ∀ c, ReflTransGen (Forward w.forward) entry c → depth entry ≤ depth c := by
    intro c walks
    induction walks with
    | refl => exact le_rfl
    | tail _ edge ih => exact ih.trans (deeper _ _ edge).le
  have shallow : depth entry = 0 := by
    apply top
    intro c edge
    have up := rises c (below c (starts c entry edge))
    have down := deeper c entry edge
    omega
  have index : w.discovery.idxOf b ≠ 0 := by
    rw [first, List.idxOf_cons_ne _ other.symm]
    exact Nat.succ_ne_zero _
  apply Prod.Lex.toLex_lt_toLex.mpr
  rw [shallow, first, List.idxOf_cons_self, ← first]
  rcases Nat.eq_zero_or_pos (depth b) with same | deep
  · exact .inr ⟨same.symm, Nat.pos_of_ne_zero index⟩
  · exact .inl deep

/-- Some of the keys, then the others in their own order, are the keys. -/
theorem split_perm {ids some_ : List String} (onceIds : ids.Nodup) (once : some_.Nodup)
    (sub : some_ ⊆ ids) : (some_ ++ ids.filter fun id => decide (id ∉ some_)).Perm ids := by
  have same : some_.Perm (ids.filter fun id => decide (id ∈ some_)) := by
    apply (List.perm_ext_iff_of_nodup once (onceIds.filter _)).mpr
    intro id
    rw [List.mem_filter, decide_eq_true_eq]
    exact ⟨fun mem => ⟨sub mem, mem⟩, And.right⟩
  have others : (ids.filter fun id => decide (id ∉ some_)) =
      ids.filter fun id => !decide (id ∈ some_) := by
    apply List.filter_congr
    intro id _
    exact decide_not
  rw [others]
  exact (same.append_right _).trans (List.filter_append_perm _ _)

/-- The order is the graph's nodes, its entry first, every forward edge between them going later;
the nodes the entry does not reach come last, in the graph's order; and an edge out of a reached
node is forward or closes a cycle of forward ones. -/
theorem order_nodes_layers (graph : KeyedGraph) : ∃ order, orderNodes graph.toGraph = some order ∧
    order.Perm (nodeIds graph.toGraph) ∧
    (graph.entryNodeId ∈ nodeIds graph.toGraph → order.head? = some graph.entryNodeId) ∧
    (∃ reached, (∀ nodeId, nodeId ∈ reached ↔ Reached graph.toGraph nodeId) ∧
      order = reached ++ (nodeIds graph.toGraph).filter fun nodeId => decide (nodeId ∉ reached)) ∧
    (∀ a b, ForwardEdge graph.toGraph a b →
      Reached graph.toGraph a ∧ Step graph.toGraph a b ∧ order.idxOf a < order.idxOf b) ∧
    ∀ a, Reached graph.toGraph a → ∀ b, Step graph.toGraph a b →
      ForwardEdge graph.toGraph a b ∨ ReflTransGen (ForwardEdge graph.toGraph) b a := by
  obtain ⟨w, ends, finished, once, layered, reached, first, below, edges, back⟩ :=
    walked_ends graph.toGraph
  have inGraph : w.discovery ⊆ nodeIds graph.toGraph := fun a mem => ((reached a).mp mem).mem
  have within := (once.subperm inGraph).length_le
  obtain ⟨depth, relaxes, deeper, top⟩ := depths within finished once layered
  have forward : ∀ {a b}, ForwardEdge graph.toGraph a b → Forward w.forward a b := by
    rintro a b ⟨w', ends', edge⟩
    rwa [Option.some.inj (ends.symm.trans ends')]
  have starts : ∀ a b, Forward w.forward a b → a ∈ w.discovery := by
    intro a b edge
    obtain ⟨nexts, mem, -⟩ := edge
    exact finished.mem_iff.mpr (List.mem_map_of_mem (f := Prod.fst) mem)
  have is : orderNodes graph.toGraph = some (ranked (rankOf depth w) w.discovery ++
      (nodeIds graph.toGraph).filter fun nodeId => decide (nodeId ∉ w.discovery)) := by
    rw [orderNodes, ends]
    simp only [relaxes]
    rfl
  refine ⟨_, is, ?_, ?_, ⟨ranked (rankOf depth w) w.discovery, ?_, ?_⟩, ?_, ?_⟩
  · exact ((ranked_perm _ _).append_right _).trans (split_perm graph.ids once inGraph)
  · intro inside
    obtain ⟨rest, discovered⟩ := first inside
    have mem : graph.entryNodeId ∈ w.discovery := discovered ▸ List.mem_cons_self
    obtain ⟨later, head⟩ : ∃ later, ranked (rankOf depth w) w.discovery =
        graph.entryNodeId :: later :=
      ranked_head mem fun b _ other => rankOf_entry deeper top below starts discovered other
    rw [head]
    rfl
  · intro nodeId
    rw [mem_ranked, reached]
  · simp only [mem_ranked]
  · intro a b edge
    have edge' := forward edge
    have ofA := starts a b edge'
    have ofB : b ∈ w.discovery := finished.mem_iff.mpr (edge'.finished layered)
    refine ⟨(reached a).mp ofA, edges a b edge', ?_⟩
    rw [List.idxOf_append_of_mem (mem_ranked.mpr ofA), List.idxOf_append_of_mem (mem_ranked.mpr ofB)]
    exact ranked_idxOf_lt ofA ofB (rankOf_lt_of_deeper (deeper a b edge'))
  · intro a ofA b step
    have lift : ∀ a b, Forward w.forward a b → ForwardEdge graph.toGraph a b :=
      fun a b edge => ⟨w, ends, edge⟩
    exact (back a ((reached a).mpr ofA) b step).imp (lift a b) (ReflTransGen.mono lift _ _)

end Blizzard.NodeOrder
