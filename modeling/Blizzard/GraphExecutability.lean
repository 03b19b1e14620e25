import Mathlib.Data.Nat.Pairing
import Blizzard.ExceptRules
import Blizzard.GraphReification

/-! # Accepted definitions execute

One static check covers every dynamic lookup: the completion plan, the step after a transition
and the hub's router each find what they look up in the graph of an accepted definition, exactly
where no two keys of one mapping have become one name. -/
namespace Blizzard.GraphExecutability
open HubTables StatusLadder WorkflowGraph GraphDocuments GraphValidation CompletionPlans
open GraphReification ExceptRules

/-! ## The hub's router -/

/-- Where a hub answer routes, before any lock is taken. -/
inductive HubDestination
  | transition (toNodeId toNodeName : String)
  | migrate (target : Graph) (nodeId : String) (model : Option String)
  | escalate (targetGraph : String)
  | unroutable (toNode : Option String)

/-- The node a migration lands on: the same-named node, else the entry. -/
def landingNode (target : Graph) (fromNodeName : String) : String :=
  ((target.nodeByName fromNodeName).map (·.nodeId)).getD target.entryNodeId

/-- Where `choice` routes from a hub node; `enabledByName` reads the enabled graph of a name. -/
def hubDestination (enabledByName : String → Option Graph) (graph : Graph) (node : Node)
    (choice : String) : HubDestination :=
  match graph.edgeForChoice node.nodeId choice with
  | none => .unroutable none
  | some edge =>
    match edge.targetGraph with
    | some name =>
      match enabledByName name with
      | none => .escalate name
      | some target => .migrate target (landingNode target node.name) edge.model
    | none =>
      match destination graph edge with
      | none => .unroutable (some edge.toNodeName)
      | some toNodeId => .transition toNodeId edge.toNodeName

def HubDestination.routes : HubDestination → Bool
  | .unroutable _ => false
  | _ => true

/-! ## What execution asks of a graph -/

/-- Every lookup an execution of the graph makes by a name it was given finds what it names. -/
structure Executable (catalogue : HubActionCatalogue) (graph : Graph) (entry : String) : Prop where
  nodeNames : (graph.nodes.map (·.name)).Nodup
  choiceNames : ∀ node ∈ graph.nodes, (node.choices.map (·.name)).Nodup
  entryNode : ∃ node ∈ graph.nodes, node.name = entry ∧
    graph.nodeById graph.entryNodeId = some node
  nodeIds : ∀ node ∈ graph.nodes, graph.nodeById node.nodeId = some node
  edgeTargets : ∀ edge ∈ graph.edges, edge.targetGraph.isSome ∨ edge.escalates ∨
    edge.toNodeName = reservedTerminal ∨ ∃ node ∈ graph.nodes, node.name = edge.toNodeName
  choiceEdges : ∀ node ∈ graph.nodes, ∀ choice ∈ node.choices, ∃ edge ∈ graph.edges,
    graph.edgeForChoice node.nodeId choice.name = some edge ∧ edge.choiceId = choice.choiceId
  plain : ∀ node ∈ graph.nodes, ∀ choice ∈ node.choices, ∀ submission : Completion,
    submission.choice = choice.name → ∀ openGate mode,
      (∀ refused, CompletionPlan.plain graph node submission openGate mode = .error refused →
        refused.unknown = false) ∧
      ∀ plan, CompletionPlan.plain graph node submission openGate mode = .ok plan →
        ∀ toNodeId, plan.toNodeId = some toNodeId → NextStep.of graph toNodeId ≠ .missing
  resolving : ∀ node ∈ graph.nodes, ∀ choice ∈ node.choices, ∀ submission : Completion,
    submission.choice = choice.name → ∀ decision chunkId visitEpoch,
      (∀ refused, CompletionPlan.resolving graph node submission decision chunkId visitEpoch
        = .error refused → refused.unknown = false) ∧
      ∀ plan, CompletionPlan.resolving graph node submission decision chunkId visitEpoch
        = .ok plan →
        ∀ toNodeId, plan.toNodeId = some toNodeId → NextStep.of graph toNodeId ≠ .missing
  hubAnswers : ∀ node ∈ graph.nodes, node.executor = .hub → ∃ action spec,
    node.action = some action ∧ catalogue.get action = some spec ∧
      ∀ answer, (answer ∈ spec.answersFor node.actionArgs ∧ answer ∉ reservedWaits) ∨
        answer = hubDefaultFailureChoice →
      ∀ enabledByName, (hubDestination enabledByName graph node answer).routes = true

/-! ## Names are the texts of keys -/

/-- The names the keys of `nodes` become. -/
def nodeKeys (raw : Body) : List String :=
  match nodesBody raw with
  | .ok entries => entries.map fun entry => entry.1.text
  | .error _ => []

/-- The names the keys of one node's `choices` become. -/
def choiceKeysOf (raw : Value) : List String :=
  match raw with
  | .map _ body =>
    match Body.get body "judgement" with
    | some (.map _ judgement) =>
      match choicesBody judgement with
      | .ok entries => entries.map fun entry => entry.1.text
      | .error _ => []
    | _ => []
  | _ => []

/-- No two keys of `nodes`, nor of one node's `choices`, have one text. -/
structure DistinctKeys (raw : Body) : Prop where
  nodes : (nodeKeys raw).Nodup
  choices : ∀ entries, nodesBody raw = .ok entries → ∀ entry ∈ entries,
    (choiceKeysOf entry.2).Nodup

theorem read_map {α β γ : Type} {f : α → Read β} {g : β → γ} {k : α → γ}
    (kept : ∀ x y, f x = .ok y → g y = k x) {xs : List α} {ys : List β}
    (read : List.Forall₂ (fun x y => f x = .ok y) xs ys) : ys.map g = xs.map k := by
  induction read with
  | nil => rfl
  | cons hxy _ ih => rw [List.map_cons, List.map_cons, kept _ _ hxy, ih]

theorem read_mem {α β : Type} {f : α → Read β} {xs : List α} {ys : List β}
    (read : List.Forall₂ (fun x y => f x = .ok y) xs ys) {y : β} (hy : y ∈ ys) :
    ∃ x ∈ xs, f x = .ok y := by
  induction read with
  | nil => exact absurd hy List.not_mem_nil
  | cons hxy _ ih =>
    rcases List.mem_cons.mp hy with rfl | hy
    · exact ⟨_, List.mem_cons_self, hxy⟩
    · obtain ⟨x, hx, hfx⟩ := ih hy
      exact ⟨x, List.mem_cons_of_mem _ hx, hfx⟩

/-- What a choice document keeps of its key and its target. -/
theorem choiceDoc_of {key raw : Value} {choice : ChoiceDoc} (h : ChoiceDoc.of key raw = .ok choice) :
    choice.name = key.text ∧
      choice.targetGraph = choice.to_.bind fun target => (ChoiceTarget.of target).graph := by
  unfold ChoiceDoc.of at h
  cases hbody : parserOf raw key.repr with
  | error e => rw [hbody] at h; cases h
  | ok body =>
    rw [hbody] at h
    cases h
    exact ⟨rfl, rfl⟩

/-- What the choices of a judgement keep of the keys of its mapping. -/
theorem judgementDoc_of {body : Body} {judgement : Option JudgementDoc}
    {text : String} (h : JudgementDoc.of (Body.get body "judgement") = .ok judgement) :
    ((judgement.map (·.choices)).getD []).map (·.name) = choiceKeysOf (.map text body) ∧
      ∀ choice ∈ (judgement.map (·.choices)).getD [],
        choice.targetGraph = choice.to_.bind fun target => (ChoiceTarget.of target).graph := by
  unfold JudgementDoc.of at h
  unfold choiceKeysOf
  split at h
  · next hnone =>
    cases h
    simp [hnone]
  · next hnull =>
    cases h
    simp [hnull]
  · next jtext jbody hmap =>
    obtain ⟨judge, -, h⟩ := bind_ok h
    obtain ⟨entries, hentries, h⟩ := bind_ok h
    obtain ⟨choices, hchoices, h⟩ := bind_ok h
    cases h
    simp only [hmap, hentries, Option.map_some, Option.getD_some]
    constructor
    · exact read_map (fun entry choice hread => (choiceDoc_of hread).1) (mapM_ok hchoices)
    · intro choice hchoice
      obtain ⟨entry, -, hread⟩ := read_mem (mapM_ok hchoices) hchoice
      exact (choiceDoc_of hread).2
  · cases h

/-- What a node document keeps of its key and of its choices' keys. -/
theorem nodeDoc_of {key raw : Value} {node : NodeDoc} (h : NodeDoc.of key raw = .ok node) :
    node.name = key.text ∧ (choiceDocs node).map (·.name) = choiceKeysOf raw ∧
      ∀ choice ∈ choiceDocs node,
        choice.targetGraph = choice.to_.bind fun target => (ChoiceTarget.of target).graph := by
  unfold NodeDoc.of at h
  obtain ⟨body, hbody, h⟩ := bind_ok h
  obtain ⟨executor, -, h⟩ := bind_ok h
  obtain ⟨checks, -, h⟩ := bind_ok h
  obtain ⟨produced, -, h⟩ := bind_ok h
  obtain ⟨produces, -, h⟩ := bind_ok h
  obtain ⟨interval, -, h⟩ := bind_ok h
  obtain ⟨timeout, -, h⟩ := bind_ok h
  obtain ⟨checksTimeout, -, h⟩ := bind_ok h
  obtain ⟨args, -, h⟩ := bind_ok h
  obtain ⟨judgement, hjudgement, h⟩ := bind_ok h
  cases h
  have hraw : ∃ text, raw = .map text body := by
    unfold parserOf at hbody
    split at hbody
    · next text entries =>
      cases hbody
      exact ⟨text, rfl⟩
    · cases hbody
  obtain ⟨text, rfl⟩ := hraw
  exact ⟨rfl, judgementDoc_of hjudgement⟩

/-- The names of a parsed definition are the texts of its keys, and each choice carries the graph
its target names. -/
theorem graphDoc_of {hubVersion : String} {raw : Body} {doc : GraphDoc}
    (h : GraphDoc.of hubVersion raw = .ok doc) : ∃ entries, nodesBody raw = .ok entries ∧
      List.Forall₂ (fun entry node => NodeDoc.of entry.1 entry.2 = .ok node) entries doc.nodes := by
  unfold GraphDoc.of at h
  obtain ⟨name, -, h⟩ := bind_ok h
  obtain ⟨entry, -, h⟩ := bind_ok h
  obtain ⟨entries, hentries, h⟩ := bind_ok h
  obtain ⟨nodes, hnodes, h⟩ := bind_ok h
  obtain ⟨sessions, -, h⟩ := bind_ok h
  obtain ⟨artifacts, -, h⟩ := bind_ok h
  cases h
  exact ⟨entries, hentries, mapM_ok hnodes⟩

theorem graphDoc_keys {hubVersion : String} {raw : Body} {doc : GraphDoc}
    (h : GraphDoc.of hubVersion raw = .ok doc) :
    doc.nodes.map (·.name) = nodeKeys raw ∧
      (DistinctKeys raw ↔ (doc.nodes.map (·.name)).Nodup ∧
        ∀ node ∈ doc.nodes, ((choiceDocs node).map (·.name)).Nodup) := by
  obtain ⟨entries, hentries, hread⟩ := graphDoc_of h
  have hnames : doc.nodes.map (·.name) = nodeKeys raw := by
    rw [nodeKeys, hentries]
    exact read_map (fun entry node hnode => (nodeDoc_of hnode).1) hread
  have hchoices : doc.nodes.map (fun node => (choiceDocs node).map (·.name))
      = entries.map fun entry => choiceKeysOf entry.2 :=
    read_map (fun entry node hnode => (nodeDoc_of hnode).2.1) hread
  refine ⟨hnames, ?_, ?_⟩
  · intro hdistinct
    refine ⟨hnames ▸ hdistinct.nodes, fun node hnode => ?_⟩
    have hmem : (choiceDocs node).map (·.name) ∈
        entries.map fun entry => choiceKeysOf entry.2 := by
      rw [← hchoices]
      exact List.mem_map.mpr ⟨node, hnode, rfl⟩
    obtain ⟨entry, hentry, hkeys⟩ := List.mem_map.mp hmem
    rw [← hkeys]
    exact hdistinct.choices entries hentries entry hentry
  · rintro ⟨hnodes, hnodup⟩
    refine ⟨hnames ▸ hnodes, fun entries' hentries' entry hentry => ?_⟩
    rw [hentries] at hentries'
    cases hentries'
    have hmem : choiceKeysOf entry.2 ∈
        doc.nodes.map fun node => (choiceDocs node).map (·.name) := by
      rw [hchoices]
      exact List.mem_map.mpr ⟨entry, hentry, rfl⟩
    obtain ⟨node, hnode, hkeys⟩ := List.mem_map.mp hmem
    rw [← hkeys]
    exact hnodup node hnode

/-! ## Where an accepted choice leads -/

theorem nodeByName_some {graph : Graph} {name : String} {node : Node}
    (h : graph.nodeByName name = some node) : node ∈ graph.nodes ∧ node.name = name := by
  have hname := List.find?_some (p := fun n : Node => decide (n.name = name)) h
  exact ⟨List.mem_of_find?_eq_some h, of_decide_eq_true hname⟩

section accepted
variable {catalogue : HubActionCatalogue} {doc : GraphDoc} (ids : UlidSupply)
variable (names : (doc.nodes.map (·.name)).Nodup)

include names in
/-- A name of the document has its node's id as destination. -/
theorem destination_named {edge : Edge} (hname : edge.toNodeName ∈ nodeNames doc) :
    (destination (reified doc ids) edge).isSome := by
  unfold destination
  split
  · rfl
  · obtain ⟨node, hnode, hname⟩ := List.mem_map.mp hname
    obtain ⟨i, hi⟩ := List.mem_iff_getElem?.mp hnode
    rw [← hname, nodeByName_at ids names hi]
    rfl

include names in
/-- An accepted choice's edge crosses graphs, escalates a runner's chunk, or has a destination. -/
theorem edge_known {node : NodeDoc} {i p : ℕ} {choice : ChoiceDoc}
    (hchoice : choice ∈ choiceDocs node)
    (accepted : NodeAccepted catalogue (nodeNames doc) node)
    (parsed : choice.targetGraph = choice.to_.bind fun target => (ChoiceTarget.of target).graph) :
    let edge := edgeOf doc ids node i (choice, p)
    edge.targetGraph.isSome ∨ (edge.escalates ∧ node.executor ≠ .hub) ∨
      (destination (reified doc ids) edge).isSome := by
  obtain ⟨target, hto, hwell, hhub, hresolves⟩ := accepted.targets choice hchoice
  have hname : toNodeName choice = if target = "" then reservedTerminal else target := by
    simp [toNodeName, hto]
  have hgraph : (edgeOf doc ids node i (choice, p)).targetGraph
      = (ChoiceTarget.of target).graph := by
    rw [show (edgeOf doc ids node i (choice, p)).targetGraph = choice.targetGraph from rfl, parsed,
      hto]
    rfl
  cases hnode : (ChoiceTarget.of target).node with
  | none =>
    left
    rw [hgraph]
    simpa [ChoiceTarget.malformed, hnode] using hwell
  | some toNode =>
    have hsame : toNode = target := by
      unfold ChoiceTarget.of at hnode
      split at hnode
      · simp only at hnode
        split at hnode <;> cases hnode
      · exact (Option.some.inj hnode).symm
    subst hsame
    by_cases hempty : toNode = ""
    · right; right
      have hterminal : (edgeOf doc ids node i (choice, p)).toNodeName = reservedTerminal := by
        rw [show (edgeOf doc ids node i (choice, p)).toNodeName = toNodeName choice from rfl,
          hname, if_pos hempty]
      simp [destination, hterminal]
    · have hedge : (edgeOf doc ids node i (choice, p)).toNodeName = toNode := by
        rw [show (edgeOf doc ids node i (choice, p)).toNodeName = toNodeName choice from rfl,
          hname, if_neg hempty]
      rcases hresolves toNode hnode with hesc | hdone | hnamed
      · right; left
        exact ⟨by simp [Edge.escalates, hedge, hesc], hhub (hesc ▸ hnode)⟩
      · right; right
        simp [destination, hedge, hdone]
      · right; right
        apply destination_named ids names
        rw [hedge]
        exact hnamed

include names in
/-- The step after a transition to an edge's destination is never missing. -/
theorem next_present {edge : Edge} {toNodeId : String}
    (hdest : destination (reified doc ids) edge = some toNodeId) :
    NextStep.of (reified doc ids) toNodeId ≠ .missing := by
  have hfound : toNodeId = reservedTerminal ∨
      ∃ node, (reified doc ids).nodeById toNodeId = some node := by
    unfold destination at hdest
    split at hdest
    · exact .inl (Option.some.inj hdest).symm
    · right
      obtain ⟨node, hnode, rfl⟩ := Option.map_eq_some_iff.mp hdest
      have hmem := List.mem_of_find?_eq_some hnode
      obtain ⟨nd, i, hnd, rfl⟩ := mem_reified_nodes.mp hmem
      rw [nodeOf_nodeId ids names hnd]
      exact ⟨_, nodeById_at ids names hnd⟩
  rcases hfound with rfl | ⟨node, hnode⟩
  · simp [NextStep.of]
  · unfold NextStep.of
    split
    · simp
    · rw [hnode]
      simp only
      split
      · simp
      · split <;> simp

end accepted

/-! ## Executability -/

section law
variable {hubVersion : String} {catalogue : HubActionCatalogue} {raw : Body} {doc : GraphDoc}

/-- A definition accepted with distinct names executes. -/
theorem executable_of_distinct (ids : UlidSupply) (parsed : GraphDoc.of hubVersion raw = .ok doc)
    (accepted : validate hubVersion catalogue doc = [])
    (names : (doc.nodes.map (·.name)).Nodup)
    (choices : ∀ node ∈ doc.nodes, ((choiceDocs node).map (·.name)).Nodup) :
    Executable catalogue (reified doc ids) doc.entry := by
  obtain ⟨hentry, -, haccepted⟩ := validate_accepted accepted
  obtain ⟨entries, -, hread⟩ := graphDoc_of parsed
  have htarget : ∀ node ∈ doc.nodes, ∀ choice ∈ choiceDocs node,
      choice.targetGraph = choice.to_.bind fun target => (ChoiceTarget.of target).graph := by
    intro node hnode
    obtain ⟨entry, -, hnode⟩ := read_mem hread hnode
    exact (nodeDoc_of hnode).2.2
  have hknown : ∀ {node : NodeDoc} {i p : ℕ} {choice : ChoiceDoc}, doc.nodes[i]? = some node →
      (choiceDocs node)[p]? = some choice →
      let edge := edgeOf doc ids node i (choice, p)
      edge.targetGraph.isSome ∨ (edge.escalates ∧ node.executor ≠ .hub) ∨
        (destination (reified doc ids) edge).isSome := by
    intro node i p choice hnode hchoice
    have hmem := List.mem_of_getElem? hnode
    have hcmem := List.mem_of_getElem? hchoice
    exact edge_known ids names hcmem (haccepted node hmem) (htarget node hmem choice hcmem)
  have hkeyed : ∀ {node : NodeDoc} {i p : ℕ} {choice : ChoiceDoc}, doc.nodes[i]? = some node →
      (choiceDocs node)[p]? = some choice →
      (reified doc ids).edgeForChoice (nodeOf doc ids (node, i)).nodeId choice.name
        = some (edgeOf doc ids node i (choice, p)) := by
    intro node i p choice hnode hchoice
    rw [nodeOf_nodeId ids names hnode]
    exact edgeForChoice_at ids names hnode hchoice (choices node (List.mem_of_getElem? hnode))
  have hplan : ∀ {edge : Edge} {choice : String} {plan : CompletionPlan},
      planAlong (reified doc ids) edge choice = .ok plan →
      ∀ toNodeId, plan.toNodeId = some toNodeId →
        NextStep.of (reified doc ids) toNodeId ≠ .missing := by
    intro edge choice plan hplan toNodeId hto
    exact next_present ids names ((planAlong_lands hplan).2 toNodeId hto)
  constructor
  case nodeNames => exact reified_node_names ▸ names
  case choiceNames =>
    intro node hnode
    obtain ⟨nd, i, hnd, rfl⟩ := mem_reified_nodes.mp hnode
    rw [nodeOf_choice_names]
    exact choices nd (List.mem_of_getElem? hnd)
  case entryNode =>
    obtain ⟨nd, hnd, hname⟩ := List.mem_map.mp hentry
    obtain ⟨i, hi⟩ := List.mem_iff_getElem?.mp hnd
    refine ⟨nodeOf doc ids (nd, i), mem_reified_nodes.mpr ⟨nd, i, hi, rfl⟩, hname, ?_⟩
    have hid : (reified doc ids).entryNodeId = nodeIdAt ids i := by
      rw [reified, ← hname]
      exact nodeIdOf_at ids names hi
    rw [hid]
    exact nodeById_at ids names hi
  case nodeIds =>
    intro node hnode
    obtain ⟨nd, i, hnd, rfl⟩ := mem_reified_nodes.mp hnode
    rw [nodeOf_nodeId ids names hnd]
    exact nodeById_at ids names hnd
  case edgeTargets =>
    intro edge hedge
    obtain ⟨nd, i, c, p, hnd, hc, rfl⟩ := mem_reified_edges.mp hedge
    rcases hknown hnd hc with hgraph | ⟨hesc, -⟩ | hdest
    · exact .inl hgraph
    · exact .inr (.inl hesc)
    · right; right
      unfold destination at hdest
      split at hdest
      · next hterminal => exact .inl hterminal
      · right
        obtain ⟨node, hnode⟩ := Option.isSome_iff_exists.mp (Option.isSome_map .. ▸ hdest)
        exact ⟨node, nodeByName_some hnode⟩
  case choiceEdges =>
    intro node hnode choice hchoice
    obtain ⟨nd, i, hnd, rfl⟩ := mem_reified_nodes.mp hnode
    obtain ⟨c, p, hc, rfl⟩ := mem_nodeOf_choices.mp hchoice
    exact ⟨_, mem_reified_edges.mpr ⟨nd, i, c, p, hnd, hc, rfl⟩, hkeyed hnd hc, rfl⟩
  case plain =>
    intro node hnode choice hchoice submission hsub openGate mode
    obtain ⟨nd, i, hnd, rfl⟩ := mem_reified_nodes.mp hnode
    obtain ⟨c, p, hc, rfl⟩ := mem_nodeOf_choices.mp hchoice
    have hedge := hkeyed hnd hc
    rw [show c.name = submission.choice from hsub.symm] at hedge
    have hedge_known := (hknown hnd hc).imp_right (Or.imp_left And.left)
    refine ⟨fun refused h => plain_known hedge hedge_known openGate mode h, fun plan h => ?_⟩
    obtain ⟨edge, -, halong⟩ := plain_along h
    exact hplan halong
  case resolving =>
    intro node hnode choice hchoice submission hsub decision chunkId visitEpoch
    obtain ⟨nd, i, hnd, rfl⟩ := mem_reified_nodes.mp hnode
    obtain ⟨c, p, hc, rfl⟩ := mem_nodeOf_choices.mp hchoice
    have hedge := hkeyed hnd hc
    rw [show c.name = submission.choice from hsub.symm] at hedge
    have hedge_known := (hknown hnd hc).imp_right (Or.imp_left And.left)
    refine ⟨fun refused h => resolving_known hedge hedge_known decision chunkId visitEpoch h,
      fun plan h => ?_⟩
    obtain ⟨edge, -, halong⟩ := resolving_along h
    exact hplan halong
  case hubAnswers =>
    intro node hnode hhub
    obtain ⟨nd, i, hnd, rfl⟩ := mem_reified_nodes.mp hnode
    have hacc := haccepted nd (List.mem_of_getElem? hnd)
    obtain ⟨action, spec, haction, hspec, hanswers⟩ := hacc.answers hhub
    refine ⟨action, spec, haction, hspec, fun answer hanswer enabledByName => ?_⟩
    have hauthored : answer ∈ (choiceDocs nd).map (·.name) := by
      rcases hanswer with ⟨hmem, hwait⟩ | rfl
      · exact hanswers answer hmem hwait
      · exact hacc.failure hhub
    obtain ⟨c, hc, rfl⟩ := List.mem_map.mp hauthored
    obtain ⟨p, hp⟩ := List.mem_iff_getElem?.mp hc
    have hedge := hkeyed hnd hp
    unfold hubDestination
    rw [hedge]
    simp only
    rcases hknown hnd hp with hgraph | ⟨-, hrunner⟩ | hdest
    · obtain ⟨name, hname⟩ := Option.isSome_iff_exists.mp hgraph
      rw [hname]
      simp only
      split <;> rfl
    · exact absurd hhub hrunner
    · obtain ⟨toNodeId, hto⟩ := Option.isSome_iff_exists.mp hdest
      rw [hto]
      split
      · split <;> rfl
      · rfl

/-- Every accepted definition executes exactly where the names its keys become are distinct. -/
theorem accepted_executable_iff (hubVersion : String) (ids : UlidSupply)
    (parsed : GraphDoc.of hubVersion raw = .ok doc)
    (accepted : validate hubVersion catalogue doc = []) :
    Executable catalogue (reified doc ids) doc.entry ↔ DistinctKeys raw := by
  rw [(graphDoc_keys parsed).2]
  constructor
  · intro executable
    have hnames := executable.nodeNames
    rw [reified_node_names] at hnames
    refine ⟨hnames, fun nd hnd => ?_⟩
    obtain ⟨i, hi⟩ := List.mem_iff_getElem?.mp hnd
    have hchoices := executable.choiceNames _ (mem_reified_nodes.mpr ⟨nd, i, hi, rfl⟩)
    rwa [nodeOf_choice_names] at hchoices
  · rintro ⟨names, choices⟩
    exact executable_of_distinct ids parsed accepted names choices

end law

/-! ## Definitions at the edge of the law -/

/-- A worker node of two choices as authored. -/
def workerNode (choices : Body) : Value :=
  .map "" [(.str "judgement", .map "" [(.str "prompt", .str "Judge."),
    (.str "choices", .map "" choices)])]

def choiceTo (target : String) : Value :=
  .map "" [(.str "description", .str "Go on."), (.str "to", .str target)]

def definition (nodes : Body) : Body :=
  [(.str "name", .str "demo"), (.str "entry", .str "1"), (.str "nodes", .map "" nodes)]

/-- ULIDs told apart by their lengths. -/
def countedUlids : UlidSupply where
  graphUlid := ""
  nodeUlid i := String.ofList (List.replicate i '0')
  choiceUlid i p := String.ofList (List.replicate (Nat.pair i p) '0')
  node_distinct i j h := by
    have hlength := congrArg List.length (String.ofList_injective h)
    simpa using hlength
  choice_distinct i p j q h := by
    have hlength := congrArg List.length (String.ofList_injective h)
    exact Nat.pair_eq_pair.mp (by simpa using hlength)

/-- The law at a definition with one node and two choices. -/
theorem accepted_executable_two_choices :
    ∃ doc, GraphDoc.of "1" (definition [(.int 1, workerNode
        [(.str "ok", choiceTo "done"), (.str "help", choiceTo "escalate")])]) = .ok doc ∧
      validate "1" shippedCatalogue doc = [] ∧
      (Executable shippedCatalogue (reified doc countedUlids) doc.entry ↔
        DistinctKeys (definition [(.int 1, workerNode
          [(.str "ok", choiceTo "done"), (.str "help", choiceTo "escalate")])])) :=
  ⟨_, rfl, by decide +kernel, accepted_executable_iff "1" countedUlids rfl (by decide +kernel)⟩

/-- The keys `1` and `"1"` are two keys of a mapping and one name: the validator accepts the
definition, and its compiled graph has two nodes of one name. -/
theorem accepted_with_one_name_twice :
    ∃ doc, GraphDoc.of "1" (definition [(.int 1, workerNode [(.str "ok", choiceTo "done")]),
        (.str "1", workerNode [(.str "retry", choiceTo "1")])]) = .ok doc ∧
      validate "1" shippedCatalogue doc = [] ∧
      ¬ ((reified doc countedUlids).nodes.map (·.name)).Nodup ∧
      ¬ Executable shippedCatalogue (reified doc countedUlids) doc.entry :=
  ⟨_, rfl, by decide +kernel, by decide +kernel,
    fun executable => absurd executable.nodeNames (by decide +kernel)⟩

end Blizzard.GraphExecutability
