import Blizzard.StatusLadder

/-! # Reified workflow graphs

The immutable graph a chunk is pinned to, the edge a choice keys, and the step
after a transition. -/
namespace Blizzard.WorkflowGraph
open HubTables StatusLadder

inductive JudgedBy | worker | human
  deriving DecidableEq, Repr

structure ProducesSpec where
  name : String
  kind : ArtifactKind := .asset
  deriving DecidableEq, Repr

/-- The reserved escalation a choice may point at. -/
def reservedEscalate : String := "escalate"

structure Choice where
  choiceId : String
  name : String
  description : String
  requiresChecks : Bool := false
  deriving DecidableEq, Repr

/-- A choice-keyed connection out of one node. -/
structure Edge where
  fromNodeId : String
  choiceId : String
  toNodeName : String
  promptAddendum : Option String := none
  targetGraph : Option String := none
  model : Option String := none
  deriving DecidableEq, Repr

/-- Whether taking this edge escalates the chunk rather than moving it. -/
def Edge.escalates (edge : Edge) : Bool := decide (edge.toNodeName = reservedEscalate)

structure Node where
  nodeId : String
  graphId : String
  name : String
  executor : Executor
  produces : List ProducesSpec := []
  judgedBy : JudgedBy := .worker
  choices : List Choice := []
  action : Option String := none
  actionArgs : List (String × List String) := []
  deriving DecidableEq, Repr

structure Graph where
  graphId : String
  name : String
  entryNodeId : String
  nodes : List Node
  edges : List Edge
  deriving DecidableEq, Repr

namespace Graph
variable (graph : Graph)

def nodeByName (name : String) : Option Node := graph.nodes.find? fun n => decide (n.name = name)

def nodeById (nodeId : String) : Option Node := graph.nodes.find? fun n => decide (n.nodeId = nodeId)

def edgesFrom (nodeId : String) : List Edge :=
  graph.edges.filter fun e => decide (e.fromNodeId = nodeId)

/-- The ids of the choices of one name on the nodes of one id. -/
def choiceIds (nodeId choiceName : String) : List String :=
  (graph.nodes.filter fun n => decide (n.nodeId = nodeId)).flatMap fun n =>
    (n.choices.filter fun c => decide (c.name = choiceName)).map (·.choiceId)

/-- The edge a node's judgement choice keys, matched by choice name. -/
def edgeForChoice (nodeId choiceName : String) : Option Edge :=
  graph.edges.find? fun e =>
    decide (e.fromNodeId = nodeId) && decide (e.choiceId ∈ graph.choiceIds nodeId choiceName)

/-- The graph name a choice crosses into, `none` when it stays. -/
def crossGraphTargetName (fromNodeId choiceName : String) : Option String :=
  match graph.nodeById fromNodeId with
  | none => none
  | some _ => (graph.edgeForChoice fromNodeId choiceName).bind (·.targetGraph)

end Graph

/-- Where an edge routes inside its own graph, `none` for a name no node there carries. -/
def destination (graph : Graph) (edge : Edge) : Option String :=
  if edge.toNodeName = reservedTerminal then some reservedTerminal
  else (graph.nodeByName edge.toNodeName).map (·.nodeId)

/-- What a recorded transition hands the runner next. -/
inductive NextStep
  | done
  | missing
  | hubTakes (node : Node)
  | gate (node : Node)
  | advance (node : Node)
  deriving DecidableEq, Repr

/-- The step after a transition into `toNodeId`. -/
def NextStep.of (graph : Graph) (toNodeId : String) : NextStep :=
  if toNodeId = reservedTerminal then .done
  else
    match graph.nodeById toNodeId with
    | none => .missing
    | some node =>
      if node.executor = .hub then .hubTakes node
      else if node.judgedBy = .human then .gate node
      else .advance node

/-- The chunk's current node: the newest movement's target, else the graph's entry. -/
def currentNode (facts : ChunkFacts) (graph : Graph) : Option Node :=
  let standing := facts.currentNodeId.filter fun nodeId => decide (nodeId ≠ "")
  graph.nodeById (standing.getD graph.entryNodeId)

end Blizzard.WorkflowGraph
