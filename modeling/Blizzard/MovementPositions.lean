import Blizzard.SortedRanks
import Blizzard.ExceptRules
import Blizzard.FactLoading
import Blizzard.WorkflowGraph

/-! # Where a chunk stood at an instant

The tracing fold: every movement fact an arrival, led by the placement at the
entry of the graph the chunk started in, and the last arrival recorded by an
instant the position there. -/
namespace Blizzard.MovementPositions
open HubTables StatusLadder WorkflowGraph SortedRanks

abbrev ArrivalKey := ℤ ×ₗ ℤ ×ₗ ℤ

/-- One arrival of the chunk at a node; the implicit entry placement has rank `-1`. -/
structure Arrival where
  recordedAt : Instant
  epoch : ℤ
  rank : ℤ
  graphId : String
  nodeId : String
  nodeName : String
  deriving DecidableEq, Repr

def Arrival.order (arrival : Arrival) : ArrivalKey :=
  toLex (arrival.recordedAt, toLex (arrival.epoch, arrival.rank))

/-- The chunk's graph and node at an instant, and which arrival at that node's name it is. -/
structure Position where
  graphId : String
  nodeId : String
  nodeName : String
  visit : ℕ
  deriving DecidableEq, Repr

structure TracedTransition where
  epoch : ℤ
  recordedAt : Instant
  graphId : String
  toNodeId : String
  deriving DecidableEq, Repr

structure TracedMigration where
  epoch : ℤ
  recordedAt : Instant
  fromGraphId : String
  toGraphId : String
  fromNodeId : Option String := none
  landedNodeId : Option String := none
  source : Option MigrationSource := none
  deriving DecidableEq, Repr

structure TracedRestart where
  epoch : ℤ
  recordedAt : Instant
  graphId : String
  toNodeId : String
  fromGraphId : Option String := none
  deriving DecidableEq, Repr

/-- What the fold reads of a chunk: its movement facts, the graphs they name, and its current pin. -/
structure StepFacts where
  graphs : List Graph := []
  pinGraphId : Option String := none
  transitions : List TracedTransition := []
  migrations : List TracedMigration := []
  restarts : List TracedRestart := []
  deriving DecidableEq, Repr

/-- A lookup that found nothing. -/
inductive LookupError
  | graph (graphId : String)
  | node (nodeId graphId : String)
  | pin
  | earliest
  | noArrival
  deriving DecidableEq, Repr

def initialRank : ℤ := -1

/-- The least instant a `datetime` names. -/
def beginning : Instant := -62135596800000000

/-- The place of a movement in time, its kind's rank breaking an exact tie. -/
def orderKey (kind : MovementKind) (recordedAt : Instant) (epoch : ℤ) : ArrivalKey :=
  toLex (recordedAt, toLex (epoch, (kind.rank : ℤ)))

/-- The node a migration lands on: the one of the left node's name, else the entry. -/
def landingNode (targetGraph : Graph) (fromNodeName : Option String) : String :=
  match fromNodeName.bind targetGraph.nodeByName with
  | some node => node.nodeId
  | none => targetGraph.entryNodeId

/-- `value or …`: an empty text counts as none. -/
def orElse (value : Option String) (other : Except LookupError String) :
    Except LookupError String :=
  match value with
  | some text => if text = "" then other else .ok text
  | none => other

namespace StepFacts
variable (facts : StepFacts)

def graph (graphId : String) : Except LookupError Graph :=
  match facts.graphs.find? fun graph => decide (graph.graphId = graphId) with
  | some graph => .ok graph
  | none => .error (.graph graphId)

def nodeName (graphId nodeId : String) : Except LookupError String :=
  if nodeId = reservedTerminal then .ok reservedTerminal
  else do
    let graph ← facts.graph graphId
    match graph.nodeById nodeId with
    | some node => .ok node.name
    | none => .error (.node nodeId graphId)

def landed (migrationFrom : Option String) (fromGraphId toGraphId : String) :
    Except LookupError String := do
  let fromName ← match migrationFrom with
    | some node => (facts.nodeName fromGraphId node).map some
    | none => .ok none
  let graph ← facts.graph toGraphId
  return landingNode graph fromName

/-- The migrations that arrive on their own; a restart's is folded into its restart. -/
def movementMigrations : List TracedMigration :=
  facts.migrations.filter fun migration => decide (migration.source ≠ some .restart)

def transitionArrival (transition : TracedTransition) : Except LookupError Arrival := do
  let name ← facts.nodeName transition.graphId transition.toNodeId
  return ⟨transition.recordedAt, transition.epoch, MovementKind.transition.rank,
    transition.graphId, transition.toNodeId, name⟩

def migrationArrival (migration : TracedMigration) : Except LookupError Arrival := do
  let landed ← orElse migration.landedNodeId
    (facts.landed migration.fromNodeId migration.fromGraphId migration.toGraphId)
  let name ← facts.nodeName migration.toGraphId landed
  return ⟨migration.recordedAt, migration.epoch, MovementKind.migration.rank, migration.toGraphId,
    landed, name⟩

def restartArrival (restart : TracedRestart) : Except LookupError Arrival := do
  let name ← facts.nodeName restart.graphId restart.toNodeId
  return ⟨restart.recordedAt, restart.epoch, MovementKind.restart.rank, restart.graphId,
    restart.toNodeId, name⟩

/-- Every movement fact as an arrival, in order. -/
def movementArrivals : Except LookupError (List Arrival) := do
  let transitions ← facts.transitions.mapM facts.transitionArrival
  let migrations ← facts.movementMigrations.mapM facts.migrationArrival
  let restarts ← facts.restarts.mapM facts.restartArrival
  return ranked Arrival.order (transitions ++ migrations ++ restarts)

/-- The graph the chunk stood in before its first movement. -/
def startingGraphId (arrivals : List Arrival) : Except LookupError String :=
  match arrivals with
  | [] =>
    match facts.pinGraphId with
    | some graphId => .ok graphId
    | none => .error .pin
  | first :: _ =>
    match facts.transitions.find? fun t =>
        decide (orderKey .transition t.recordedAt t.epoch = first.order) with
    | some transition => .ok transition.graphId
    | none =>
      match facts.movementMigrations.find? fun m =>
          decide (orderKey .migration m.recordedAt m.epoch = first.order) with
      | some migration => .ok migration.fromGraphId
      | none =>
        match facts.restarts.find? fun r =>
            decide (orderKey .restart r.recordedAt r.epoch = first.order) with
        | some restart => orElse restart.fromGraphId (.ok restart.graphId)
        | none => .error .earliest

/-- The placement at the entry of the graph the chunk started in. -/
def entryArrival (arrivals : List Arrival) : Except LookupError Arrival := do
  let graph ← facts.graph (← facts.startingGraphId arrivals)
  let name ← facts.nodeName graph.graphId graph.entryNodeId
  return ⟨beginning, 0, initialRank, graph.graphId, graph.entryNodeId, name⟩

/-- The movement arrivals led by the entry placement. -/
def arrivalsWithEntry : Except LookupError (List Arrival) := do
  let arrivals ← facts.movementArrivals
  let entry ← facts.entryArrival arrivals
  return entry :: arrivals

/-- The chunk's graph, node and visit at an instant. -/
def positionAt (instant : Instant) : Except LookupError Position := do
  let arrivals ← facts.arrivalsWithEntry
  let seen := arrivals.filter fun arrival => decide (arrival.recordedAt ≤ instant)
  match seen.getLast? with
  | none => .error .noArrival
  | some current =>
    return ⟨current.graphId, current.nodeId, current.nodeName,
      seen.countP fun arrival => decide (arrival.nodeName = current.nodeName)⟩

end StepFacts

/-! ## The facts of a chunk's rows -/

def tracedTransition (row : TransitionRow) : TracedTransition :=
  ⟨row.epoch, row.recordedAt, row.graphId, row.toNodeId⟩

def tracedMigration (row : MigrationRow) : TracedMigration where
  epoch := row.epoch
  recordedAt := row.recordedAt
  fromGraphId := row.fromGraphId
  toGraphId := row.toGraphId
  fromNodeId := row.fromNodeId
  landedNodeId := row.landedNodeId
  source := row.source

def tracedRestart (row : RestartRow) : TracedRestart :=
  ⟨row.epoch, row.recordedAt, row.graphId, row.toNodeId, row.fromGraphId⟩

/-- A chunk's movement rows. A migration a restart wrote carries that restart's instant and epoch. -/
structure MovementRows where
  transitions : List TransitionRow := []
  migrations : List MigrationRow := []
  restarts : List RestartRow := []
  stamped : ∀ migration ∈ migrations, migration.source = some .restart →
    ∃ restart ∈ restarts, restart.recordedAt = migration.recordedAt ∧
      restart.epoch = migration.epoch

/-- The step facts hold the rows, in whichever order each table was read. -/
structure Traced (rows : MovementRows) (facts : StepFacts) : Prop where
  transitions : facts.transitions.Perm (rows.transitions.map tracedTransition)
  migrations : facts.migrations.Perm (rows.migrations.map tracedMigration)
  restarts : facts.restarts.Perm (rows.restarts.map tracedRestart)

/-- The chunk facts hold the rows, in whichever order each table was read. -/
structure Loaded (tables : Tables) (rows : MovementRows) (facts : ChunkFacts) : Prop where
  transitions : facts.transitions.Perm (rows.transitions.map (FactLoading.transitionFact tables))
  migrations : facts.migrations.Perm (rows.migrations.map (FactLoading.migrationFact tables))
  restarts : facts.restarts.Perm (rows.restarts.map (FactLoading.restartFact tables))

/-- One movement row of whichever family. -/
inductive MovementRow
  | transition (row : TransitionRow)
  | migration (row : MigrationRow)
  | restart (row : RestartRow)
  deriving DecidableEq, Repr

namespace MovementRow

def recordedAt : MovementRow → Instant
  | .transition row => row.recordedAt
  | .migration row => row.recordedAt
  | .restart row => row.recordedAt

def epoch : MovementRow → ℤ
  | .transition row => row.epoch
  | .migration row => row.epoch
  | .restart row => row.epoch

def kind : MovementRow → MovementKind
  | .transition _ => .transition
  | .migration _ => .migration
  | .restart _ => .restart

/-- The row's place among the chunk's movements. -/
def key (row : MovementRow) : ArrivalKey := orderKey row.kind row.recordedAt row.epoch

def graphId : MovementRow → String
  | .transition row => row.graphId
  | .migration row => row.toGraphId
  | .restart row => row.graphId

/-- The node the row names; none for a migration recorded without its landing. -/
def nodeId : MovementRow → Option String
  | .transition row => some row.toNodeId
  | .migration row => row.landedNodeId
  | .restart row => some row.toNodeId

/-- The node the row puts the chunk on. -/
def standsOn (facts : StepFacts) : MovementRow → Except LookupError String
  | .transition row => .ok row.toNodeId
  | .migration row =>
    orElse row.landedNodeId (facts.landed row.fromNodeId row.fromGraphId row.toGraphId)
  | .restart row => .ok row.toNodeId

end MovementRow

/-- The chunk's movements recorded at or before an instant. -/
def MovementRows.moved (rows : MovementRows) (instant : Instant) : List MovementRow :=
  (rows.transitions.map MovementRow.transition ++ rows.migrations.map MovementRow.migration ++
    rows.restarts.map MovementRow.restart).filter fun row => decide (row.recordedAt ≤ instant)

end Blizzard.MovementPositions
