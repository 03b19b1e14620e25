import Blizzard.StatusLadder
import Blizzard.LatestRows

/-! # Loading a chunk's facts

One read builds a chunk's `ChunkFacts` from its rows in the selected fact
families; an id with no `chunks` row, and one grouped away or deleted, loads
nothing. -/
namespace Blizzard.FactLoading
open HubTables LatestRows RouteLiveness StatusLadder

/-- A fact family `ChunkFacts` carries. -/
inductive Family
  | promoted | stopped | operatorCompleted | deliveryLanded | escalations | leases | epochOwners
  | transitions | routesCreated | routesReleased | routeTokensMinted | questions | decisions
  | requeues | migrations | restarts | pauses
  deriving DecidableEq, Repr

/-- The families `ChunkFacts.status` reaches. -/
def statusFamilies : List Family :=
  [.transitions, .decisions, .migrations, .escalations, .restarts, .routesReleased, .stopped,
    .operatorCompleted, .promoted, .leases, .routesCreated, .questions, .requeues, .pauses]

/-- The status families and the epoch owners the fencing reads need. -/
def tickStatusFamilies : List Family := statusFamilies ++ [.epochOwners]

def allFamilies : List Family :=
  tickStatusFamilies ++ [.routeTokensMinted, .deliveryLanded]

/-- A chunk grouped away or deleted is gone from every read. -/
def isEphemeralId (tables : Tables) (chunkId : ChunkId) : Bool :=
  (tables.chunkGrouped.any fun row => decide (row.chunkId = chunkId)) ||
    tables.chunkDeleted.any fun row => decide (row.chunkId = chunkId)

/-- Whether the chunk has a row and is not ephemeral. -/
def isLoadable (tables : Tables) (chunkId : ChunkId) : Bool :=
  (tables.chunks.rows.any fun row => decide (row.chunkId = chunkId)) &&
    !isEphemeralId tables chunkId

/-- The executor of a node of a graph; a node the graph does not carry runs on a runner. -/
def executorOf (tables : Tables) (graphId : String) (nodeId : Option String) : Executor :=
  ((tables.graphNodes.find? fun node =>
    decide (node.graphId = graphId) && decide (some node.nodeId = nodeId)).map (·.executor)).getD
      .runner

/-- The newest of a chunk's instants in one fact table. -/
def newestInstant (instants : List Instant) : Option Instant := instants.max?

def promotedInstants (tables : Tables) (chunkId : ChunkId) : List Instant :=
  (tables.chunkPromoted.filter (·.chunkId = chunkId)).map (·.promotedAt)

def demotedInstants (tables : Tables) (chunkId : ChunkId) : List Instant :=
  (tables.chunkDemoted.filter (·.chunkId = chunkId)).map (·.demotedAt)

/-- The newest promotion is strictly later than the newest demotion. -/
def currentlyPromoted (tables : Tables) (chunkId : ChunkId) : Bool :=
  match newestInstant (promotedInstants tables chunkId),
      newestInstant (demotedInstants tables chunkId) with
  | none, _ => false
  | some _, none => true
  | some promotedAt, some demotedAt => decide (demotedAt < promotedAt)

def transitionFact (tables : Tables) (row : TransitionRow) : TransitionFact where
  toNodeId := row.toNodeId
  toNodeExecutor := executorOf tables row.graphId (some row.toNodeId)
  epoch := row.epoch
  recordedAt := row.recordedAt
  fromNodeId := row.fromNodeId
  choiceName := row.choiceName
  graphId := row.graphId
  transitionId := row.transitionId

def migrationFact (tables : Tables) (row : MigrationRow) : MigrationFact where
  fromNodeId := row.fromNodeId
  fromGraphId := row.fromGraphId
  toGraphId := row.toGraphId
  landedNodeId := row.landedNodeId
  choiceName := row.choiceName
  model := row.modelAfter
  epoch := row.epoch
  recordedAt := row.recordedAt
  landedNodeExecutor := executorOf tables row.toGraphId row.landedNodeId
  source := row.source
  migrationId := row.migrationId

def restartFact (tables : Tables) (row : RestartRow) : RestartFact where
  toNodeId := row.toNodeId
  fromNodeId := row.fromNodeId
  graphId := row.graphId
  epoch := row.epoch
  recordedAt := row.recordedAt
  fromGraphId := row.fromGraphId
  toNodeExecutor := executorOf tables row.graphId (some row.toNodeId)
  restartedBy := row.restartedBy
  note := row.note
  decisionId := row.decisionId

def escalationFact (row : EscalationRow) : EscalationFact :=
  ⟨row.epoch, row.recordedAt, row.takeoverCommand, row.wrappedTakeoverCommand, row.cause,
    row.detail⟩

def questionFact (tables : Tables) (row : QuestionRow) : QuestionFact where
  questionId := row.questionId
  askedAt := row.askedAt
  answered := tables.questionAnswers.any fun answer => decide (answer.questionId = row.questionId)
  epoch := row.epoch

/-- Resolved by a person or superseded by a restart; closed by any fact that names the decision. -/
def decisionFact (tables : Tables) (row : DecisionRow) : DecisionFact where
  decisionId := row.decisionId
  submittedAt := row.submittedAt
  resolved :=
    (tables.decisionResolutions.any fun res => decide (res.decisionId = row.decisionId)) ||
      tables.chunkRestarts.any fun restart => decide (restart.decisionId = some row.decisionId)
  closed :=
    (tables.transitions.any fun t => decide (t.decisionId = some row.decisionId)) ||
      (tables.chunkMigrations.any fun m => decide (m.decisionId = some row.decisionId)) ||
      (tables.escalations.any fun e => decide (e.decisionId = some row.decisionId)) ||
      tables.chunkRestarts.any fun restart => decide (restart.decisionId = some row.decisionId)

/-- `rows` when the family is selected, no rows otherwise. -/
def selected {α : Type*} (families : List Family) (family : Family) (rows : List α) : List α :=
  if family ∈ families then rows else []

/-- The facts a chunk's rows in the selected families carry. -/
def chunkFacts (tables : Tables) (families : List Family) (chunkId : ChunkId) : ChunkFacts where
  promoted := decide (Family.promoted ∈ families) && currentlyPromoted tables chunkId
  stoppedAt := newestInstant ((selected families .stopped
    (tables.chunkStopped.filter (·.chunkId = chunkId))).map (·.stoppedAt))
  operatorCompletedAt := newestInstant ((selected families .operatorCompleted
    (tables.chunkCompleted.filter (·.chunkId = chunkId))).map (·.completedAt))
  deliveryLanded := (selected families .deliveryLanded tables.deliveryLanded).any fun row =>
    decide (row.chunkId = chunkId)
  escalations := (selected families .escalations
    (tables.escalations.filter (·.chunkId = chunkId))).map escalationFact
  leases := (selected families .leases (tables.leaseFacts.filter (·.chunkId = chunkId))).map
    fun row => ⟨row.epoch, row.mintedAt⟩
  epochOwners := (selected families .epochOwners
    (tables.epochOwners.filter (·.chunkId = chunkId))).map fun row => ⟨row.epoch, row.runnerId⟩
  transitions := (selected families .transitions
    (tables.transitions.filter (·.chunkId = chunkId))).map (transitionFact tables)
  routes :=
    { created := (selected families .routesCreated (createdRows tables chunkId)).map createdFact
      released := (selected families .routesReleased (releasedRows tables chunkId)).map releasedFact
      tokensMinted := (selected families .routeTokensMinted (tokenRows tables chunkId)).map tokenFact }
  questions := (selected families .questions
    (tables.questions.filter (·.chunkId = chunkId))).map (questionFact tables)
  decisions := (selected families .decisions
    (tables.decisions.filter (·.chunkId = chunkId))).map (decisionFact tables)
  requeues := (selected families .requeues
    (tables.requeues.filter (·.chunkId = chunkId))).map
      fun row => ⟨row.requeuedAt, row.requeuedBy, row.note⟩
  migrations := (selected families .migrations
    (tables.chunkMigrations.filter (·.chunkId = chunkId))).map (migrationFact tables)
  restarts := (selected families .restarts
    (tables.chunkRestarts.filter (·.chunkId = chunkId))).map (restartFact tables)
  pauses := (selected families .pauses
    (tables.chunkPauseFacts.filter (·.chunkId = chunkId))).map
      fun row => ⟨row.paused, row.setAt, row.setBy⟩

/-- `load_chunk_facts` for one id: `none` for an id that does not exist or is ephemeral. -/
def loadChunkFacts (tables : Tables) (families : List Family) (chunkId : ChunkId) :
    Option ChunkFacts :=
  if isLoadable tables chunkId then some (chunkFacts tables families chunkId) else none

/-- Every fact of a chunk, as a locked handle reads them. -/
def loadFacts (tables : Tables) (chunkId : ChunkId) : Option ChunkFacts :=
  loadChunkFacts tables allFamilies chunkId

/-- The families outside the status families do not move the status. -/
theorem status_chunkFacts_statusFamilies (tables : Tables) (chunkId : ChunkId) :
    (chunkFacts tables statusFamilies chunkId).status =
      (chunkFacts tables allFamilies chunkId).status := rfl

/-- The route the locked read finds is the route the loaded facts derive. -/
theorem hasLiveRoute_eq_routeOf_isSome (tables : Tables) (chunkId : ChunkId) :
    (chunkFacts tables allFamilies chunkId).hasLiveRoute = (routeOf tables chunkId).isSome := by
  have history : (chunkFacts tables allFamilies chunkId).routes = routeHistory tables chunkId := rfl
  rw [ChunkFacts.hasLiveRoute, history]
  exact (routeOf_isSome_eq tables chunkId).symm

end Blizzard.FactLoading
