import Mathlib.Data.Int.Order.Basic
import Mathlib.Data.List.Nodup

/-! # The hub's chunk tables

One tenant's fact tables: every table is the list of its rows in insertion
order, so an autoincremented `id` is a row's position. Columns that no modelled
function writes or reads are left out. The `chunks` table carries its primary
key, so two rows of one chunk id cannot be built. -/
namespace Blizzard.HubTables

/-- A `UtcDateTime` reading in microseconds. -/
abbrev Instant := ℤ

/-- Instants and counters compare by the computable order of the integers. -/
instance (priority := 2000) instantPartialOrder : PartialOrder ℤ :=
  Int.instLinearOrder.toPartialOrder

instance (priority := 2000) instantPreorder : Preorder ℤ := instantPartialOrder.toPreorder

/-- The smallest step between two instants the store can tell apart. -/
def microsecond : Instant := 1

abbrev ChunkId := String
abbrev RunnerId := String

/-- The reserved terminal node id of every graph. -/
def reservedTerminal : String := "done"

inductive Executor | runner | hub
  deriving DecidableEq, Repr

inductive ArtifactKind | asset | gitCommit
  deriving DecidableEq, Repr

inductive MigrationSource | authoredEdge | intent | followLatest | restart
  deriving DecidableEq, Repr

inductive MigrationMode | auto | forced
  deriving DecidableEq, Repr

/-- A chunk's standing intent to move onto another graph; `nodeName` is required for `forced`. -/
structure IntendedMigration where
  mode : MigrationMode
  graphId : String
  nodeName : Option String
  deriving DecidableEq, Repr

structure ChunkRow where
  chunkId : ChunkId
  projectId : String
  graphId : String
  intendedMigration : Option IntendedMigration := none
  deriving DecidableEq, Repr

structure GraphNodeRow where
  graphId : String
  nodeId : String
  executor : Executor
  deriving DecidableEq, Repr

structure TransitionRow where
  transitionId : String
  chunkId : ChunkId
  graphId : String
  fromNodeId : Option String
  toNodeId : String
  choiceName : Option String
  decisionId : Option String
  epoch : ℤ
  runnerId : RunnerId
  recordedAt : Instant
  deriving DecidableEq, Repr

structure MigrationRow where
  migrationId : String
  chunkId : ChunkId
  fromNodeId : Option String
  fromGraphId : String
  toGraphId : String
  landedNodeId : Option String
  choiceName : Option String
  decisionId : Option String
  modelAfter : Option String
  epoch : ℤ
  recordedAt : Instant
  source : Option MigrationSource
  deriving DecidableEq, Repr

structure RestartRow where
  chunkId : ChunkId
  graphId : String
  fromNodeId : Option String
  fromGraphId : Option String
  toNodeId : String
  epoch : ℤ
  decisionId : Option String
  restartedBy : String
  recordedAt : Instant
  note : Option String
  deriving DecidableEq, Repr

structure LeaseRow where
  chunkId : ChunkId
  epoch : ℤ
  runnerId : RunnerId
  mintedAt : Instant
  leaseId : Option String := none
  deriving DecidableEq, Repr

/-- `runnerId = none` is the hub. -/
structure EpochOwnerRow where
  chunkId : ChunkId
  epoch : ℤ
  runnerId : Option RunnerId
  recordedAt : Instant
  deriving DecidableEq, Repr

structure RouteCreatedRow where
  routeId : String
  chunkId : ChunkId
  runnerId : RunnerId
  workspaceId : String
  createdAt : Instant
  seq : ℤ
  deriving DecidableEq, Repr

structure RouteEnvironmentRow where
  routeId : String
  environmentId : String
  deriving DecidableEq, Repr

structure RouteReleasedRow where
  chunkId : ChunkId
  releasedAt : Instant
  seq : ℤ
  cause : Option String := none
  reason : Option String := none
  deriving DecidableEq, Repr

structure RouteTokenRow where
  chunkId : ChunkId
  tokenHash : String
  seq : ℤ
  mintedAt : Instant
  deriving DecidableEq, Repr

structure EscalationRow where
  chunkId : ChunkId
  epoch : ℤ
  takeoverCommand : String
  wrappedTakeoverCommand : String
  decisionId : Option String
  cause : Option String
  detail : Option String
  recordedAt : Instant
  deriving DecidableEq, Repr

structure QuestionRow where
  questionId : String
  chunkId : ChunkId
  projectId : String
  nodeId : String
  sessionId : String
  harnessId : Option String
  runnerId : RunnerId
  epoch : ℤ
  question : String
  options : List String
  askedAt : Instant
  deriving DecidableEq, Repr

structure QuestionAnswerRow where
  questionId : String
  answer : String
  answeredBy : String
  answeredAt : Instant
  deriving DecidableEq, Repr

structure DecisionChoice where
  name : String
  description : String
  requiresChecks : Bool
  deriving DecidableEq, Repr

structure DecisionCheck where
  command : String
  passed : Bool
  deriving DecidableEq, Repr

structure DecisionRow where
  decisionId : String
  chunkId : ChunkId
  projectId : String
  nodeId : String
  nodeName : String
  epoch : ℤ
  choices : List DecisionChoice
  checkResults : List DecisionCheck
  submittedAt : Instant
  imposedByRunnerId : Option RunnerId
  deriving DecidableEq, Repr

structure DecisionResolutionRow where
  decisionId : String
  choice : String
  resolvedBy : String
  resolvedAt : Instant
  deriving DecidableEq, Repr

/-- The flat storage row of an artifact, `producedAt` and `seq` stamped by the store. -/
structure ArtifactRow where
  artifactId : String
  chunkId : ChunkId
  nodeId : String
  nodeName : String
  epoch : ℤ
  name : String
  kind : ArtifactKind
  data : String
  repo : Option String
  forge : Option String
  producedAt : Instant
  seq : ℤ
  deriving DecidableEq, Repr

structure StoppedRow where
  chunkId : ChunkId
  stoppedAt : Instant
  stoppedBy : Option String := none
  deriving DecidableEq, Repr

structure CompletedRow where
  chunkId : ChunkId
  completedAt : Instant
  completedBy : String
  deriving DecidableEq, Repr

structure PromotedRow where
  chunkId : ChunkId
  promotedAt : Instant
  deriving DecidableEq, Repr

structure DemotedRow where
  chunkId : ChunkId
  demotedAt : Instant
  deriving DecidableEq, Repr

structure PauseRow where
  chunkId : ChunkId
  paused : Bool
  setAt : Instant
  setBy : String
  deriving DecidableEq, Repr

structure RequeueRow where
  chunkId : ChunkId
  requeuedAt : Instant
  requeuedBy : Option String
  note : Option String
  deriving DecidableEq, Repr

structure DeliveryLandedRow where
  chunkId : ChunkId
  landedAt : Instant
  deriving DecidableEq, Repr

structure GroupedRow where
  chunkId : ChunkId
  groupedInto : ChunkId
  groupedAt : Instant
  deriving DecidableEq, Repr

structure DeletedRow where
  chunkId : ChunkId
  deletedAt : Instant
  deletedBy : String
  deriving DecidableEq, Repr

/-- A dependency edge stands while `releasedAt` is `none`. -/
structure DependencyRow where
  dependencyId : String
  dependentChunkId : ChunkId
  prerequisiteChunkId : ChunkId
  declaredAt : Instant
  declaredBy : String
  releasedAt : Option Instant := none
  releasedBy : Option String := none
  deriving DecidableEq, Repr

/-- The `chunks` table: `chunk_id` is its primary key. -/
structure ChunkTable where
  rows : List ChunkRow
  chunkId_unique : (rows.map (·.chunkId)).Nodup

def ChunkTable.empty : ChunkTable := ⟨[], by simp⟩

/-- `UPDATE chunks … WHERE chunk_id = id`: the columns of one row, never its key. -/
def ChunkTable.update (table : ChunkTable) (id : ChunkId) (change : ChunkRow → ChunkRow) :
    ChunkTable where
  rows := table.rows.map fun row =>
    if row.chunkId = id then { change row with chunkId := row.chunkId } else row
  chunkId_unique := by
    have same : (table.rows.map fun row =>
        if row.chunkId = id then { change row with chunkId := row.chunkId } else row).map
          (·.chunkId) = table.rows.map (·.chunkId) := by
      rw [List.map_map]
      refine List.map_congr_left fun row _ => ?_
      simp only [Function.comp_apply]
      split <;> rfl
    rw [same]
    exact table.chunkId_unique

/-- The tables of one tenant that the modelled functions read and write. -/
structure Tables where
  chunks : ChunkTable := .empty
  graphNodes : List GraphNodeRow := []
  transitions : List TransitionRow := []
  chunkMigrations : List MigrationRow := []
  chunkRestarts : List RestartRow := []
  leaseFacts : List LeaseRow := []
  epochOwners : List EpochOwnerRow := []
  routeCreated : List RouteCreatedRow := []
  routeEnvironments : List RouteEnvironmentRow := []
  routeReleased : List RouteReleasedRow := []
  routeTokenMinted : List RouteTokenRow := []
  escalations : List EscalationRow := []
  questions : List QuestionRow := []
  questionAnswers : List QuestionAnswerRow := []
  decisions : List DecisionRow := []
  decisionResolutions : List DecisionResolutionRow := []
  artifacts : List ArtifactRow := []
  chunkStopped : List StoppedRow := []
  chunkCompleted : List CompletedRow := []
  chunkPromoted : List PromotedRow := []
  chunkDemoted : List DemotedRow := []
  chunkPauseFacts : List PauseRow := []
  requeues : List RequeueRow := []
  deliveryLanded : List DeliveryLandedRow := []
  chunkGrouped : List GroupedRow := []
  chunkDeleted : List DeletedRow := []
  chunkDependencies : List DependencyRow := []

/-- The tables right after a set of chunks is minted: no fact is recorded yet. -/
def Tables.minted (chunks : ChunkTable) (graphNodes : List GraphNodeRow) : Tables where
  chunks := chunks
  graphNodes := graphNodes

/-- The graph pin of a chunk; the read fails on an id with no row. -/
def graphIdOf (tables : Tables) (chunkId : ChunkId) : Option String :=
  (tables.chunks.rows.find? (·.chunkId = chunkId)).map (·.graphId)

/-- The project a chunk was minted into. -/
def projectIdOf (tables : Tables) (chunkId : ChunkId) : Option String :=
  (tables.chunks.rows.find? (·.chunkId = chunkId)).map (·.projectId)

end Blizzard.HubTables
