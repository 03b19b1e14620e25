import Blizzard.EpochFence

/-! # Chunk writes behind the fence

The store's writes on one chunk, each one transaction under the chunk's row
lock: a write reads the tables, is refused or recorded, and returns the tables
it commits. Freshly minted ids are arguments. -/
namespace Blizzard.FencedWrites
open HubTables LatestRows RouteLiveness EpochFence

/-- What a write answered. `chunkMissing` is the failed pin or project read that
rolls the transaction back. -/
inductive WriteOutcome
  | recorded
  | replayed
  | refused (refusal : FenceRefusal)
  | chunkMissing
  deriving DecidableEq, Repr

/-- An artifact a write hands to the store, before the store stamps it. -/
structure StoredArtifact where
  artifactId : String
  chunkId : ChunkId
  nodeId : String
  nodeName : String
  epoch : ℤ
  name : String
  kind : ArtifactKind
  data : String
  repo : Option String
  forge : Option String
  deriving DecidableEq, Repr

/-- One past the chunk's greatest artifact `seq`. -/
def nextArtifactSeq (tables : Tables) (chunkId : ChunkId) : ℤ :=
  maxOrZero ((tables.artifacts.filter (·.chunkId = chunkId)).map (·.seq)) + 1

def insertArtifact (now : Instant) (tables : Tables) (row : StoredArtifact) : Tables :=
  { tables with
    artifacts := tables.artifacts ++
      [{ artifactId := row.artifactId, chunkId := row.chunkId, nodeId := row.nodeId
         nodeName := row.nodeName, epoch := row.epoch, name := row.name, kind := row.kind
         data := row.data, repo := row.repo, forge := row.forge, producedAt := now
         seq := nextArtifactSeq tables row.chunkId }] }

def insertArtifacts (tables : Tables) (artifacts : List StoredArtifact) (now : Instant) : Tables :=
  artifacts.foldl (insertArtifact now) tables

/-- The acquisition a claim writes. -/
structure RouteClaim where
  routeId : String
  chunkId : ChunkId
  runnerId : RunnerId
  workspaceId : String
  environmentIds : List String
  tokenHash : String
  deriving DecidableEq, Repr

def insertRouteCreated (tables : Tables) (route : RouteClaim) (now : Instant) : Tables :=
  { tables with
    routeCreated := tables.routeCreated ++
      [{ routeId := route.routeId, chunkId := route.chunkId, runnerId := route.runnerId
         workspaceId := route.workspaceId, createdAt := now
         seq := nextRouteSeq tables route.chunkId }]
    routeEnvironments := tables.routeEnvironments ++
      route.environmentIds.map fun env => ⟨route.routeId, env⟩ }

/-- A fresh capability token: a claim's own, or the re-key of a live route. -/
def recordRouteToken (tables : Tables) (chunkId : ChunkId) (tokenHash : String) (now : Instant) :
    Tables :=
  { tables with
    routeTokenMinted := tables.routeTokenMinted ++
      [⟨chunkId, tokenHash, nextRouteSeq tables chunkId, now⟩] }

/-- The claim's own write: the route, its token and the reserved epoch. -/
def recordRouteConn (tables : Tables) (route : RouteClaim) (now : Instant) : Tables :=
  let created := insertRouteCreated tables route now
  let minted := recordRouteToken created route.chunkId route.tokenHash now
  recordEpochOwner minted route.chunkId (latestEpoch minted route.chunkId + 1)
    (.runner route.runnerId) now

def recordRouteReleasedConn (tables : Tables) (chunkId : ChunkId) (cause reason : Option String)
    (now : Instant) : Tables :=
  { tables with
    routeReleased := tables.routeReleased ++
      [⟨chunkId, now, nextRouteSeq tables chunkId, cause, reason⟩] }

/-- The release some writes carry along. -/
def releaseRouteIf (release : Bool) (tables : Tables) (chunkId : ChunkId) (now : Instant) :
    Tables :=
  if release then recordRouteReleasedConn tables chunkId none none now else tables

def insertLease (tables : Tables) (chunkId : ChunkId) (epoch : ℤ) (claimant : Claimant)
    (now : Instant) : Tables :=
  { tables with
    leaseFacts := tables.leaseFacts ++
      [⟨chunkId, epoch, claimant.runnerId, now, claimant.leaseId⟩] }

/-- A runner's `lease.minted`. -/
def recordLeaseMinted (tables : Tables) (chunkId : ChunkId) (epoch : ℤ) (claimant : Claimant)
    (now : Instant) : Tables × WriteOutcome :=
  let admission := mintAdmission tables chunkId epoch claimant.runnerId
  match admission.refusal claimant with
  | some refusal => (tables, .refused refusal)
  | none =>
    let owned :=
      if admission.takesOwnership then
        recordEpochOwner tables chunkId epoch (.runner claimant.runnerId) now
      else tables
    (insertLease owned chunkId epoch claimant now, .recorded)

structure TransitionWrite where
  transitionId : String
  chunkId : ChunkId
  fromNodeId : Option String
  toNodeId : String
  choiceName : Option String
  epoch : ℤ
  admission : EpochAdmission
  claimant : Option Claimant
  runnerId : RunnerId
  artifacts : List StoredArtifact
  decisionId : Option String
  deriving DecidableEq, Repr

def insertTransition (tables : Tables) (w : TransitionWrite) (graphId : String) (now : Instant) :
    Tables :=
  { tables with
    transitions := tables.transitions ++
      [⟨w.transitionId, w.chunkId, graphId, w.fromNodeId, w.toNodeId, w.choiceName, w.decisionId,
        w.epoch, w.runnerId, now⟩] }

def recordTransitionConn (tables : Tables) (w : TransitionWrite) (now : Instant) :
    Tables × WriteOutcome :=
  match fence tables w.chunkId w.epoch w.admission w.claimant with
  | some refusal => (tables, .refused refusal)
  | none =>
    match graphIdOf tables w.chunkId with
    | none => (tables, .chunkMissing)
    | some graphId =>
      (insertArtifacts (insertTransition tables w graphId now) w.artifacts now, .recorded)

structure MigrationWrite where
  migrationId : String
  chunkId : ChunkId
  fromNodeId : Option String
  fromGraphId : String
  toGraphId : String
  landedNodeId : Option String
  choiceName : Option String
  decisionId : Option String
  model : Option String
  epoch : ℤ
  admission : EpochAdmission
  claimant : Option Claimant
  artifacts : List StoredArtifact
  source : MigrationSource
  releaseRoute : Bool
  clearIntent : Bool
  deriving DecidableEq, Repr

def migrationExists (tables : Tables) (chunkId : ChunkId) (fromNodeId : Option String)
    (epoch : ℤ) : Bool :=
  tables.chunkMigrations.any fun row =>
    decide (row.chunkId = chunkId) && decide (row.fromNodeId = fromNodeId) &&
      decide (row.epoch = epoch)

/-- The migration fact and the re-pin it owns. -/
def insertMigration (tables : Tables) (w : MigrationWrite) (now : Instant) : Tables :=
  { tables with
    chunkMigrations := tables.chunkMigrations ++
      [⟨w.migrationId, w.chunkId, w.fromNodeId, w.fromGraphId, w.toGraphId, w.landedNodeId,
        w.choiceName, w.decisionId, w.model, w.epoch, now, some w.source⟩]
    chunks := tables.chunks.update w.chunkId fun row =>
      { row with
        graphId := w.toGraphId
        intendedMigration := if w.clearIntent then none else row.intendedMigration } }

def recordMigrationConn (tables : Tables) (w : MigrationWrite) (now : Instant) :
    Tables × WriteOutcome :=
  if migrationExists tables w.chunkId w.fromNodeId w.epoch then (tables, .replayed)
  else
    match fence tables w.chunkId w.epoch w.admission w.claimant with
    | some refusal => (tables, .refused refusal)
    | none =>
      (insertArtifacts (releaseRouteIf w.releaseRoute (insertMigration tables w now) w.chunkId now)
        w.artifacts now, .recorded)

structure RestartWrite where
  chunkId : ChunkId
  fromNodeId : Option String
  toNodeId : String
  by_ : String
  decisionId : Option String
  answeredQuestionIds : List String
  answer : String
  toGraphId : Option String
  note : Option String
  migrationId : String
  deriving DecidableEq, Repr

/-- An answer row for a question that has none yet. -/
def answerQuestionOnce (answer answeredBy : String) (now : Instant) (tables : Tables)
    (questionId : String) : Tables :=
  if tables.questionAnswers.any fun row => decide (row.questionId = questionId) then tables
  else
    { tables with
      questionAnswers := tables.questionAnswers ++ [⟨questionId, answer, answeredBy, now⟩] }

/-- A cross-graph restart's migration half, stamped at the restart's own epoch. -/
def repinByRestart (tables : Tables) (w : RestartWrite) (fromGraphId : String) (epoch : ℤ)
    (now : Instant) : Tables :=
  match w.toGraphId with
  | none => tables
  | some toGraphId =>
    { tables with
      chunkMigrations := tables.chunkMigrations ++
        [⟨w.migrationId, w.chunkId, w.fromNodeId, fromGraphId, toGraphId, some w.toNodeId, none,
          none, none, epoch, now, some .restart⟩]
      chunks := tables.chunks.update w.chunkId fun row =>
        { row with graphId := toGraphId, intendedMigration := none } }

def insertRestart (tables : Tables) (w : RestartWrite) (fromGraphId : String) (epoch : ℤ)
    (now : Instant) : Tables :=
  { tables with
    chunkRestarts := tables.chunkRestarts ++
      [⟨w.chunkId, w.toGraphId.getD fromGraphId, w.fromNodeId, w.toGraphId.map fun _ => fromGraphId,
        w.toNodeId, epoch, w.decisionId, w.by_, now, w.note⟩] }

/-- The forced move: a fresh epoch owned by the hub. -/
def recordRestartConn (tables : Tables) (w : RestartWrite) (now : Instant) :
    Tables × WriteOutcome :=
  let epoch := latestEpoch tables w.chunkId + 1
  match graphIdOf tables w.chunkId with
  | none => (tables, .chunkMissing)
  | some fromGraphId =>
    let answered :=
      w.answeredQuestionIds.foldl (answerQuestionOnce w.answer w.by_ now) tables
    let repinned := repinByRestart answered w fromGraphId epoch now
    let moved := insertRestart repinned w fromGraphId epoch now
    (recordEpochOwner moved w.chunkId epoch .hub now, .recorded)

structure EscalationWrite where
  chunkId : ChunkId
  epoch : ℤ
  admission : EpochAdmission
  claimant : Option Claimant
  takeoverCommand : String
  wrappedTakeoverCommand : String
  decisionId : Option String
  cause : Option String
  detail : Option String
  deriving DecidableEq, Repr

def insertEscalation (tables : Tables) (w : EscalationWrite) (now : Instant) : Tables :=
  { tables with
    escalations := tables.escalations ++
      [⟨w.chunkId, w.epoch, w.takeoverCommand, w.wrappedTakeoverCommand, w.decisionId, w.cause,
        w.detail, now⟩] }

def recordEscalation (tables : Tables) (w : EscalationWrite) (now : Instant) :
    Tables × WriteOutcome :=
  match fence tables w.chunkId w.epoch w.admission w.claimant with
  | some refusal => (tables, .refused refusal)
  | none => (insertEscalation tables w now, .recorded)

structure QuestionWrite where
  questionId : String
  chunkId : ChunkId
  nodeId : String
  sessionId : String
  harnessId : Option String
  runnerId : RunnerId
  epoch : ℤ
  admission : EpochAdmission
  claimant : Option Claimant
  question : String
  options : List String
  deriving DecidableEq, Repr

def insertQuestion (tables : Tables) (w : QuestionWrite) (projectId : String) (now : Instant) :
    Tables :=
  { tables with
    questions := tables.questions ++
      [⟨w.questionId, w.chunkId, projectId, w.nodeId, w.sessionId, w.harnessId, w.runnerId,
        w.epoch, w.question, w.options, now⟩] }

/-- A question id already stored answers as a replay. -/
def recordQuestion (tables : Tables) (w : QuestionWrite) (now : Instant) : Tables × WriteOutcome :=
  if tables.questions.any fun row => decide (row.questionId = w.questionId) then
    (tables, .replayed)
  else
    match fence tables w.chunkId w.epoch w.admission w.claimant with
    | some refusal => (tables, .refused refusal)
    | none =>
      match projectIdOf tables w.chunkId with
      | none => (tables, .chunkMissing)
      | some projectId => (insertQuestion tables w projectId now, .recorded)

structure DecisionWrite where
  decisionId : String
  chunkId : ChunkId
  nodeId : String
  nodeName : String
  epoch : ℤ
  admission : EpochAdmission
  claimant : Option Claimant
  choices : List DecisionChoice
  checkResults : List DecisionCheck
  artifacts : List StoredArtifact
  imposedByRunnerId : Option RunnerId
  deriving DecidableEq, Repr

def decisionExists (tables : Tables) (chunkId : ChunkId) (nodeId : String) (epoch : ℤ) : Bool :=
  tables.decisions.any fun row =>
    decide (row.chunkId = chunkId) && decide (row.nodeId = nodeId) && decide (row.epoch = epoch)

def insertDecision (tables : Tables) (w : DecisionWrite) (projectId : String) (now : Instant) :
    Tables :=
  { tables with
    decisions := tables.decisions ++
      [⟨w.decisionId, w.chunkId, projectId, w.nodeId, w.nodeName, w.epoch, w.choices,
        w.checkResults, now, w.imposedByRunnerId⟩] }

def recordDecisionConn (tables : Tables) (w : DecisionWrite) (now : Instant) :
    Tables × WriteOutcome :=
  match fence tables w.chunkId w.epoch w.admission w.claimant with
  | some refusal => (tables, .refused refusal)
  | none =>
    match projectIdOf tables w.chunkId with
    | none => (tables, .chunkMissing)
    | some projectId =>
      (insertArtifacts (insertDecision tables w projectId now) w.artifacts now, .recorded)

/-- A decision already stored at `(chunk, node, epoch)` answers as the lost-ack replay. -/
def recordDecisionLocked (tables : Tables) (w : DecisionWrite) (now : Instant) :
    Tables × WriteOutcome :=
  if decisionExists tables w.chunkId w.nodeId w.epoch then (tables, .replayed)
  else recordDecisionConn tables w now

def transitionExists (tables : Tables) (chunkId : ChunkId) (fromNodeId : Option String)
    (epoch : ℤ) : Bool :=
  tables.transitions.any fun row =>
    decide (row.chunkId = chunkId) && decide (row.fromNodeId = fromNodeId) &&
      decide (row.epoch = epoch)

/-- A hub node's exit: replay probe, fence without a claimant, hub lease, transition. -/
def transitionConn (tables : Tables) (w : TransitionWrite) (releaseRoute : Bool) (now : Instant) :
    Tables × WriteOutcome :=
  if transitionExists tables w.chunkId w.fromNodeId w.epoch then (tables, .replayed)
  else
    match fence tables w.chunkId w.epoch w.admission none with
    | some refusal => (tables, .refused refusal)
    | none =>
      match graphIdOf tables w.chunkId with
      | none => (tables, .chunkMissing)
      | some graphId =>
        let leased := recordHubLease tables w.chunkId w.epoch w.runnerId now
        let unresolved := { w with decisionId := none }
        let moved := insertArtifacts (insertTransition leased unresolved graphId now) w.artifacts now
        (releaseRouteIf releaseRoute moved w.chunkId now, .recorded)

/-- A delivery bounce that escalates: at most one escalation per epoch. -/
def bounceEscalationConn (tables : Tables) (w : EscalationWrite) (runnerId : RunnerId)
    (now : Instant) : Tables × WriteOutcome :=
  if tables.escalations.any fun row =>
      decide (row.chunkId = w.chunkId) && decide (row.epoch = w.epoch) then (tables, .replayed)
  else
    match fence tables w.chunkId w.epoch w.admission none with
    | some refusal => (tables, .refused refusal)
    | none =>
      let leased := recordHubLease tables w.chunkId w.epoch runnerId now
      let bare := { w with wrappedTakeoverCommand := "", decisionId := none }
      (insertEscalation leased bare now, .recorded)

def insertDeliveryLanded (tables : Tables) (chunkId : ChunkId) (now : Instant) : Tables :=
  { tables with deliveryLanded := tables.deliveryLanded ++ [⟨chunkId, now⟩] }

/-- Delivery's last write, unfenced: an existing `delivery_landed` row is its replay guard. -/
def finalizeDelivery (tables : Tables) (w : TransitionWrite) (now : Instant) :
    Tables × WriteOutcome :=
  if tables.deliveryLanded.any fun row => decide (row.chunkId = w.chunkId) then
    (tables, .replayed)
  else
    match graphIdOf tables w.chunkId with
    | none => (tables, .chunkMissing)
    | some graphId =>
      let leased := recordHubLease tables w.chunkId w.epoch w.runnerId now
      let landed := insertDeliveryLanded leased w.chunkId now
      let moved := insertTransition landed { w with decisionId := none } graphId now
      (recordRouteReleasedConn moved w.chunkId none none now, .recorded)

def insertStopped (tables : Tables) (chunkId : ChunkId) (stoppedBy : String) (now : Instant) :
    Tables :=
  { tables with chunkStopped := tables.chunkStopped ++ [⟨chunkId, now, some stoppedBy⟩] }

/-- `chunk.stopped`, and the release of the route the chunk holds. -/
def recordStopLocked (tables : Tables) (chunkId : ChunkId) (stoppedBy : String) (now : Instant) :
    Tables :=
  let stopped := insertStopped tables chunkId stoppedBy now
  releaseRouteIf (routeOf stopped chunkId).isSome stopped chunkId now

def insertCompleted (tables : Tables) (chunkId : ChunkId) (completedBy : String) (now : Instant) :
    Tables :=
  { tables with chunkCompleted := tables.chunkCompleted ++ [⟨chunkId, now, completedBy⟩] }

/-- `chunk.completed`, and the release of the route the chunk holds. -/
def recordCompletionLocked (tables : Tables) (chunkId : ChunkId) (completedBy : String)
    (now : Instant) : Tables :=
  let completed := insertCompleted tables chunkId completedBy now
  releaseRouteIf (routeOf completed chunkId).isSome completed chunkId now

end Blizzard.FencedWrites
