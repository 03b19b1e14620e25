import Mathlib.Data.String.Basic
import Blizzard.CompletionPlans
import Blizzard.FactLoading
import Blizzard.FencedWrites

/-! # Completion rules over a chunk's facts

The pure rules a completion is judged by beside its plan: what an attempt may still report, the
escalations the hub writes itself, where a migration lands, how a recorded movement is replayed,
and the two authorizations that read the submission. -/
namespace Blizzard.CompletionRules
open HubTables RouteLiveness StatusLadder WorkflowGraph GraphDocuments SourceText FencedWrites
open CompletionPlans

/-! ## The attempt -/

/-- Why an attempt cannot make its report. -/
inductive AttemptRefused
  | notAtCurrentNode (fromName currentName : String) (epoch : ℤ)
  | chunkEscalated (epoch : ℤ)
  | openQuestion (questionId : String)
  | hubExecutedNode (nodeName : String)
  deriving DecidableEq, Repr

def AttemptRefused.detail : AttemptRefused → String
  | .notAtCurrentNode fromName currentName epoch =>
      s!"node `{fromName}` is not the chunk's current node `{currentName}` at epoch {epoch}"
  | .chunkEscalated epoch =>
      s!"the attempt at epoch {epoch} escalated — requeue the chunk before it moves on"
  | .openQuestion questionId =>
      s!"question {questionId} is open — answer it before the chunk moves on"
  | .hubExecutedNode nodeName =>
      s!"node `{nodeName}` is hub-executed — the hub authors its transitions"

/-- The latest fencing epoch, `0` before any. -/
def epochFloor (facts : ChunkFacts) : ℤ := facts.latestEpoch.getD 0

/-- The open escalation, when the attempt at `epoch` raised it. -/
def openEscalationAt (facts : ChunkFacts) (epoch : ℤ) : Option EscalationFact :=
  facts.openEscalation.filter fun e => decide (e.epoch = epoch)

def openQuestionsAt (facts : ChunkFacts) (epoch : ℤ) : List QuestionFact :=
  facts.openQuestions.filter fun q => decide (q.epoch = epoch)

def migrationTargetUnresolvable : String := "migration-target-unresolvable"

def escalateChoiceCause : String := "escalate-choice"

/-- The escalations a repeat of the same report is answered over, with no write. -/
def hubAuthoredEscalations : List String := [migrationTargetUnresolvable, escalateChoiceCause]

/-- At the current epoch the report must come from the current node. -/
def misplaced (facts : ChunkFacts) (graph : Graph) (fromNode : Node) (epoch : ℤ) :
    Option AttemptRefused :=
  if epoch = epochFloor facts then
    match currentNode facts graph with
    | some current =>
      if current.nodeId ≠ fromNode.nodeId then
        some (.notAtCurrentNode fromNode.name current.name epoch)
      else none
    | none => none
  else none

/-- An attempt whose own question is unanswered is parked. -/
def questioned (facts : ChunkFacts) (epoch : ℤ) : Option AttemptRefused :=
  match openQuestionsAt facts epoch with
  | asked :: _ => some (.openQuestion asked.questionId)
  | [] => none

/-- Refuse a report the attempt at `epoch` cannot make; the hub's own escalation parks only a
report that would not merely re-escalate. -/
def refuseIncoherentAttempt (facts : ChunkFacts) (graph : Graph) (fromNode : Node) (epoch : ℤ)
    (reEscalating : Bool) : Option AttemptRefused :=
  match misplaced facts graph fromNode epoch with
  | some refused => some refused
  | none =>
    match openEscalationAt facts epoch with
    | some escalation =>
      if reEscalating && escalation.cause.any (· ∈ hubAuthoredEscalations) then
        questioned facts epoch
      else some (.chunkEscalated epoch)
    | none => questioned facts epoch

/-- Refuse a runner's report out of a hub-executed node. -/
def refuseHubExecuted (fromNode : Node) : Option AttemptRefused :=
  if fromNode.executor = .hub then some (.hubExecutedNode fromNode.name) else none

/-! ## The hub's own escalations -/

structure EscalationDraft where
  takeoverCommand : String
  detail : String
  cause : String
  deriving DecidableEq, Repr

/-- The hub's escalation when a cross-graph edge names no enabled graph. -/
def unresolvableTarget (edge : Edge) : EscalationDraft :=
  let target := edge.targetGraph.getD "None"
  { takeoverCommand := s!"cross-graph target `{target}` names no enabled graph — mint a graph " ++
      s!"named `{target}` (or edit the choice), then requeue this chunk"
    detail := s!"cross-graph target graph `{target}` names no enabled graph"
    cause := migrationTargetUnresolvable }

/-- The hub's escalation when a worker takes a choice whose target is the reserved `escalate`. -/
def escalateChoice (node : Node) (choice : String) : EscalationDraft where
  takeoverCommand := s!"node `{node.name}` escalated through choice `{choice}` — read the assets " ++
    "it produced, then requeue this chunk with a note that settles it"
  detail := s!"node `{node.name}` took choice `{choice}`, which escalates for a human"
  cause := escalateChoiceCause

/-- The graphs one completion may move the chunk onto, each already resolved. -/
structure MigrationTargets where
  crossGraph : Option Graph
  intended : Option Graph
  followLatest : Option Graph
  deriving DecidableEq, Repr

/-- Whether taking `edge` at `epoch` would only repeat the escalation that stands. -/
def reEscalates (facts : ChunkFacts) (edge : Option Edge) (targets : MigrationTargets) (epoch : ℤ)
    (taken : Option EscalationDraft) : Bool :=
  match edge with
  | none => false
  | some edge =>
    let escalation := openEscalationAt facts epoch
    if edge.escalates then
      match taken, escalation with
      | some draft, some escalation =>
        decide (escalation.cause = some escalateChoiceCause) &&
          decide (escalation.detail = some draft.detail)
      | _, _ => false
    else if edge.targetGraph.isNone || targets.crossGraph.isSome then false
    else
      escalation.any fun escalation =>
        decide (escalation.cause = some migrationTargetUnresolvable) &&
          decide (escalation.detail = some (unresolvableTarget edge).detail)

/-! ## Migrations -/

/-- How a completion whose migration already landed at its `(node, epoch)` is answered. -/
inductive ReplayedMigration | supersededByRestart | hubNodeTaken | migrated
  deriving DecidableEq, Repr

def migrationAt (facts : ChunkFacts) (fromNodeId : String) (epoch : ℤ) : Option MigrationFact :=
  facts.migrations.find? fun m => decide (m.fromNodeId = some fromNodeId) && decide (m.epoch = epoch)

/-- Classify the migration already recorded at `(fromNodeId, epoch)`. -/
def replayedMigration (facts : ChunkFacts) (fromNodeId : String) (epoch : ℤ) : ReplayedMigration :=
  match migrationAt facts fromNodeId epoch with
  | none => .migrated
  | some replayed =>
    if replayed.source = some .restart then .supersededByRestart
    else if replayed.landedNodeExecutor = .hub then .hubNodeTaken
    else .migrated

/-- The target of the transition already recorded out of `fromNodeId` at `epoch`. -/
def acceptedTransitionTarget (facts : ChunkFacts) (fromNodeId : String) (epoch : ℤ) :
    Option String :=
  (facts.transitions.find? fun t =>
    decide (t.fromNodeId = some fromNodeId) && decide (t.epoch = epoch)).map (·.toNodeId)

/-- Where a migration lands the chunk, why, and what it carries along. -/
structure Landing where
  graph : Graph
  nodeId : String
  source : MigrationSource
  clearIntent : Bool := false
  model : Option String := none
  deriving DecidableEq, Repr

def Landing.node (landing : Landing) : Option Node := landing.graph.nodeById landing.nodeId

/-- A landing on a hub-executed node keeps the route; every other landing gives it back. -/
def Landing.releasesRoute (landing : Landing) : Bool :=
  landing.node.all fun node => decide (node.executor ≠ .hub)

/-- The same-named node on the target, else its entry. -/
def landingNode (target : Graph) (fromNodeName : String) : String :=
  ((target.nodeByName fromNodeName).map (·.nodeId)).getD target.entryNodeId

/-- An authored cross-graph edge. -/
def Landing.authored (edge : Edge) (target : Graph) (fromNode : Node) : Landing where
  graph := target
  nodeId := landingNode target fromNode.name
  source := .authoredEdge
  model := edge.model

/-- The transition-time consult: an intent first, else follow-latest. An `error` is one of its
assertions. -/
def Landing.consult (intent : Option IntendedMigration) (edge : Edge)
    (targets : MigrationTargets) : Except String (Option Landing) :=
  match intent with
  | none =>
    match targets.followLatest with
    | none => .ok none
    | some latest =>
      if edge.toNodeName = reservedTerminal then .ok none
      else .ok (some { graph := latest, nodeId := landingNode latest edge.toNodeName,
                       source := .followLatest })
  | some intent =>
    match targets.intended with
    | none => .ok none
    | some target =>
      let landsOn (name : String) : Except String (Option Landing) :=
        match target.nodeByName name with
        | some landed =>
          .ok (some { graph := target, nodeId := landed.nodeId, source := .intent,
                      clearIntent := true })
        | none => .error s!"consult resolved landed node `{name}` on graph {target.graphId}"
      match intent.mode, intent.nodeName with
      | .forced, none => .error ""
      | .forced, some name => landsOn name
      | .auto, _ =>
        if (target.nodeByName edge.toNodeName).isSome then landsOn edge.toNodeName else .ok none

/-- The current visit's landing epoch, when the newest movement landed on `nodeId`. -/
def arrivalEpochAt (facts : ChunkFacts) (nodeId : String) : Option ℤ :=
  let arrivals : List (MovementKey × Option String × ℤ) :=
    (facts.transitions.map fun t =>
      (MovementKind.orderKey .transition t.recordedAt t.epoch, some t.toNodeId, t.epoch)) ++
    (facts.migrations.map fun m =>
      (MovementKind.orderKey .migration m.recordedAt m.epoch, m.landedNodeId, m.epoch)) ++
    (facts.restarts.map fun r =>
      (MovementKind.orderKey .restart r.recordedAt r.epoch, some r.toNodeId, r.epoch))
  let newest := arrivals.argmax fun a : MovementKey × Option String × ℤ =>
    (toLex (a.1, a.2.1.getD "") : MovementKey ×ₗ String)
  (newest.filter fun a => decide (a.2.1 = some nodeId)).map (·.2.2)

/-! ## What a submission carries -/

/-- One artifact of a submission as it is stored. -/
def storedArtifact (chunkId : ChunkId) (node : Node) (epoch : ℤ) (artifact : CompletionArtifact)
    (artifactId : String) : StoredArtifact :=
  let isCommit := decide (artifact.kind = .gitCommit)
  { artifactId, chunkId, nodeId := node.nodeId, nodeName := node.name, epoch
    name := artifact.name, kind := artifact.kind
    data := if isCommit then
        artifact.branchName.getD "None" ++ ":" ++ artifact.commitHash.getD "None"
      else artifact.content.getD ""
    repo := if isCommit then artifact.repo else none
    forge := if isCommit then artifact.forge else none }

/-- The artifact rows a submission lands, one minted id each. -/
def storedArtifacts (chunkId : ChunkId) (node : Node) (epoch : ℤ)
    (artifacts : List CompletionArtifact) (artifactIds : ℕ → String) : List StoredArtifact :=
  artifacts.mapIdx fun i artifact => storedArtifact chunkId node epoch artifact (artifactIds i)

/-- A full lowercase object name. -/
def isFullObjectName (hash : String) : Bool :=
  (decide (hash.length = 40) || decide (hash.length = 64)) &&
    hash.toList.all fun c => c.isDigit || (decide ('a' ≤ c) && decide (c ≤ 'f'))

/-- What a commit pointer lacks. -/
def commitPointerFault (artifact : CompletionArtifact) : Option String :=
  if stripped (artifact.repo.getD "") = "" then some "`repo` is required"
  else
    let branch := artifact.branchName.getD ""
    if stripped branch = "" then some "`branch_name` is required"
    else if ':' ∈ branch.toList then some "`branch_name` must not contain `:`"
    else if !isFullObjectName (artifact.commitHash.getD "") then
      some "`commit_hash` must be a full lowercase 40- or 64-hex object name"
    else none

/-- The first incomplete commit pointer of a submission. -/
def commitPointerRejection (artifacts : List CompletionArtifact) : Option String :=
  artifacts.findSome? fun artifact =>
    if artifact.kind ≠ .gitCommit then none
    else (commitPointerFault artifact).map fun fault =>
      s!"git_commit artifact `{artifact.name}`: {fault}"

/-- The rollout brake on the route-token check. -/
inductive RouteTokenMode | warn | enforce
  deriving DecidableEq, Repr

/-- A chunk's live route judged against the token one submission presents. -/
def routeTokenFailure (tokenHash : String → String) (facts : ChunkFacts)
    (presented : Option String) (submissionRunnerId : RunnerId) (routeRunnerId : Option RunnerId) :
    Option String :=
  match facts.routes.newestToken with
  | none => some "chunk has no live route — nothing to authorize this write against"
  | some live =>
    if presented.all fun token => decide (tokenHash token ≠ live.tokenHash) then
      some "route token missing or does not match the chunk's live route"
    else if routeRunnerId ≠ some submissionRunnerId then
      some s!"runner_id {quoted submissionRunnerId} does not hold the chunk's live route"
    else none

/-- The failure a submission is rejected with: only under `enforce`. -/
def routeTokenRejection (tokenHash : String → String) (mode : RouteTokenMode) (facts : ChunkFacts)
    (presented : Option String) (submissionRunnerId : RunnerId) (routeRunnerId : Option RunnerId) :
    Option String :=
  match mode with
  | .warn => none
  | .enforce => routeTokenFailure tokenHash facts presented submissionRunnerId routeRunnerId

end Blizzard.CompletionRules
