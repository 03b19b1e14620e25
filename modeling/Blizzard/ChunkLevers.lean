import Blizzard.ClaimAdmission

/-! # The levers on a chunk

Releasing, detaching, promoting, demoting, stopping and restarting a chunk:
each re-reads its guards in its own transaction and writes nothing it refuses. -/
namespace Blizzard.ChunkLevers
open HubTables RouteLiveness EpochFence FencedWrites StatusLadder FactLoading WorkflowGraph
open ClaimAdmission

/-- What a lever answered: its row written, a standing one replayed, or a refusal. -/
inductive LeverOutcome
  | written
  | replayed
  | refused (detail : String)
  | chunkNotFound
  deriving DecidableEq, Repr

inductive RouteTokenMode | warn | enforce
  deriving DecidableEq, Repr

/-- A live acquisition judged against a submission's presented token, by its digest. -/
def routeTokenRejection (facts : ChunkFacts) (presented : Option String) (submissionRunnerId : RunnerId)
    (routeRunnerId : Option RunnerId) (mode : RouteTokenMode) : Option String :=
  let detail :=
    match facts.routes.newestToken with
    | none => some "chunk has no live route — nothing to authorize this write against"
    | some live =>
      if presented ≠ some live.tokenHash then
        some "route token missing or does not match the chunk's live route"
      else if some submissionRunnerId ≠ routeRunnerId then
        some ("runner_id '" ++ submissionRunnerId ++ "' does not hold the chunk's live route")
      else none
  if mode = .enforce then detail else none

/-- Whether a live route on a chunk at this status is still a holding. -/
def holds (status : Option ChunkStatus) : Bool := status.all holdsClaim

/-- The runner still holds the route, and the chunk still holds a claim. -/
def releasableBy (route : Option Route) (status : Option ChunkStatus) (runnerId : RunnerId) : Bool :=
  (route.any fun held => decide (held.runnerId = runnerId)) && holds status

structure ReleaseRequest where
  chunkId : ChunkId
  runnerId : RunnerId
  epoch : ℤ
  routeToken : Option String
  reason : String
  mode : RouteTokenMode
  deriving DecidableEq, Repr

/-- Why the runner may not release the route at the epoch. -/
def refuseRelease (route : Option Route) (facts : ChunkFacts) (runnerId : RunnerId) (epoch : ℤ) :
    Option String :=
  if !releasableBy route (some facts.status) runnerId then some "release refused: not-holder"
  else if !facts.admits .release then some "release refused: not-running"
  else if epoch ≠ facts.latestEpoch.getD 0 then some "release refused: stale"
  else none

/-- Give a chunk's route back at its holder's own request. -/
def release (tables : Tables) (request : ReleaseRequest) (now : Instant) : Tables × LeverOutcome :=
  let route := routeOf tables request.chunkId
  let facts := (loadFacts tables request.chunkId).getD {}
  match routeTokenRejection facts request.routeToken request.runnerId (route.map (·.runnerId))
      request.mode with
  | some rejection => (tables, .refused rejection)
  | none =>
    match refuseRelease route facts request.runnerId request.epoch with
    | some refusal => (tables, .refused refusal)
    | none =>
      (recordRouteReleasedConn tables request.chunkId (some "release") (some request.reason) now,
        .written)

/-- Release a chunk from its runner without touching any escalation. -/
def detach (tables : Tables) (chunkId : ChunkId) (now : Instant) : Tables × LeverOutcome :=
  match routeOf tables chunkId with
  | none => (tables, .refused "no live route")
  | some _ =>
    if ((loadFacts tables chunkId).map (·.status)).any fun status =>
        decide (status ∈ terminalStatuses) then
      (tables, .refused "its route holds no claim")
    else (recordRouteReleasedConn tables chunkId (some "detach") none now, .written)

/-- Retirement's release pass, refused once the runner's lifecycle has moved on. -/
def releaseHeld (tables : Tables) (chunkId : ChunkId) (runnerId : RunnerId)
    (lifecycleStands : Bool) (now : Instant) : Tables × LeverOutcome :=
  let status := (loadFacts tables chunkId).map (·.status)
  if !releasableBy (routeOf tables chunkId) status runnerId then (tables, .replayed)
  else if !lifecycleStands then (tables, .refused "runner lifecycle conflict")
  else (recordRouteReleasedConn tables chunkId (some "retirement") none now, .written)

/-- The clock reading, moved one step past the opposing fact it supersedes. -/
def afterNewest (newest : Option Instant) (now : Instant) : Instant :=
  match newest with
  | none => now
  | some instant => max now (instant + microsecond)

def insertPromoted (tables : Tables) (chunkId : ChunkId) (now : Instant) : Tables :=
  let promotedAt := afterNewest (newestInstant (demotedInstants tables chunkId)) now
  { tables with chunkPromoted := tables.chunkPromoted ++ [⟨chunkId, promotedAt⟩] }

def insertDemoted (tables : Tables) (chunkId : ChunkId) (now : Instant) : Tables :=
  let demotedAt := afterNewest (newestInstant (promotedInstants tables chunkId)) now
  { tables with chunkDemoted := tables.chunkDemoted ++ [⟨chunkId, demotedAt⟩] }

/-- Not promoted, and `promote` is legal from the status. -/
def isPromotable (facts : ChunkFacts) : Bool := !facts.promoted && facts.admits .promote

def promote (tables : Tables) (chunkId : ChunkId) (now : Instant) : Tables × LeverOutcome :=
  match loadFacts tables chunkId with
  | none => (tables, .chunkNotFound)
  | some facts =>
    if facts.promoted then (tables, .replayed)
    else if !isPromotable facts then (tables, .refused "not promotable")
    else (insertPromoted tables chunkId now, .written)

/-- A promoted chunk demotes from `ready`, or when only a pause withholds it from there. -/
def demote (tables : Tables) (chunkId : ChunkId) (now : Instant) : Tables × LeverOutcome :=
  match loadFacts tables chunkId with
  | none => (tables, .chunkNotFound)
  | some facts =>
    if !facts.promoted then (tables, .replayed)
    else if !facts.admits .demote && !facts.isReadyButForPause then (tables, .refused "not demotable")
    else (insertDemoted tables chunkId now, .written)

def stop (tables : Tables) (chunkId : ChunkId) (by_ : String) (now : Instant) :
    Tables × LeverOutcome :=
  match loadFacts tables chunkId with
  | none => (tables, .chunkNotFound)
  | some facts =>
    if !facts.admits .stop then (tables, .refused "not stoppable")
    else (recordStopLocked tables chunkId by_ now, .written)

/-- A restart's request: the pinned graph as the caller loaded it, and a cross-graph target with
whether it is retired. -/
structure RestartRequest where
  chunkId : ChunkId
  graph : Graph
  nodeName : Option String
  by_ : String
  toGraph : Option Graph
  toGraphRetired : Bool
  note : Option String
  migrationId : String
  decisionId : String
  deriving DecidableEq, Repr

/-- The answer every open question a restart consumes is closed with. -/
def supersededAnswer : String :=
  "The node-step that asked this was superseded by an operator restart; no answer applies."

/-- The node the move lands on, resolved by name against the graph it lands on. -/
def restartLanding (graph : Graph) (toGraph : Option Graph) (fromNodeId nodeName : Option String) :
    Option Node :=
  let landing := toGraph.getD graph
  match nodeName, fromNodeId with
  | some name, _ => landing.nodeByName name
  | none, none => landing.nodeById landing.entryNodeId
  | none, some nodeId =>
    match graph.nodeById nodeId, toGraph with
    | none, _ => none
    | some current, none => some current
    | some current, some target => target.nodeByName current.name

/-- Everything the one restart write records, or the first refusal. -/
def planRestart (chunk : ChunkRow) (facts : ChunkFacts) (request : RestartRequest) :
    Except String RestartWrite :=
  if !facts.admits .restart then .error "not restartable"
  else if request.toGraph.isSome && request.toGraphRetired then .error "target graph is retired"
  else if request.toGraph.any fun target => decide (target.graphId = chunk.graphId) then
    .error "migration target is the current pin"
  else if request.toGraph.isNone && decide (chunk.graphId ≠ request.graph.graphId) then
    .error "graph pin changed"
  else
    match restartLanding request.graph request.toGraph facts.currentNodeId request.nodeName with
    | none => .error "restart node unknown"
    | some target =>
      .ok
        { chunkId := request.chunkId
          fromNodeId := facts.currentNodeId
          toNodeId := target.nodeId
          by_ := request.by_
          decisionId := facts.unclosedDecision.map (·.decisionId)
          answeredQuestionIds := facts.openQuestions.map (·.questionId)
          answer := supersededAnswer
          toGraphId := request.toGraph.map (·.graphId)
          note := request.note
          migrationId := request.migrationId }

/-- The decision a gate opens with: the node's own choice set, on nobody's claim. -/
def gateDecision (chunkId : ChunkId) (node : Node) (epoch : ℤ) (decisionId : String)
    (claimant : Option Claimant) : DecisionWrite where
  decisionId := decisionId
  chunkId := chunkId
  nodeId := node.nodeId
  nodeName := node.name
  epoch := epoch
  admission := .current
  claimant := claimant
  choices := node.choices.map fun c => ⟨c.name, c.description, c.requiresChecks⟩
  checkResults := []
  artifacts := []
  imposedByRunnerId := none

/-- A move that lands on a human-judged node opens its decision in the same transaction. -/
def openGraphGateOnArrival (tables : Tables) (chunkId : ChunkId) (graph : Graph) (nodeId : String)
    (epoch : ℤ) (decisionId : String) (claimant : Option Claimant) (now : Instant) :
    Tables × WriteOutcome :=
  match NextStep.of graph nodeId with
  | .gate node =>
    recordDecisionLocked tables (gateDecision chunkId node epoch decisionId claimant) now
  | _ => (tables, .recorded)

/-- Force a chunk onto a node at a fresh epoch; a refused gate rolls the whole move back. -/
def restart (tables : Tables) (request : RestartRequest) (now : Instant) : Tables × LeverOutcome :=
  match loadFacts tables request.chunkId, record tables request.chunkId with
  | some facts, some chunk =>
    match planRestart chunk facts request with
    | .error detail => (tables, .refused detail)
    | .ok write =>
      match recordRestartConn tables write now with
      | (moved, .recorded) =>
        let epoch := ((loadFacts moved request.chunkId).bind (·.latestEpoch)).getD 0
        match openGraphGateOnArrival moved request.chunkId (request.toGraph.getD request.graph)
            write.toNodeId epoch request.decisionId none now with
        | (gated, .recorded) => (gated, .written)
        | (gated, .replayed) => (gated, .written)
        | _ => (tables, .refused "gate arrival refused after movement")
      | _ => (tables, .chunkNotFound)
  | _, _ => (tables, .chunkNotFound)

end Blizzard.ChunkLevers
