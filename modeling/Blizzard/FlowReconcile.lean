import Blizzard.FlowLines
import Blizzard.StatusLadder
import Blizzard.WorkflowGraph

/-! # The reconcile of a tenant's flow lines

The pass submits every chunk standing at a hub node with no open submission for its visit, closes
every open submission whose chunk has left its visit, and answers the arrival floor its next one
reads from. Its reads are at different moments: between any two of its steps a chunk may move, a
lever may end one, and a turn may end. -/
namespace Blizzard.FlowReconcile
open HubTables StatusLadder WorkflowGraph FlowLines

/-! ## Where a chunk stands -/

section Facts
variable (facts : ChunkFacts)

def visitIsCurrent (nodeId : String) (epoch : ℤ) : Bool :=
  match facts.latestMovement none with
  | none => false
  | some movement => movement.nodeId = some nodeId ∧ facts.latestEpoch.getD 0 = epoch

/-- The chunk is `delivering` at its current visit. -/
def deliveringAt (nodeId : String) (epoch : ℤ) : Bool :=
  facts.status = .delivering ∧ visitIsCurrent facts nodeId epoch

def restartedPast (epoch : ℤ) : Bool := facts.restarts.any (epoch < ·.epoch)

def isCurrent (s : SubmissionRow) : Bool := visitIsCurrent facts s.nodeId s.epoch

def standsAt (s : SubmissionRow) : Bool :=
  match facts.latestMovement none with
  | none => false
  | some movement => movement.nodeId = some s.nodeId

/-- A person holds the chunk at the submission's node in a later epoch. -/
def heldByAPerson (s : SubmissionRow) : Bool :=
  standsAt facts s ∧ s.epoch < facts.latestEpoch.getD 0 ∧
    (facts.status = .needsHuman ∨ facts.status = .paused)

/-- Why a submission leaves its flows, `none` while it keeps its place. -/
def withdrawalFor (s : SubmissionRow) : Option Withdrawal :=
  if facts.status = .stopped then some .stopped
  else if facts.status = .done ∧ facts.operatorCompleted then some .completed
  else if isCurrent facts s ∨ heldByAPerson facts s then none
  else if restartedPast facts s.epoch then some .restarted
  else some .superseded

/-- When the chunk's newest movement was recorded. -/
def enteredAt : Option Instant :=
  (facts.transitions.map (·.recordedAt) ++ facts.migrations.map (·.recordedAt) ++
    facts.restarts.map (·.recordedAt)).max?

/-- The hub node the chunk's newest movement enters on its graph. -/
def hubNodeOf (graph : Graph) : Option Node := do
  let nodeId ← facts.currentNodeId
  let node ← graph.nodeById nodeId
  if node.executor = .hub then some node else none

/-- The hub node a chunk may be advanced at: from a status that is neither terminal nor at rest. -/
def hubAdvanceNode (graph : Graph) : Option Node := do
  let node ← hubNodeOf facts graph
  if facts.status ∈ nonTerminal ∧ facts.status ≠ .notReady then some node else none

/-- A node's visit has recorded no exit, and no newer epoch superseded it. -/
def awaitsExitFrom (node : Node) (epoch : ℤ) : Bool :=
  ¬(facts.transitions.any fun t => t.fromNodeId = some node.nodeId ∧ t.epoch = epoch) ∧
  ¬(facts.migrations.any fun m => m.fromNodeId = some node.nodeId ∧ m.epoch = epoch) ∧
  facts.latestEpoch.getD 0 ≤ epoch

end Facts

/-- A chunk's record and facts, as one read answers them. -/
structure LineChunk where
  chunkId : ChunkId
  graphId : String
  facts : ChunkFacts
  deriving DecidableEq

/-- What a line reads of where facts put a chunk. -/
structure Place where
  status : ChunkStatus
  movement : Option Movement
  epoch : ℤ
  completed : Bool
  restarts : List ℤ
  enteredAt : Option Instant
  deriving DecidableEq

def placeOf (facts : ChunkFacts) : Place where
  status := facts.status
  movement := facts.latestMovement none
  epoch := facts.latestEpoch.getD 0
  completed := facts.operatorCompleted
  restarts := facts.restarts.map (·.epoch)
  enteredAt := enteredAt facts

/-- A write that changes where a chunk stands moves it. -/
def LineChunk.stand (row : LineChunk) : String × Place := (row.graphId, placeOf row.facts)

/-! ## The pass -/

/-- A chunk standing at a hub node, at the visit's epoch, since `enteredAt`. -/
structure Standing where
  chunkId : ChunkId
  graph : Graph
  node : Node
  epoch : ℤ
  enteredAt : Instant
  deriving DecidableEq

/-- The chunk, as read now, still stands at this visit. -/
def Standing.holds (standing : Standing) (row : Option LineChunk) : Bool :=
  match row with
  | none => false
  | some row => row.graphId = standing.graph.graphId ∧
      deliveringAt row.facts standing.node.nodeId standing.epoch

abbrev FactsById := List (ChunkId × ChunkFacts)

def factsOf (facts : FactsById) (chunkId : ChunkId) : Option ChunkFacts :=
  (facts.find? (·.1 = chunkId)).map (·.2)

/-- Where the pass is, with what it has read. -/
inductive Stage
  | opened
  | listed (live : List ChunkId)
  | loaded (facts : FactsById)
  | submitting (facts : FactsById) (visits : List Standing)
  | deciding (facts : FactsById) (standing : Standing) (visits : List Standing)
  | turned (facts : FactsById) (turning : List String)
  | closing (facts : FactsById) (turning : List String) (left stillOpen : List SubmissionRow)
  deriving DecidableEq

/-- A reconcile in progress. The last four fields are no data of it: whether a chunk moved or a
visit's submit raised since it began, the chunks it refused, and the submissions whose turn ended
closing them `superseded`. -/
structure Pass where
  openSubs : List SubmissionRow
  submitted : List SubmissionRow := []
  stage : Stage := .opened
  moved : Bool := false
  raised : Bool := false
  refused : List ChunkId := []
  overtaken : List String := []
  deriving DecidableEq

/-- A tenant's lines: the tables, the chunks, the driver's floor and its reconcile. -/
structure Line where
  tables : FlowTables := {}
  chunks : List LineChunk := []
  floor : ℕ := 0
  pass : Option Pass := none
  deriving DecidableEq

variable (line : Line)

def Line.chunk? (chunkId : ChunkId) : Option LineChunk :=
  line.chunks.find? (·.chunkId = chunkId)

/-- A chunk's facts, the default where it has none. -/
def Line.facts (chunkId : ChunkId) : ChunkFacts := ((line.chunk? chunkId).map (·.facts)).getD {}

/-- The chunk's rows replaced, or deleted. -/
def Line.setChunk (chunkId : ChunkId) (row : Option (String × ChunkFacts)) : Line :=
  { line with
    chunks := line.chunks.filter (·.chunkId ≠ chunkId) ++
      row.toList.map fun (graphId, facts) => ⟨chunkId, graphId, facts⟩ }

def Line.atStage (pass : Pass) (stage : Stage) : Line :=
  { line with pass := some { pass with stage } }

/-- The open submissions that arrived at the floor or later, in arrival order. -/
def Line.openSubmissionsFrom (floor : ℕ) : List SubmissionRow :=
  (line.tables.submissions.filter fun s => floor ≤ s.arrival ∧ line.tables.isOpen s.submissionId)
    |>.insertionSort fun a b => a.arrival ≤ b.arrival

/-- The chunks that read `delivering`. -/
def Line.deliveringChunks : List ChunkId :=
  (line.chunks.map (·.chunkId)).dedup.filter fun chunkId =>
    (line.facts chunkId).status = .delivering

def Line.loadFactsFor (chunkIds : List ChunkId) : FactsById :=
  chunkIds.filterMap fun chunkId => (line.chunk? chunkId).map fun row => (chunkId, row.facts)

/-- Every chunk whose newest movement enters a hub node, oldest entry first. -/
def Line.standing (graphs : List Graph) (facts : FactsById) : List Standing :=
  (facts.filterMap fun (chunkId, facts) => do
    let row ← line.chunk? chunkId
    let graph ← graphs.find? (·.graphId = row.graphId)
    let node ← hubNodeOf facts graph
    let enteredAt ← enteredAt facts
    some (⟨chunkId, graph, node, facts.latestEpoch.getD 0, enteredAt⟩ : Standing)).insertionSort
      fun a b => a.enteredAt < b.enteredAt ∨ a.enteredAt = b.enteredAt ∧ a.chunkId ≤ b.chunkId

def inLine (openSubs : List SubmissionRow) (standing : Standing) : Bool :=
  openSubs.any fun s =>
    s.chunkId = standing.chunkId ∧ s.nodeId = standing.node.nodeId ∧ s.epoch = standing.epoch

/-- Escalate a chunk standing at a hub node that names no action: the hub's lease and escalation
at the next epoch, where none stands there and the fence admits it. -/
def Line.escalateActionless (standing : Standing) (loaded : ChunkFacts) (cause detail : String)
    (at_ : Instant) : Line :=
  if hubAdvanceNode loaded standing.graph = some standing.node ∧ loaded.openEscalation = none ∧
      awaitsExitFrom loaded standing.node standing.epoch then
    match line.chunk? standing.chunkId with
    | none => line
    | some row =>
      let facts := row.facts
      let epoch := standing.epoch + 1
      let newest := facts.latestEpoch.getD 0
      if facts.escalations.any (·.epoch = epoch) ∨ facts.status ∈ terminalStatuses ∨
          ¬(newest = 0 ∨ newest < epoch) then line
      else line.setChunk standing.chunkId <| some (row.graphId, { facts with
        leases := facts.leases ++ [⟨epoch, at_⟩]
        epochOwners := facts.epochOwners ++ [⟨epoch, none⟩]
        escalations := facts.escalations ++ [⟨epoch, at_, "", "", some cause, some detail⟩] })
  else line

/-- What resolving a visit that may submit comes to: an exception, a refusal that leaves its chunk
with the rows given, or the flows it holds. -/
inductive Resolved
  | raises
  | refusal (row : Option (String × ChunkFacts))
  | holds (submissionId : String) (mint : String → String) (resources : List FlowResource)

/-- Submit one visit in the unit that writes it, deciding from what is read there. -/
def Line.submit (pass : Pass) (standing : Standing) (submissionId : String)
    (mint : String → String) (resources : List FlowResource) (at_ : Instant) : Line × Pass :=
  if standing.holds (line.chunk? standing.chunkId) then
    match line.tables.generation standing.chunkId standing.node.nodeId standing.epoch with
    | none => (line, pass)
    | some generation =>
      match line.tables.submit submissionId mint standing.chunkId standing.node.nodeId
          standing.epoch generation resources at_ with
      | none => (line, { pass with raised := true })
      | some tables => ({ line with tables }, { pass with
          submitted := pass.submitted ++ (tables.submission? submissionId).toList })
  else (line, pass)

/-- The submission of a turn, and what its end closes it under: the outcome its routing names, or
what `withdrawalFor` answers under the chunk's lock. -/
def Line.turnClosure (turnId : String) (closure : Option String) : Option (String × Option String) := do
  let turn ← line.tables.turns.find? (·.turnId = turnId)
  let s ← line.tables.submission? turn.submissionId
  some (s.submissionId,
    closure <|> (withdrawalFor (line.facts s.chunkId) s).map (·.outcome))

/-- The floor a finished pass answers: the lowest arrival left open, else past everything read. -/
def nextFloor (floor : ℕ) (openSubs leftOpen : List SubmissionRow) : ℕ :=
  match (leftOpen.map (·.arrival)).min? with
  | some lowest => lowest
  | none => ((openSubs.map (·.arrival + 1)).max?).getD floor

/-! ## Steps -/

/-- The steps of a reconcile in progress, in the order they run. -/
inductive PassStep
  | listLive
  | loadFacts
  | readStanding
  | probe
  | escalate (cause detail : String) (at_ : Instant)
  | decide (resolved : Resolved) (at_ : Instant)
  | readTurns
  | loadOutside
  | close (at_ : Instant)
  | finish

variable (graphs : List Graph)

/-- A step of the pass; one that is not its next does nothing. -/
def Line.advance (pass : Pass) : PassStep → Line
  | .listLive =>
    match pass.stage with
    | .opened => line.atStage pass (.listed line.deliveringChunks)
    | _ => line
  | .loadFacts =>
    match pass.stage with
    | .listed live => line.atStage pass (.loaded (line.loadFactsFor live))
    | _ => line
  | .readStanding =>
    match pass.stage with
    | .loaded facts =>
      line.atStage pass (.submitting facts
        ((line.standing graphs facts).filter fun s => !inLine pass.openSubs s))
    | _ => line
  | .probe =>
    match pass.stage with
    | .submitting facts (standing :: visits) =>
      -- a visit with no generation left to submit is skipped before it is resolved
      if standing.node.action = none ∨ (line.tables.generation standing.chunkId
          standing.node.nodeId standing.epoch).isSome then
        line.atStage pass (.deciding facts standing visits)
      else line.atStage pass (.submitting facts visits)
    | _ => line
  | .escalate cause detail at_ =>
    match pass.stage with
    | .deciding facts standing visits =>
      if standing.node.action = none then
        (line.escalateActionless standing ((factsOf facts standing.chunkId).getD {}) cause detail
          at_).atStage pass (.submitting facts visits)
      else line
    | _ => line
  | .decide resolved at_ =>
    match pass.stage with
    | .deciding facts standing visits =>
      match resolved with
      | .raises => line.atStage { pass with raised := true } (.submitting facts visits)
      | .refusal row =>
        if standing.node.action = none then line
        else (line.setChunk standing.chunkId row).atStage
          { pass with refused := pass.refused ++ [standing.chunkId] } (.submitting facts visits)
      | .holds submissionId mint resources =>
        if standing.node.action = none then line
        else
          let after := line.submit pass standing submissionId mint resources at_
          after.1.atStage after.2 (.submitting facts visits)
    | _ => line
  | .readTurns =>
    match pass.stage with
    | .submitting facts [] =>
      line.atStage pass (.turned facts
        ((line.tables.turns.filter (·.endedAt = none)).map (·.submissionId)))
    | _ => line
  | .loadOutside =>
    match pass.stage with
    | .turned facts turning =>
      let outside := (pass.openSubs.map (·.chunkId)).dedup.filter (factsOf facts · = none)
      line.atStage pass (.closing (facts ++ line.loadFactsFor outside) turning pass.openSubs [])
    | _ => line
  | .close at_ =>
    match pass.stage with
    | .closing facts turning (s :: left) stillOpen =>
      match withdrawalFor ((factsOf facts s.chunkId).getD {}) s with
      | none => line.atStage pass (.closing facts turning left (stillOpen ++ [s]))
      | some outcome =>
        if s.submissionId ∈ turning then
          line.atStage pass (.closing facts turning left (stillOpen ++ [s]))
        else
          Line.atStage
            { line with
              tables := (line.tables.close s.submissionId outcome at_).getD line.tables }
            pass (.closing facts turning left stillOpen)
    | _ => line
  | .finish =>
    match pass.stage with
    | .closing _ _ [] stillOpen =>
      { line with
        floor := nextFloor line.floor pass.openSubs (stillOpen ++ pass.submitted)
        pass := none }
    | _ => line

inductive Step
  /-- A chunk's rows are written. -/
  | move (chunkId : ChunkId) (row : Option (String × ChunkFacts))
  /-- A lever ends or restarts a chunk and withdraws its waiting submissions. -/
  | lever (chunkId : ChunkId) (graphId : String) (facts : ChunkFacts) (outcome : Withdrawal)
      (at_ : Instant)
  | endTurn (turnId outcome : String) (closure : Option String) (at_ : Instant)
  /-- The driver's admission, between its reconciles. -/
  | takeTurn (turnId submissionId : String) (passedOver : List String)
      (candidates : List LandingTerms) (at_ : Instant)
  /-- A restart of the hub: the reconcile is lost and the floor starts at zero. -/
  | boot
  | begin_
  | advance (step : PassStep)
  /-- The reconcile raises: it is over, and the floor stays. -/
  | abort

/-- Note a write of a chunk in the reconcile it falls into. -/
def Line.noteMove (before : Line) (chunkId : ChunkId) (lever : Bool) : Line :=
  { line with pass := line.pass.map fun pass => { pass with
      moved := pass.moved || lever ||
        decide ((before.chunk? chunkId).map (·.stand) ≠ (line.chunk? chunkId).map (·.stand)) } }

/-- A step; one that does not apply does nothing. -/
def Line.step : Step → Line
  | .move chunkId row => (line.setChunk chunkId row).noteMove line chunkId false
  | .lever chunkId graphId facts outcome at_ =>
    Line.noteMove { line.setChunk chunkId (some (graphId, facts)) with
      tables := line.tables.withdrawWaiting chunkId outcome at_ } line chunkId true
  | .endTurn turnId outcome closure at_ =>
    match line.turnClosure turnId closure with
    | none => line
    | some (submissionId, closure) =>
      match line.tables.endTurnLocked turnId outcome closure at_ with
      | none => line
      | some tables =>
        { line with
          tables
          pass := line.pass.map fun pass => { pass with
            overtaken := pass.overtaken ++
              if closure = some turnSuperseded then [submissionId] else [] } }
  | .takeTurn turnId submissionId passedOver candidates at_ =>
    match line.pass with
    | some _ => line
    | none =>
      { line with
        tables := (line.tables.takeTurn turnId submissionId passedOver candidates at_).getD
          line.tables }
  | .boot => { line with floor := 0, pass := none }
  | .begin_ =>
    match line.pass with
    | some _ => line
    | none => { line with pass := some { openSubs := line.openSubmissionsFrom line.floor } }
  | .advance step =>
    match line.pass with
    | none => line
    | some pass => line.advance graphs pass step
  | .abort => { line with pass := none }

def Line.run (steps : List Step) : Line := steps.foldl (fun line => line.step graphs) line

end Blizzard.FlowReconcile
