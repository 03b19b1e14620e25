import Blizzard.FleetHoldings
import Blizzard.FleetRequests

/-! # The fleet under interleaved requests

Every request reads before it writes, and a retire or a reinstatement commits
its release pass chunk by chunk, so all of them interleave with each other and
with the claims. A read stays available to whoever took it; a pass is resumed
from where its last commit left it. -/
namespace Blizzard.FleetRuns
open HubTables RouteLiveness StatusLadder FactLoading FencedWrites WorkflowGraph ClaimAdmission
open ChunkLevers EpochFencing ClaimExclusivity FleetRegistry FleetWrites FleetRequests FleetHoldings

abbrev Registration := FleetRegistry.RunnerRegistration

/-- What a release pass finishes with. -/
inductive Purpose
  | retirement
  | reinstatement (runner : Registration) (fact : LifecycleFact) (host : Option Host)

inductive PassStage
  | unread
  | routed (chunkIds : List ChunkId)
  | walking (chunkIds : List ChunkId)
  | reinstated
  | refused

/-- A release pass over the routes a runner holds, for the retirement its version stands at. A chunk
is passed over with the status it derived, or none where it has no record. -/
structure Pass where
  runnerId : RunnerId
  version : ℕ
  purpose : Purpose
  passedOver : List (ChunkId × Option ChunkStatus) := []
  stage : PassStage := .unread

/-- A retirement that has looked at every route it read. -/
def Pass.Finished (pass : Pass) : Prop := pass.purpose = .retirement ∧ pass.stage = .walking []

inductive HostStage
  | unread
  | walking (roster : List Registration) (on : Option ℕ)
  | refused

/-- A host's retirement once it landed: the runners still to retire, and the pass under way. -/
structure HostPass where
  hostId : String
  force : Bool
  by_ : String
  stage : HostStage := .unread

structure Fleet where
  registry : Registry
  hub : Hub
  runners : List Registration := []
  hosts : List Host := []
  passes : List Pass := []
  hostPasses : List HostPass := []

/-- One commit, or one read, of a request under way. -/
inductive FleetEvent
  | readRunner (runnerId : RunnerId)
  | readHost (hostId : String)
  | request (request : Request)
  | retire (runner : Registration) (holdings : List Route) (force : Bool) (stamp : Stamp)
  | reinstate (runner : Registration) (stamp : Stamp)
  | readRoutes (pass : ℕ)
  | readRecords (pass : ℕ)
  | releaseNext (pass : ℕ) (at_ : Instant)
  | reinstated (pass : ℕ)
  | retireHost (host : Host) (holdings : List (RunnerId × List Route)) (force : Bool) (stamp : Stamp)
  | readRoster (hostPass : ℕ)
  | retireNext (hostPass : ℕ) (holdings : List Route) (at_ : Instant)
  | claim (route : RouteClaim) (peeked : Option Registration) (graphs : String → Option Graph)
      (eligible : ChunkRow → Graph → Node → Bool) (at_ : Instant)
  | chunk (command : ChunkCommand) (at_ : Instant)

/-- What a claim is judged on of a registration. -/
def claimant (runner : Registration) : ClaimAdmission.RunnerRegistration where
  runnerId := runner.runnerId
  registeredAt := runner.registeredAt
  retired := runner.retired
  hubPaused := runner.hubPaused
  versionRefusal := runner.versionRefusal
  served := runner.served.map (·.projectId)

/-- A command on the chunks that reads nothing of the registry. -/
def aside : ChunkCommand → Bool
  | .claim _ => false
  | .releaseHeld _ _ _ => false
  | command => command.isService

namespace Fleet
variable (fleet : Fleet)

/-- The clock's next reading. -/
def clock (at_ : Instant) : Instant := max fleet.hub.now at_

def setPass (i : ℕ) (pass : Pass) : Fleet := { fleet with passes := fleet.passes.set i pass }

def setHostPass (i : ℕ) (hostPass : HostPass) : Fleet :=
  { fleet with hostPasses := fleet.hostPasses.set i hostPass }

/-- A retire's first unit, and its release pass to come. -/
def retireRunner (runner : Registration) (holdings : List Route) (force : Bool) (stamp : Stamp) :
    Except FleetRefusal Fleet := do
  let unit ← retireUnit fleet.registry runner holdings force stamp
  .ok { fleet with
    registry := unit.registry
    passes := fleet.passes ++ [{
      runnerId := runner.runnerId, version := unit.version, purpose := .retirement }] }

/-- A reinstatement is decided on the host the runner was read under, and then releases what the
retirement left. -/
def startReinstatement (runner : Registration) (stamp : Stamp) : Except FleetRefusal Fleet := do
  let host := runner.hostId.bind fleet.registry.getHost
  let fact ← decideReinstatement runner host stamp
  if host.map (·.hostId) ≠ runner.hostId then .error (.hostNeverAdded (runner.hostId.getD ""))
  else
    .ok { fleet with
      passes := fleet.passes ++ [{
        runnerId := runner.runnerId, version := runner.lifecycleVersion
        purpose := .reinstatement runner fact host }] }

/-- The chunks of the read routes that still have their records; the others are passed over. -/
def readRecords (i : ℕ) (pass : Pass) (chunkIds : List ChunkId) : Fleet :=
  let recorded := chunkIds.filter fun chunkId => (record fleet.hub.tables chunkId).isSome
  let gone := chunkIds.filter fun chunkId => !(record fleet.hub.tables chunkId).isSome
  fleet.setPass i { pass with
    passedOver := pass.passedOver ++ gone.map fun chunkId => (chunkId, none)
    stage := .walking recorded }

/-- One release of a pass, under the chunk's lock. -/
def releaseNext (i : ℕ) (pass : Pass) (chunkId : ChunkId) (rest : List ChunkId) (at_ : Instant) :
    Fleet :=
  let tables := fleet.hub.tables
  let stands := decide (fleet.registry.runnerLifecycle.version pass.runnerId = pass.version)
  let now := fleet.clock at_
  match releaseHeld tables chunkId pass.runnerId stands now with
  | (_, .refused _) => fleet.setPass i { pass with stage := .refused }
  | (after, .written) =>
    { fleet.setPass i { pass with stage := .walking rest } with hub := ⟨now, after⟩ }
  | _ =>
    let held := (routeOf tables chunkId).any fun route => decide (route.runnerId = pass.runnerId)
    fleet.setPass i { pass with
      passedOver := pass.passedOver ++
        if held then [(chunkId, (loadFacts tables chunkId).map (·.status))] else []
      stage := .walking rest }

/-- The fact of a reinstatement whose pass has released everything it read. -/
def reinstate (i : ℕ) (pass : Pass) (fact : LifecycleFact) (host : Option Host) : Fleet :=
  match recordReinstatement fleet.registry pass.runnerId pass.version fact host with
  | .error _ => fleet.setPass i { pass with stage := .refused }
  | .ok registry => { fleet.setPass i { pass with stage := .reinstated } with registry }

/-- The next runner of a host's retirement, once the one before it is done with. -/
def retireNext (i : ℕ) (hostPass : HostPass) (runner : Registration) (rest : List Registration)
    (holdings : List Route) (at_ : Instant) : Fleet :=
  match fleet.retireRunner runner holdings hostPass.force ⟨at_, hostPass.by_⟩ with
  | .error _ => fleet.setHostPass i { hostPass with stage := .refused }
  | .ok after =>
    after.setHostPass i { hostPass with stage := .walking rest (some fleet.passes.length) }

/-- A claim reads its runner's registration again under the chunk's lock. -/
def claimRequest (route : RouteClaim) (peeked : Option Registration) (graphs : String → Option Graph)
    (eligible : ChunkRow → Graph → Node → Bool) : ClaimRequest where
  route := route
  peeked := peeked.map claimant
  registration := (fleet.registry.getRunner route.runnerId).map claimant
  graphs := graphs
  eligible := eligible

/-- The state after one event; one that has no place in the state changes nothing. -/
def exec : FleetEvent → Fleet
  | .readRunner runnerId =>
    { fleet with runners := fleet.runners ++ (fleet.registry.getRunner runnerId).toList }
  | .readHost hostId => { fleet with hosts := fleet.hosts ++ (fleet.registry.getHost hostId).toList }
  | .request request =>
    if (∀ runner ∈ request.runners, runner ∈ fleet.runners) ∧
        ∀ host ∈ request.hosts, host ∈ fleet.hosts then
      match request.exec fleet.registry with
      | .error _ => fleet
      | .ok registry => { fleet with registry }
    else fleet
  | .retire runner holdings force stamp =>
    if runner ∈ fleet.runners then
      (fleet.retireRunner runner holdings force stamp).toOption.getD fleet
    else fleet
  | .reinstate runner stamp =>
    if runner ∈ fleet.runners then (fleet.startReinstatement runner stamp).toOption.getD fleet
    else fleet
  | .readRoutes i =>
    match fleet.passes[i]? with
    | some pass =>
      match pass.stage with
      | .unread =>
        fleet.setPass i { pass with
          stage := .routed ((liveRoutesOfRunner fleet.hub.tables pass.runnerId).map (·.chunkId)) }
      | _ => fleet
    | none => fleet
  | .readRecords i =>
    match fleet.passes[i]? with
    | some pass =>
      match pass.stage with
      | .routed chunkIds => fleet.readRecords i pass chunkIds
      | _ => fleet
    | none => fleet
  | .releaseNext i at_ =>
    match fleet.passes[i]? with
    | some pass =>
      match pass.stage with
      | .walking (chunkId :: rest) => fleet.releaseNext i pass chunkId rest at_
      | _ => fleet
    | none => fleet
  | .reinstated i =>
    match fleet.passes[i]? with
    | some pass =>
      match pass.stage, pass.purpose with
      | .walking [], .reinstatement _ fact host => fleet.reinstate i pass fact host
      | _, _ => fleet
    | none => fleet
  | .retireHost host holdings force stamp =>
    if host ∈ fleet.hosts then
      match FleetWrites.retireHost fleet.registry host holdings force stamp with
      | .error _ => fleet
      | .ok registry =>
        { fleet with
          registry
          hostPasses := fleet.hostPasses ++ [{ hostId := host.hostId, force, by_ := stamp.by_ }] }
    else fleet
  | .readRoster i =>
    match fleet.hostPasses[i]? with
    | some hostPass =>
      match hostPass.stage with
      | .unread =>
        fleet.setHostPass i { hostPass with
          stage := .walking (fleet.registry.roster hostPass.hostId) none }
      | _ => fleet
    | none => fleet
  | .retireNext i holdings at_ =>
    match fleet.hostPasses[i]? with
    | some hostPass =>
      match hostPass.stage with
      | .walking (runner :: rest) on =>
        match (on.bind fun j => fleet.passes[j]?).map Pass.stage with
        | none | some (.walking []) => fleet.retireNext i hostPass runner rest holdings at_
        | some .refused => fleet.setHostPass i { hostPass with stage := .refused }
        | _ => fleet
      | _ => fleet
    | none => fleet
  | .claim route peeked graphs eligible at_ =>
    if peeked.all fun runner => decide (runner ∈ fleet.runners) then
      let now := fleet.clock at_
      let request := fleet.claimRequest route peeked graphs eligible
      { fleet with hub := ⟨now, (ClaimAdmission.claim fleet.hub.tables request now).1⟩ }
    else fleet
  | .chunk command at_ =>
    if aside command then
      let now := fleet.clock at_
      { fleet with hub := ⟨now, command.exec fleet.hub.tables now⟩ }
    else fleet

/-- The state after any sequence of events. -/
def run (events : List FleetEvent) : Fleet := events.foldl exec fleet

/-- A hub that has minted its chunks and added nobody. -/
def start (now : Instant) (chunks : ChunkTable) (graphNodes : List GraphNodeRow) : Fleet where
  registry := .empty
  hub := ⟨now, .minted chunks graphNodes⟩

end Fleet

end Blizzard.FleetRuns
