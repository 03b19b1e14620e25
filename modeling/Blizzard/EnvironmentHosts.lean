import Blizzard.EnvironmentBindings
import Blizzard.EnvironmentCapacity

/-! # Claims, releases and ingests over shared pools

The runners of a host draw from its workspaces' pools, each under the pool's lock from the held
read to the recorded binding. The provider's steps, the hub's answer, releases, completions and a
crash fall between any two reads and writes; an ingest moves a runner between two stopped hosts. -/
namespace Blizzard.EnvironmentHosts
open HubTables FactSequence DictionaryRows EnvironmentBindings EnvironmentProviders
open EnvironmentCapacity

structure Workspace where
  root : String
  provider : Provider

structure QueueEntry where
  chunkId : ChunkId
  projectId : Option String

/-- What the hub answers a route claim. -/
inductive RouteClaimOutcome
  | claimed
  | conflict
  | deniedPaused
  | deniedTerminal
  | deniedDependency
  | deniedIncompatible
  deriving DecidableEq, Repr

inductive ClaimVerdict
  | won
  | paused
  | notClaimable
  | dependency
  | incompatible
  | lost
  deriving DecidableEq, Repr

def claimVerdict : RouteClaimOutcome → ClaimVerdict
  | .deniedPaused => .paused
  | .deniedTerminal => .notClaimable
  | .deniedDependency => .dependency
  | .deniedIncompatible => .incompatible
  | .conflict => .lost
  | .claimed => .won

structure ClaimDisposition where
  dropEntry : Bool
  release : Bool
  keepFilling : Bool
  deriving DecidableEq, Repr

def claimDisposition (verdict : ClaimVerdict) (strict : Bool) : ClaimDisposition :=
  let strictHold := strict && decide (verdict = .dependency)
  { dropEntry := !strictHold
    release := decide (verdict ≠ .won)
    keepFilling := decide (verdict ≠ .paused) && !strictHold }

/-- How many environments an entry's chunk is acquired. -/
def environmentsWanted : ℕ := 1

/-- Where a claim stands between two of its reads and writes. -/
inductive Phase
  | locked
  | read (heldIds : List String)
  | preparing (acts todo : List PoolAct)
  | cleaning (todo : List String)
  | acquired (envs : List AcquiredEnvironment)
  | binding (now : Instant) (envs rest : List AcquiredEnvironment)
  | refused (envs : List AcquiredEnvironment)
  | claiming (envs : List AcquiredEnvironment)
  | retracting (inside : Bool) (envs : List AcquiredEnvironment)
  | returning (inside : Bool) (envs : List AcquiredEnvironment)
      (released : List (String × Instant)) (rest : List AcquiredEnvironment)
  | handing (inside : Bool) (envs : List AcquiredEnvironment)
      (released : List (String × Instant)) (env : AcquiredEnvironment)
      (rest : List AcquiredEnvironment)

/-- Whether the pool's lock is held through the phase. -/
def Phase.locks : Phase → Bool
  | .claiming _ => false
  | .retracting inside _ => inside
  | .returning inside _ _ _ => inside
  | .handing inside _ _ _ _ => inside
  | _ => true

/-- A runner's claim of a peeked entry from the workspace its project is bound to. -/
structure Pass where
  entry : QueueEntry
  workspaceId : String
  phase : Phase

/-- A chunk's release at its tenure end: the releases still to record, once its bindings are read. -/
structure ReleaseJob where
  runnerId : RunnerId
  chunkId : ChunkId
  rest : List (String × Instant)

structure CompletionJob where
  runnerId : RunnerId
  completions : List BindingCompletion

structure Host where
  store : HostStore := {}
  workspaces : List (String × Workspace) := []
  directories : String → Directory := fun _ => {}
  running : Bool := false
  locks : String → Option RunnerId := fun _ => none
  passes : RunnerId → Option Pass := fun _ => none
  releases : List ReleaseJob := []
  completions : List CompletionJob := []

/-- What a step of a claim is told from outside. -/
structure Input where
  now : Instant
  /-- The workspace's own steps, ahead of its environments', went through. -/
  ready : Bool
  changedAt : String → ℤ
  /-- What the provider's step leaves where it fails. -/
  failed : Option Remains
  /-- The hub's answer, or none where it was not heard. -/
  outcome : Option RouteClaimOutcome
  strict : Bool

namespace Host
variable (host : Host) (runnerId : RunnerId) (pass : Pass)

def workspace (workspaceId : String) : Option Workspace := get host.workspaces workspaceId

def setPhase (phase : Phase) : Host :=
  { host with passes := Function.update host.passes runnerId (some { pass with phase }) }

/-- The claim is over, its lock given back where it still holds it. -/
def leave : Host :=
  { host with
    passes := Function.update host.passes runnerId none
    locks := if pass.phase.locks then Function.update host.locks pass.workspaceId none
      else host.locks }

def setDirectory (workspaceId : String) (directory : Directory) : Host :=
  { host with directories := Function.update host.directories workspaceId directory }

/-- The environments a finished acquire hands over, each with its working directory. -/
def handedOver (workspace : Workspace) (acts : List PoolAct) : List AcquiredEnvironment :=
  (preparedNames acts).map fun name => ⟨name, workspace.root ++ "/" ++ name⟩

/-- The folders after a step of an acquire: a winter workspace keeps none. -/
def applied (provider : Provider) (chunkId : ChunkId) (directory : Directory) (act : PoolAct)
    (failed : Option Remains) : Directory :=
  match provider, failed with
  | .winter _, _ => directory
  | .basic _ _, none => act.apply chunkId directory
  | .basic _ _, some remains => act.fail chunkId directory remains

/-- One read or write of a claim under way. -/
def advance (input : Input) : Host :=
  let chunkId := pass.entry.chunkId
  let workspaceId := pass.workspaceId
  let directory := host.directories workspaceId
  match pass.phase with
  | .locked =>
    host.setPhase runnerId pass
      (.read ((heldWorkspaceBindings host.store workspaceId).map (·.environmentId)).eraseDups)
  | .read heldIds =>
    match host.workspace workspaceId with
    | none => host.leave runnerId pass
    | some workspace =>
      match workspace.provider.acquire directory chunkId environmentsWanted heldIds input.changedAt with
      | .error _ => host.leave runnerId pass
      | .ok acts =>
        if input.ready then host.setPhase runnerId pass (.preparing acts acts)
        else host.leave runnerId pass
  | .preparing acts [] =>
    match host.workspace workspaceId with
    | none => host.leave runnerId pass
    | some workspace => host.setPhase runnerId pass (.acquired (handedOver workspace acts))
  | .preparing acts (act :: todo) =>
    match host.workspace workspaceId with
    | none => host.leave runnerId pass
    | some workspace =>
      let stepped := host.setDirectory workspaceId
        (applied workspace.provider chunkId directory act input.failed)
      match workspace.provider, input.failed with
      | _, none => stepped.setPhase runnerId pass (.preparing acts todo)
      | .winter _, some _ => stepped.leave runnerId pass
      -- what was selected is removed again, as far as that goes
      | .basic _ _, some _ => stepped.setPhase runnerId pass (.cleaning (preparedNames acts))
  | .cleaning [] => host.leave runnerId pass
  | .cleaning (name :: todo) =>
    if (directory.find name).isSome then
      (host.setDirectory workspaceId
        (match input.failed with
          | none => directory.removed name
          | some remains => PoolAct.fail chunkId directory (.evict name) remains)).setPhase
        runnerId pass (.cleaning todo)
    else host.setPhase runnerId pass (.cleaning todo)
  | .acquired envs =>
    match requireUnheld chunkId (envs.map (·.environmentId))
        (heldWorkspaceBindings host.store workspaceId) with
    | .error _ => host.setPhase runnerId pass (.refused envs)
    | .ok () => host.setPhase runnerId pass (.binding input.now envs envs)
  | .binding now envs (env :: rest) =>
    { host.setPhase runnerId pass (.binding now envs rest) with
      store := recordBinding host.store runnerId {
        chunkId, environmentId := env.environmentId, workdir := env.workdir, boundAt := now
        workspaceId := some workspaceId, projectId := pass.entry.projectId } }
  | .binding _ envs [] =>
    { host.setPhase runnerId pass (.claiming envs) with
      locks := Function.update host.locks workspaceId none }
  | .refused envs =>
    let giveback := releasableAfterRefusal chunkId (envs.map (·.environmentId))
      (heldWorkspaceBindings host.store workspaceId)
    host.setPhase runnerId pass (.retracting true
      (envs.filter fun env => decide (env.environmentId ∈ giveback)))
  | .claiming envs =>
    match input.outcome with
    | none => host.leave runnerId pass
    | some outcome =>
      if (claimDisposition (claimVerdict outcome) input.strict).release then
        host.setPhase runnerId pass (.retracting false envs)
      else host.leave runnerId pass
  | .retracting inside envs =>
    host.setPhase runnerId pass (.returning inside envs
      (releaseInstants (bindingsForChunk host.store runnerId chunkId)
        (envs.map (·.environmentId)) input.now) envs)
  | .returning _ _ _ [] => host.leave runnerId pass
  | .returning inside envs released (env :: rest) =>
    { host.setPhase runnerId pass (.handing inside envs released env rest) with
      store :=
        match get released env.environmentId with
        | none => host.store
        | some releasedAt =>
          recordRelease host.store runnerId ⟨chunkId, env.environmentId, releasedAt⟩ }
  | .handing inside envs released _ rest =>
    host.setPhase runnerId pass (.returning inside envs released rest)

/-- Each workspace's listed environments, with their working directories. -/
def environmentWorkdirs : List (String × List (String × String)) :=
  host.workspaces.map fun listed =>
    (listed.1,
      match listed.2.provider with
      | .winter pool => pool.map fun name => (name, listed.2.root ++ "/" ++ name)
      | .basic _ _ => (host.directories listed.1).environments.map fun folder =>
          (folder.name, listed.2.root ++ "/" ++ folder.name))

/-- The completions a runner's held rows take, each chunk's project as the hub answers. -/
def completionsFor (project : ChunkId → Option String) : List BindingCompletion :=
  (incompleteHeldBindings host.store runnerId).filterMap fun row =>
    bindingCompletion row host.environmentWorkdirs (project row.chunkId)

end Host

/-! ## Moving a runner -/

/-- The id a workspace takes at the destination. -/
def renamedWorkspace (rename : Option (String × String)) (workspaceId : String) : String :=
  match rename with
  | some (old, new) => if workspaceId = old then new else workspaceId
  | none => workspaceId

structure BindingConflict where
  environmentId : String
  chunkId : ChunkId
  holder : RunnerId
  deriving DecidableEq, Repr

/-- Refuses a move of a held environment that a runner here holds for another chunk. -/
def refuseBindingConflict (moving : List EnvBinding) (ours : List (Sequenced EnvBinding))
    (rename : Option (String × String)) : Except BindingConflict Unit :=
  moving.forM fun binding =>
    -- an empty id counts as none
    let workspace :=
      (binding.workspaceId.filter fun id => decide (id ≠ "")).map (renamedWorkspace rename)
    ours.forM fun held =>
      let other := held.values
      if other.environmentId ≠ binding.environmentId ∨ other.chunkId = binding.chunkId then .ok ()
      else if workspace = none ∨ other.workspaceId = none ∨ other.workspaceId = workspace then
        .error ⟨binding.environmentId, binding.chunkId, held.runnerId⟩
      else .ok ()

/-- A runner's held rows, as the source's view answers them. -/
def heldOf (store : HostStore) (runnerId : RunnerId) : List (Sequenced EnvBinding) :=
  (keptBindings store).filter fun row => decide (row.runnerId = runnerId)

/-- A copied row, its workspace under the id it takes. -/
def moved (rename : Option (String × String)) (row : Sequenced EnvBinding) : Sequenced EnvBinding :=
  { row with values := { row.values with
      workspaceId := row.values.workspaceId.map (renamedWorkspace rename) } }

/-- The runner's rows copied from `source`, its counter with them. -/
def copyRunner (source here : HostStore) (runnerId : RunnerId) (rename : Option (String × String)) :
    HostStore where
  factCounters := Function.update here.factCounters runnerId (source.factCounters runnerId)
  envBindings := here.envBindings ++
    (source.envBindings.filter fun row => decide (row.runnerId = runnerId)).map (moved rename)
  bindingReleases := here.bindingReleases ++
    source.bindingReleases.filter fun row => decide (row.runnerId = runnerId)
  pauseParks := here.pauseParks ++ source.pauseParks.filter fun row => decide (row.runnerId = runnerId)
  pauseParkResumes := here.pauseParkResumes ++
    source.pauseParkResumes.filter fun row => decide (row.runnerId = runnerId)
  leaseClosures := here.leaseClosures ++
    source.leaseClosures.filter fun row => decide (row.runnerId = runnerId)

def removeRunnerRows (store : HostStore) (runnerId : RunnerId) : HostStore where
  factCounters := Function.update store.factCounters runnerId 0
  envBindings := store.envBindings.filter fun row => decide (row.runnerId ≠ runnerId)
  bindingReleases := store.bindingReleases.filter fun row => decide (row.runnerId ≠ runnerId)
  pauseParks := store.pauseParks.filter fun row => decide (row.runnerId ≠ runnerId)
  pauseParkResumes := store.pauseParkResumes.filter fun row => decide (row.runnerId ≠ runnerId)
  leaseClosures := store.leaseClosures.filter fun row => decide (row.runnerId ≠ runnerId)

/-- Whether the store holds no binding and no release of the runner's. -/
def absent (store : HostStore) (runnerId : RunnerId) : Bool :=
  store.envBindings.all (fun row => decide (row.runnerId ≠ runnerId)) &&
    store.bindingReleases.all fun row => decide (row.runnerId ≠ runnerId)

/-! ## Runs -/

inductive HostEvent
  | start
  | tryLock (runnerId : RunnerId) (entry : QueueEntry) (workspaceId : String)
  | advance (runnerId : RunnerId) (input : Input)
  | raise (runnerId : RunnerId)
  | readTenure (runnerId : RunnerId) (chunkId : ChunkId) (now : Instant)
  | release (job : ℕ)
  | readIncomplete (runnerId : RunnerId) (project : ChunkId → Option String)
  | complete (job : ℕ)
  | crash
  | removeRunner (runnerId : RunnerId)

/-- The host after one event; one that has no place in its state changes nothing. -/
def Host.exec (host : Host) : HostEvent → Host
  | .start => { host with running := true }
  | .tryLock runnerId entry workspaceId =>
    if host.running ∧ (host.passes runnerId).isNone ∧ (host.workspace workspaceId).isSome ∧
        (host.locks workspaceId).isNone then
      { host with
        locks := Function.update host.locks workspaceId (some runnerId)
        passes := Function.update host.passes runnerId (some ⟨entry, workspaceId, .locked⟩) }
    else host
  | .advance runnerId input =>
    match host.passes runnerId with
    | some pass => host.advance runnerId pass input
    | none => host
  | .raise runnerId =>
    match host.passes runnerId with
    | some pass => host.leave runnerId pass
    | none => host
  | .readTenure runnerId chunkId now =>
    if host.running then
      let held := bindingsForChunk host.store runnerId chunkId
      { host with releases := host.releases ++
          [⟨runnerId, chunkId, releaseInstants held (held.map (·.environmentId)) now⟩] }
    else host
  | .release job =>
    match host.releases[job]? with
    | some ⟨runnerId, chunkId, (environmentId, releasedAt) :: rest⟩ =>
      { host with
        store := recordRelease host.store runnerId ⟨chunkId, environmentId, releasedAt⟩
        releases := host.releases.set job ⟨runnerId, chunkId, rest⟩ }
    | _ => host
  | .readIncomplete runnerId project =>
    if host.running then
      { host with
        completions := host.completions ++ [⟨runnerId, host.completionsFor runnerId project⟩] }
    else host
  | .complete job =>
    match host.completions[job]? with
    | some ⟨runnerId, completions⟩ =>
      { host with
        store := completeBindings host.store runnerId completions
        completions := host.completions.eraseIdx job }
    | none => host
  | .crash =>
    { host with
      running := false
      locks := fun _ => none
      passes := fun _ => none
      releases := []
      completions := [] }
  | .removeRunner runnerId =>
    if host.running then host else { host with store := removeRunnerRows host.store runnerId }

/-- The hosts, and the stores archived from them, by number. -/
abbrev Fleet := ℕ → Host

inductive FleetEvent
  | on (host : ℕ) (event : HostEvent)
  | ingest (source here : ℕ) (runnerId : RunnerId) (rename : Option (String × String))

/-- Whether the ingest passes its refusals. -/
def ingests (fleet : Fleet) (source here : ℕ) (runnerId : RunnerId)
    (rename : Option (String × String)) : Bool :=
  decide (source ≠ here) && !(fleet source).running && !(fleet here).running &&
    absent (fleet here).store runnerId &&
    (refuseBindingConflict ((heldOf (fleet source).store runnerId).map (·.values))
      (keptBindings (fleet here).store) rename).isOk

/-- The hosts after one event; an ingest that is refused changes nothing. -/
def next (fleet : Fleet) : FleetEvent → Fleet
  | .on i event => Function.update fleet i ((fleet i).exec event)
  | .ingest source here runnerId rename =>
    if ingests fleet source here runnerId rename then
      Function.update fleet here { fleet here with
        store := copyRunner (fleet source).store (fleet here).store runnerId rename }
    else fleet

end Blizzard.EnvironmentHosts
