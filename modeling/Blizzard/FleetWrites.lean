import Blizzard.ExceptRules
import Blizzard.FleetRegistry
import Blizzard.SourceText

/-! # The registry's writes

Each write is one transaction under the tenant's lock. A write that moves a
runner onto or off a host, or retires or reinstates one, first requires the
lifecycle versions it was decided on; a refused write leaves every table as it
was. -/
namespace Blizzard.FleetWrites
open BearerTokens HubTables RouteLiveness UniqueRows VersionedFacts FleetRegistry SourceText

/-! ## The store's writes -/

/-- The first runner by id that no longer stands at its expected version refuses the write. -/
def requireRunners (registry : Registry) (expected : List (RunnerId × ℕ)) :
    Except FleetRefusal Unit :=
  match (expected.mergeSort fun a b => decide (a.1 ≤ b.1)).find? fun entry =>
      decide (registry.runnerLifecycle.version entry.1 ≠ entry.2) with
  | some entry => .error (.runnerLifecycleConflict entry.1 entry.2)
  | none => .ok ()

def requireHost (registry : Registry) (hostId : String) (expected : ℕ) : Except FleetRefusal Unit :=
  if registry.hostLifecycle.version hostId ≠ expected then
    .error (.hostLifecycleConflict hostId expected)
  else .ok ()

/-- The runners table with one runner's row changed. -/
def setRunner (registry : Registry) (runnerId : RunnerId) (change : RegistrationRow → RegistrationRow)
    (keeps : ∀ row, (change row).runnerId = row.runnerId) : Registry where
  __ := registry
  runners := registry.runners.update
    (fun row => if row.runnerId = runnerId then change row else row) fun row => by
      split
      · exact keeps row
      · rfl

def setHost (registry : Registry) (hostId : String) (change : HostRow → HostRow)
    (keeps : ∀ row, (change row).hostId = row.hostId) : Registry where
  __ := registry
  hosts := registry.hosts.update (fun row => if row.hostId = hostId then change row else row) fun row => by
    split
    · exact keeps row
    · rfl

def hasRunner (registry : Registry) (runnerId : RunnerId) : Bool :=
  registry.runners.rows.any fun row => decide (row.runnerId = runnerId)

def hasHost (registry : Registry) (hostId : String) : Bool :=
  registry.hosts.rows.any fun row => decide (row.hostId = hostId)

/-- A never-connected registration; one under a host lands on the host version it was decided on. -/
def addRunner (registry : Registry) (row : RegistrationRow) (tokenHash : String)
    (expectedHost : Option (String × ℕ)) : Except FleetRefusal Registry := do
  expectedHost.forM fun host => requireHost registry host.1 host.2
  match registry.runners.insert row with
  | none => .error (.idTaken row.runnerId)
  | some runners =>
    .ok { registry with runners, runnerTokens := registry.runnerTokens.issue row.runnerId tokenHash }

/-- What a registration stores: no name and no declaration keep the held ones. -/
structure Reported where
  name : Option String
  workspaceId : String
  redirectUris : List String
  served : Option (List ServedEntry)
  version : Option String
  deriving DecidableEq, Repr

/-- The first registration also stamps `registered_at`. -/
def recordRegistration (registry : Registry) (runnerId : RunnerId) (reported : Reported)
    (at_ : Instant) : Except FleetRefusal Registry :=
  if hasRunner registry runnerId then
    .ok (setRunner registry runnerId
      (fun row => { row with
        name := reported.name.getD row.name
        workspaceId := some reported.workspaceId
        redirectUris := reported.redirectUris
        served := reported.served.getD row.served
        lastSeenAt := some at_
        registeredAt := row.registeredAt.or (some at_)
        reportedVersion := reported.version
        versionRefusal := none
        versionJudgedAt := some at_ }) fun _ => rfl)
  else .error (.runnerNeverAdded runnerId)

/-- A refused registration records the judgement, and nothing else it carried. -/
def recordVersionRefusal (registry : Registry) (runnerId : RunnerId) (version : Option String)
    (reason : String) (at_ : Instant) : Except FleetRefusal Registry :=
  if hasRunner registry runnerId then
    .ok (setRunner registry runnerId
      (fun row => { row with
        reportedVersion := version
        versionRefusal := some reason
        versionJudgedAt := some at_ }) fun _ => rfl)
  else .error (.runnerNeverAdded runnerId)

/-- A heartbeat before the first registration writes nothing. -/
def touchLastSeen (registry : Registry) (runnerId : RunnerId) (at_ : Instant) : Registry :=
  setRunner registry runnerId
    (fun row => if row.registeredAt.isSome then { row with lastSeenAt := some at_ } else row)
    fun row => by
      split <;> rfl

def recordPause (registry : Registry) (runnerId : RunnerId) (fact : PauseFact) : Registry :=
  { registry with runnerPauses := registry.runnerPauses.append runnerId fact }

/-- A lifecycle fact, landing on the runner version and, when given, the host version it was decided
on. -/
def recordLifecycle (registry : Registry) (runnerId : RunnerId) (fact : LifecycleFact)
    (expected : ℕ) (expectedHost : Option (String × ℕ)) : Except FleetRefusal Registry := do
  requireRunners registry [(runnerId, expected)]
  expectedHost.forM fun host => requireHost registry host.1 host.2
  .ok { registry with runnerLifecycle := registry.runnerLifecycle.append runnerId fact }

def revokeToken (registry : Registry) (runnerId : RunnerId) (expected : ℕ) (stamp : Stamp) :
    Except FleetRefusal Registry := do
  requireRunners registry [(runnerId, expected)]
  .ok { registry with runnerTokens := registry.runnerTokens.revoke runnerId stamp }

def rotateToken (registry : Registry) (rotation : TokenRotation) : Registry :=
  { registry with
    runnerTokens :=
      registry.runnerTokens.rotate rotation.holder rotation.tokenHash ⟨rotation.at_, rotation.by_⟩ }

/-- Place a runner under the host iff it still stands alone. -/
def place (hostId : String) (registry : Registry) (runnerId : RunnerId) :
    Except FleetRefusal Registry :=
  if registry.runners.rows.any fun row => decide (row.runnerId = runnerId) && row.hostId.isNone then
    .ok (setRunner registry runnerId (fun row => { row with hostId := some hostId }) fun _ => rfl)
  else .error (.runnerAlreadyHosted runnerId none)

/-- Return a runner that still stands under the host to standing alone. -/
def letGo (hostId : String) (registry : Registry) (runnerId : RunnerId) :
    Except FleetRefusal Registry :=
  if registry.runners.rows.any fun row =>
      decide (row.runnerId = runnerId) && decide (row.hostId = some hostId) then
    .ok (setRunner registry runnerId (fun row => { row with hostId := none }) fun _ => rfl)
  else .error (.runnerNotUnderHost runnerId hostId)

/-- The host's row beside the runners placed under it, all or none. -/
def addHost (registry : Registry) (row : HostRow) (tokenHash : String)
    (expected : List (RunnerId × ℕ)) : Except FleetRefusal Registry := do
  requireRunners registry expected
  if row.name ∈ registry.liveNames none then .error (.hostNameTaken row.name)
  else
    match registry.hosts.insert row with
    | none => .error (.idTaken row.hostId)
    | some hosts =>
      (expected.map (·.1)).foldlM (place row.hostId)
        { registry with hosts, hostTokens := registry.hostTokens.issue row.hostId tokenHash }

/-- A report; a name another live host came to hold first refuses it whole. -/
def recordReport (registry : Registry) (hostId : String) (report : HostReport)
    (name : Option String) (at_ : Instant) : Except FleetRefusal Registry :=
  if !hasHost registry hostId then .error (.hostNeverAdded hostId)
  else
    match name.filter fun name => decide (name ∈ registry.liveNames (some hostId)) with
    | some taken => .error (.hostNameTaken taken)
    | none =>
      .ok (setHost registry hostId
        (fun row => { row with
          name := name.getD row.name
          lastSeenAt := some at_
          registeredAt := row.registeredAt.or (some at_)
          url := report.url
          redirectUris := report.redirectUris
          workspaces := report.workspaces
          subscriptions := report.subscriptions }) fun _ => rfl)

def adopt (registry : Registry) (hostId : String) (version : ℕ) (expected : List (RunnerId × ℕ)) :
    Except FleetRefusal Registry := do
  requireHost registry hostId version
  requireRunners registry expected
  (expected.map (·.1)).foldlM (place hostId) registry

def release (registry : Registry) (hostId : String) (version : ℕ) (expected : List (RunnerId × ℕ)) :
    Except FleetRefusal Registry := do
  requireHost registry hostId version
  requireRunners registry expected
  (expected.map (·.1)).foldlM (letGo hostId) registry

/-- The retirement's fact, when it writes one, and the revocation of the host's token. -/
def recordRetirement (registry : Registry) (hostId : String) (version : ℕ)
    (fact : Option LifecycleFact) (stamp : Stamp) : Except FleetRefusal Registry := do
  requireHost registry hostId version
  let hostLifecycle :=
    match fact with
    | some fact => registry.hostLifecycle.append hostId fact
    | none => registry.hostLifecycle
  .ok { registry with hostLifecycle, hostTokens := registry.hostTokens.revoke hostId stamp }

def revokeHostToken (registry : Registry) (hostId : String) (stamp : Stamp) : Registry :=
  { registry with hostTokens := registry.hostTokens.revoke hostId stamp }

def rotateHostToken (registry : Registry) (rotation : TokenRotation) : Registry :=
  { registry with
    hostTokens :=
      registry.hostTokens.rotate rotation.holder rotation.tokenHash ⟨rotation.at_, rotation.by_⟩ }

/-! ## The services over them, each on what it read earlier -/

/-- A name without its surrounding whitespace, none where that leaves nothing. -/
def declaredName (name : Option String) : Option String :=
  (name.map stripped).filter fun name => decide (name ≠ "")

/-- A host moves past a version by retiring only, so the caller answers with its retirement. -/
def asHostRetired {α : Type} (action : String) : Except FleetRefusal α → Except FleetRefusal α
  | .error (.hostLifecycleConflict hostId _) => .error (.hostRetired hostId action)
  | answer => answer

/-- Each runner's lifecycle version as read. -/
def versions (runners : List RunnerRegistration) : List (RunnerId × ℕ) :=
  runners.map fun runner => (runner.runnerId, runner.lifecycleVersion)

def enrollRunner (registry : Registry) (runner : RunnerRegistration) (tokenHash : String)
    (at_ : Instant) : Except FleetRefusal Registry := do
  let rotation ← runner.enroll tokenHash at_
  .ok (rotateToken registry rotation)

/-- Revoking a token another revocation took meanwhile is refused as well. -/
def revokeRunner (registry : Registry) (runner : RunnerRegistration) (stamp : Stamp) :
    Except FleetRefusal Registry := do
  runner.revokeToken
  let revoked ← revokeToken registry runner.runnerId runner.lifecycleVersion stamp
  if (registry.runnerTokens.held runner.runnerId).isNone then
    .error (.runnerNotEnrolled runner.runnerId)
  else .ok revoked

/-- The window's judgement of the version a registration reports. -/
structure VersionJudgement where
  reportedVersion : Option String
  refusal : Option String
  deriving DecidableEq, Repr

/-- A registration of the runner as its token named it: a version the window refuses records only
the judgement. -/
def register (registry : Registry) (held : RunnerRegistration) (reported : Reported)
    (judgement : VersionJudgement) (at_ : Instant) : Except FleetRefusal Registry := do
  held.refuseIfRetired "registration"
  match judgement.refusal with
  | some reason =>
    recordVersionRefusal registry held.runnerId judgement.reportedVersion reason at_
  | none =>
    recordRegistration registry held.runnerId
      { reported with name := declaredName reported.name, version := judgement.reportedVersion } at_

def addRunnerUnder (registry : Registry) (host : Host) (row : RegistrationRow) (tokenHash : String) :
    Except FleetRefusal Registry := do
  host.refuseAddingRunner
  asHostRetired "adding a runner"
    (addRunner registry { row with hostId := some host.hostId } tokenHash
      (some (host.hostId, host.lifecycleVersion)))

/-- A new host, and the runners it adopts as it is added. -/
def addHostAdopting (registry : Registry) (row : HostRow) (tokenHash : String)
    (runners : List RunnerRegistration) : Except FleetRefusal Registry := do
  let candidate : Host :=
    { toHostRow := row, tokenHash := none, retired := false, retiredAt := none, retiredBy := none,
      lifecycleVersion := 0 }
  runners.forM candidate.adopt
  addHost registry row tokenHash (versions runners)

def enrollHost (registry : Registry) (host : Host) (tokenHash : String) (at_ : Instant) :
    Except FleetRefusal Registry := do
  let rotation ← host.enroll tokenHash at_
  .ok (rotateHostToken registry rotation)

def revokeHost (registry : Registry) (host : Host) (stamp : Stamp) : Except FleetRefusal Registry := do
  host.revokeToken
  if (registry.hostTokens.held host.hostId).isNone then .error (.hostNotEnrolled host.hostId)
  else .ok (revokeHostToken registry host.hostId stamp)

def adoptRunners (registry : Registry) (host : Host) (runners : List RunnerRegistration) :
    Except FleetRefusal Registry := do
  runners.forM host.adopt
  asHostRetired "adoption" (adopt registry host.hostId host.lifecycleVersion (versions runners))

def releaseRunners (registry : Registry) (host : Host) (runners : List RunnerRegistration) :
    Except FleetRefusal Registry := do
  runners.forM host.release
  release registry host.hostId host.lifecycleVersion (versions runners)

/-- A host's report is its heartbeat: a name lost to another host meanwhile is left out of it. -/
def report (registry : Registry) (held : Host) (reported : HostReport) (otherLiveNames : List String)
    (at_ : Instant) : Except FleetRefusal Registry := do
  let name ← held.reportedName { reported with name := declaredName reported.name } otherLiveNames
  match recordReport registry held.hostId reported name at_ with
  | .error (.hostNameTaken _) => recordReport registry held.hostId reported none at_
  | answer => answer

/-- What a retire's first unit left: the version its releases act on, and what it wrote. -/
structure RetireUnit where
  registry : Registry
  version : ℕ
  wroteFact : Bool
  revoked : Bool

/-- The retirement's fact and the token's revocation, in one unit; a re-run writes no second fact. -/
def retireUnit (registry : Registry) (runner : RunnerRegistration) (holdings : List Route)
    (force : Bool) (stamp : Stamp) : Except FleetRefusal RetireUnit := do
  let revoked := (registry.runnerTokens.held runner.runnerId).isSome
  match ← runner.retire holdings force stamp.by_ stamp.at_ with
  | none =>
    let revoking ← revokeToken registry runner.runnerId runner.lifecycleVersion stamp
    .ok ⟨revoking, runner.lifecycleVersion, false, revoked⟩
  | some fact =>
    let retired ← recordLifecycle registry runner.runnerId fact runner.lifecycleVersion none
    let version := registry.runnerLifecycle.nextId
    let revoking ← revokeToken retired runner.runnerId version stamp
    .ok ⟨revoking, version, true, revoked⟩

/-- A reinstatement's fact, which the host the runner stands under must still allow. -/
def decideReinstatement (runner : RunnerRegistration) (host : Option Host) (stamp : Stamp) :
    Except FleetRefusal LifecycleFact := do
  let fact ← runner.reinstate stamp.by_ stamp.at_
  host.forM Host.refuseReinstatingRunner
  .ok fact

/-- The fact, on the versions of the runner and of the host it was decided under. -/
def recordReinstatement (registry : Registry) (runnerId : RunnerId) (version : ℕ)
    (fact : LifecycleFact) (host : Option Host) : Except FleetRefusal Registry :=
  asHostRetired "reinstating a runner under it"
    (recordLifecycle registry runnerId fact version
      (host.map fun host => (host.hostId, host.lifecycleVersion)))

def retireHost (registry : Registry) (host : Host) (holdings : List (RunnerId × List Route))
    (force : Bool) (stamp : Stamp) : Except FleetRefusal Registry := do
  let fact ← host.retire holdings force stamp.by_ stamp.at_
  recordRetirement registry host.hostId host.lifecycleVersion fact stamp

end Blizzard.FleetWrites
