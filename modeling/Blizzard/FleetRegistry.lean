import Blizzard.BearerTokens
import Blizzard.RouteLiveness
import Blizzard.UniqueRows
import Blizzard.VersionedFacts

/-! # The fleet registry

The runners a tenant added and the hosts some of them stand under. Whether one
is retired is its newest lifecycle fact, and which verbs it permits is decided
by its state; a decision carries the lifecycle version it was read at, and its
write lands only while that version stands. -/
namespace Blizzard.FleetRegistry
open BearerTokens HubTables RouteLiveness UniqueRows VersionedFacts

/-- One entry of a served declaration, with the project it resolved to. -/
structure ServedEntry where
  entry : String
  projectId : Option String
  deriving DecidableEq, Repr

structure RegistrationRow where
  runnerId : RunnerId
  name : String
  addedAt : Instant
  addedBy : Option String
  hostId : Option String
  served : List ServedEntry := []
  workspaceId : Option String := none
  registeredAt : Option Instant := none
  lastSeenAt : Option Instant := none
  redirectUris : List String := []
  reportedVersion : Option String := none
  versionRefusal : Option String := none
  versionJudgedAt : Option Instant := none
  deriving DecidableEq, Repr

structure HostWorkspace where
  workspaceId : String
  envCapacity : Option ℕ
  deriving DecidableEq, Repr

structure DeclaredSubscription where
  slug : String
  name : String
  provider : String
  deriving DecidableEq, Repr

structure HostRow where
  hostId : String
  name : String
  addedAt : Instant
  addedBy : Option String
  registeredAt : Option Instant := none
  lastSeenAt : Option Instant := none
  url : Option String := none
  redirectUris : List String := []
  workspaces : List HostWorkspace := []
  subscriptions : List DeclaredSubscription := []
  deriving DecidableEq, Repr

/-- A retirement, or the reinstatement of a runner. -/
structure LifecycleFact where
  retired : Bool
  at_ : Instant
  by_ : String
  deriving DecidableEq, Repr

structure PauseFact where
  paused : Bool
  at_ : Instant
  by_ : String
  deriving DecidableEq, Repr

/-- When a token was revoked, and by whom. -/
structure Stamp where
  at_ : Instant
  by_ : String
  deriving DecidableEq, Repr

/-- The registry's tables; a registration's `token_hash` column is its entry of the tokens. -/
structure Registry where
  runners : UniqueTable RegistrationRow.runnerId
  runnerLifecycle : Log RunnerId LifecycleFact
  runnerTokens : Tokens RunnerId String Stamp
  runnerPauses : Log RunnerId PauseFact
  hosts : UniqueTable HostRow.hostId
  hostLifecycle : Log String LifecycleFact
  hostTokens : Tokens String String Stamp

def Registry.empty : Registry where
  runners := .empty _
  runnerLifecycle := .empty _ _
  runnerTokens := .empty _ _ _
  runnerPauses := .empty _ _
  hosts := .empty _
  hostLifecycle := .empty _ _
  hostTokens := .empty _ _ _

/-- A registration as it is read: its row, and what its facts derive. -/
structure RunnerRegistration extends RegistrationRow where
  hubPaused : Bool
  tokenHash : Option String
  retired : Bool
  retiredAt : Option Instant
  retiredBy : Option String
  lifecycleVersion : ℕ
  deriving DecidableEq, Repr

structure Host extends HostRow where
  tokenHash : Option String
  retired : Bool
  retiredAt : Option Instant
  retiredBy : Option String
  lifecycleVersion : ℕ
  deriving DecidableEq, Repr

/-- Why a fleet operation was refused. -/
inductive FleetRefusal
  | runnerRetired (runnerId : RunnerId) (action : String)
  | runnerLifecycleConflict (runnerId : RunnerId) (expected : ℕ)
  | runnerHoldsRoutes (runnerId : RunnerId) (holdings : List Route)
  | runnerNotEnrolled (runnerId : RunnerId)
  | runnerNotRetired (runnerId : RunnerId)
  | runnerNeverAdded (runnerId : RunnerId)
  | versionRefused (runnerId : RunnerId) (reason : String)
  | unregisteredRedirect (id : String)
  | unknownRunner (runnerId : RunnerId)
  | runnerAlreadyHosted (runnerId : RunnerId) (hostId : Option String)
  | runnerNotUnderHost (runnerId : RunnerId) (hostId : String)
  | hostRetired (hostId : String) (action : String)
  | hostLifecycleConflict (hostId : String) (expected : ℕ)
  | hostHoldsRoutes (hostId : String) (holdings : List (RunnerId × List Route))
  | hostRetirementUnfinished (hostId : String) (runnerId : RunnerId)
  | hostNotEnrolled (hostId : String)
  | hostNameTaken (name : String)
  | hostNeverAdded (hostId : String)
  | idTaken (id : String)
  deriving DecidableEq, Repr

/-! ## What the rows and facts derive -/

def isRetired {K : Type*} [DecidableEq K] (log : Log K LifecycleFact) (key : K) : Bool :=
  (log.value key).any (·.retired)

/-- The newest fact, while it retires. -/
def retirement {K : Type*} [DecidableEq K] (log : Log K LifecycleFact) (key : K) :
    Option LifecycleFact :=
  (log.value key).filter (·.retired)

namespace Registry

def registration (registry : Registry) (row : RegistrationRow) : RunnerRegistration where
  toRegistrationRow := row
  hubPaused := (registry.runnerPauses.value row.runnerId).any (·.paused)
  tokenHash := registry.runnerTokens.held row.runnerId
  retired := isRetired registry.runnerLifecycle row.runnerId
  retiredAt := (retirement registry.runnerLifecycle row.runnerId).map (·.at_)
  retiredBy := (retirement registry.runnerLifecycle row.runnerId).map (·.by_)
  lifecycleVersion := registry.runnerLifecycle.version row.runnerId

def host (registry : Registry) (row : HostRow) : Host where
  toHostRow := row
  tokenHash := registry.hostTokens.held row.hostId
  retired := isRetired registry.hostLifecycle row.hostId
  retiredAt := (retirement registry.hostLifecycle row.hostId).map (·.at_)
  retiredBy := (retirement registry.hostLifecycle row.hostId).map (·.by_)
  lifecycleVersion := registry.hostLifecycle.version row.hostId

def getRunner (registry : Registry) (runnerId : RunnerId) : Option RunnerRegistration :=
  (registry.runners.rows.find? fun row => decide (row.runnerId = runnerId)).map registry.registration

def getHost (registry : Registry) (hostId : String) : Option Host :=
  (registry.hosts.rows.find? fun row => decide (row.hostId = hostId)).map registry.host

/-- Every runner standing under the host, retired ones included, oldest added first. -/
def roster (registry : Registry) (hostId : String) : List RunnerRegistration :=
  ((registry.runners.rows.filter fun row => decide (row.hostId = some hostId)).mergeSort
    fun a b => decide (a.addedAt < b.addedAt) ||
      (decide (a.addedAt = b.addedAt) && decide (a.runnerId ≤ b.runnerId))).map registry.registration

/-- The names of the hosts that are not retired, one host's own left out. -/
def liveNames (registry : Registry) (excluding : Option String) : List String :=
  (registry.hosts.rows.filter fun row =>
    !isRetired registry.hostLifecycle row.hostId && decide (some row.hostId ≠ excluding)).map (·.name)

end Registry

/-! ## A runner's states and verbs -/

inductive RunnerState | unenrolled | enrolled | retired
  deriving DecidableEq, Repr

inductive RunnerVerb | enroll | revokeToken | brake | retire | reinstate | contact
  deriving DecidableEq, Repr

/-- Which verbs are legal from which state. -/
def runnerVerbs : RunnerState → List RunnerVerb
  | .unenrolled => [.brake, .retire, .enroll, .contact]
  | .enrolled => [.brake, .retire, .enroll, .contact, .revokeToken]
  | .retired => [.brake, .retire, .reinstate, .revokeToken]

structure TokenRotation where
  holder : String
  tokenHash : String
  at_ : Instant
  by_ : String
  deriving DecidableEq, Repr

/-- Who a rotation's revocation is recorded as. -/
def rotationActor : String := "operator"

namespace RunnerRegistration
variable (runner : RunnerRegistration)

def neverConnected : Bool := runner.registeredAt.isNone

def state : RunnerState :=
  if runner.retired then .retired
  else if runner.tokenHash.isNone then .unenrolled else .enrolled

def permits (verb : RunnerVerb) : Bool := decide (verb ∈ runnerVerbs runner.state)

def refuseIfRetired (action : String) : Except FleetRefusal Unit :=
  if runner.permits .contact then .ok () else .error (.runnerRetired runner.runnerId action)

def enroll (tokenHash : String) (at_ : Instant) : Except FleetRefusal TokenRotation :=
  if runner.permits .enroll then .ok ⟨runner.runnerId, tokenHash, at_, rotationActor⟩
  else .error (.runnerRetired runner.runnerId "enrollment")

/-- Refused where no token is held. -/
def revokeToken : Except FleetRefusal Unit :=
  if !runner.permits .revokeToken || runner.tokenHash.isNone then
    .error (.runnerNotEnrolled runner.runnerId)
  else .ok ()

/-- The fact to append, none on a re-run over a retired runner; a first retire that is not forced
finds no route held. -/
def retire (holdings : List Route) (force : Bool) (by_ : String) (at_ : Instant) :
    Except FleetRefusal (Option LifecycleFact) :=
  if runner.state = .retired then .ok none
  else if !holdings.isEmpty && !force then .error (.runnerHoldsRoutes runner.runnerId holdings)
  else .ok (some ⟨true, at_, by_⟩)

def reinstate (by_ : String) (at_ : Instant) : Except FleetRefusal LifecycleFact :=
  if runner.permits .reinstate then .ok ⟨false, at_, by_⟩
  else .error (.runnerNotRetired runner.runnerId)

/-- The redirect is judged first: only a caller that holds a registered one can tell a retired
runner apart. -/
def refuseFederation (redirectUri : String) : Except FleetRefusal Unit :=
  if redirectUri ∈ runner.redirectUris then runner.refuseIfRetired "federation"
  else .error (.unregisteredRedirect runner.runnerId)

end RunnerRegistration

/-! ## A host's states and verbs -/

inductive HostState | unenrolled | enrolled | retired
  deriving DecidableEq, Repr

inductive HostVerb | contact | addRunner | adopt | release | enroll | revokeToken | retire
  deriving DecidableEq, Repr

def hostVerbs : HostState → List HostVerb
  | .unenrolled => [.contact, .addRunner, .adopt, .release, .enroll, .retire]
  | .enrolled => [.contact, .addRunner, .adopt, .release, .enroll, .retire, .revokeToken]
  | .retired => [.retire, .release, .revokeToken]

structure HostReport where
  name : Option String
  url : Option String
  redirectUris : List String
  workspaces : List HostWorkspace
  subscriptions : List DeclaredSubscription
  deriving DecidableEq, Repr

namespace Host
variable (host : Host)

def state : HostState :=
  if host.retired then .retired else if host.tokenHash.isNone then .unenrolled else .enrolled

def permits (verb : HostVerb) : Bool := decide (verb ∈ hostVerbs host.state)

def refuseIfRetired (action : String) : Except FleetRefusal Unit :=
  if host.permits .contact then .ok () else .error (.hostRetired host.hostId action)

def enroll (tokenHash : String) (at_ : Instant) : Except FleetRefusal TokenRotation :=
  if host.permits .enroll then .ok ⟨host.hostId, tokenHash, at_, rotationActor⟩
  else .error (.hostRetired host.hostId "enrollment")

def revokeToken : Except FleetRefusal Unit :=
  if !host.permits .revokeToken || host.tokenHash.isNone then .error (.hostNotEnrolled host.hostId)
  else .ok ()

/-- A runner may be placed under a live host when it is live itself and stands alone. -/
def adopt (runner : RunnerRegistration) : Except FleetRefusal Unit :=
  if !host.permits .adopt then .error (.hostRetired host.hostId "adoption")
  else if runner.retired then .error (.runnerRetired runner.runnerId "adoption")
  else if runner.hostId.isSome then .error (.runnerAlreadyHosted runner.runnerId runner.hostId)
  else .ok ()

/-- A retired host lets go of a retired runner only: the roster is how its retire finds the others. -/
def release (runner : RunnerRegistration) : Except FleetRefusal Unit :=
  if runner.hostId ≠ some host.hostId then .error (.runnerNotUnderHost runner.runnerId host.hostId)
  else if host.retired && !runner.retired then
    .error (.hostRetirementUnfinished host.hostId runner.runnerId)
  else .ok ()

def refuseAddingRunner : Except FleetRefusal Unit :=
  if host.permits .addRunner then .ok () else .error (.hostRetired host.hostId "adding a runner")

def refuseReinstatingRunner : Except FleetRefusal Unit :=
  if host.permits .addRunner then .ok ()
  else .error (.hostRetired host.hostId "reinstating a runner under it")

/-- The fact to append, none on a re-run; a first retire that is not forced finds no runner under
the host holding a route. -/
def retire (holdings : List (RunnerId × List Route)) (force : Bool) (by_ : String) (at_ : Instant) :
    Except FleetRefusal (Option LifecycleFact) :=
  if host.state = .retired then .ok none
  else
    let held := holdings.filter fun entry => !entry.2.isEmpty
    if !held.isEmpty && !force then .error (.hostHoldsRoutes host.hostId held)
    else .ok (some ⟨true, at_, by_⟩)

/-- The name a report records: another live host's name is not taken, the held one stays. -/
def reportedName (report : HostReport) (otherLiveNames : List String) :
    Except FleetRefusal (Option String) :=
  match host.refuseIfRetired "report" with
  | .error refusal => .error refusal
  | .ok () =>
    .ok (report.name.filter fun name => decide (name = host.name) || decide (name ∉ otherLiveNames))

end Host

end Blizzard.FleetRegistry
