import Mathlib
import Blizzard.UniqueRows
import Blizzard.DependencyEdges
import Blizzard.FencedWrites
import Blizzard.SourceText

/-! # Close intents

A chunk that lands or completes owes each of its work refs a close: the write
that lands it leaves an intent, or a durable skip where no closer is bound, in
its own transaction. The drain records what each attempt came to; a terminal
outcome retires the intent with it. -/
namespace Blizzard.CloseIntents
open HubTables EpochFence FencedWrites FactLoading SourceText UniqueRows

structure WorkRef where
  source : String
  ref : String
  deriving DecidableEq, Repr

inductive WorkItemCloseOutcome
  | closed | gone | failed | skipped
  deriving DecidableEq, Repr

inductive CloseIntentState
  | pending | backingOff | retired
  deriving DecidableEq, Repr

/-- The state one attempt's outcome leaves its intent in. -/
def CloseIntentState.after : WorkItemCloseOutcome → CloseIntentState
  | .closed => .retired
  | .gone => .retired
  | .skipped => .retired
  | .failed => .backingOff

/-- The outcomes that retire an intent. -/
def WorkItemCloseOutcome.terminal (outcome : WorkItemCloseOutcome) : Bool :=
  decide (CloseIntentState.after outcome = .retired)

structure WorkRefRow where
  chunkId : ChunkId
  ref : WorkRef
  deriving DecidableEq, Repr

/-- Pending while `retiredAt` is `none`; its id is its place in the table. -/
structure CloseIntentRow where
  chunkId : ChunkId
  ref : WorkRef
  enqueuedAt : Instant
  retiredAt : Option Instant
  deriving DecidableEq, Repr

def CloseIntentRow.key (row : CloseIntentRow) : ChunkId × WorkRef := (row.chunkId, row.ref)

structure ClosureRow where
  chunkId : ChunkId
  ref : WorkRef
  outcome : WorkItemCloseOutcome
  reason : Option String
  recordedAt : Instant
  deriving DecidableEq, Repr

abbrev ClosureKey := ChunkId × WorkRef × WorkItemCloseOutcome

def ClosureRow.key (row : ClosureRow) : ClosureKey := (row.chunkId, row.ref, row.outcome)

inductive AttemptOutcome
  | failed | deferred
  deriving DecidableEq, Repr

/-- `resumeAt` is set on a deferral only. -/
structure AttemptRow where
  intentId : ℕ
  attemptedAt : Instant
  outcome : AttemptOutcome
  resumeAt : Option Instant
  deriving DecidableEq, Repr

inductive EventKind
  | workItemClosed | workItemCloseFailed | workItemCloseSkipped
  deriving DecidableEq, Repr

/-- An event-log row, with the closure it announces, which the log does not store. -/
structure EventRow where
  kind : EventKind
  chunkId : ChunkId
  message : String
  detail : Option (List (String × Option String))
  recordedAt : Instant
  announces : ClosureKey
  deriving DecidableEq, Repr

structure RepoLandedRow where
  chunkId : ChunkId
  repo : String
  commitHash : String
  repositoryId : String
  landedAt : Instant
  deriving DecidableEq, Repr

/-- One tenant's chunk tables and its close tables. -/
structure CloseStore where
  tables : Tables := {}
  workRefs : List WorkRefRow := []
  repoLanded : List RepoLandedRow := []
  intents : UniqueTable CloseIntentRow.key := .empty _
  closures : UniqueTable ClosureRow.key := .empty _
  attempts : List AttemptRow := []
  events : List EventRow := []

/-- Partition work references by whether their source can close them. -/
structure CloseEnqueueDecision where
  closable : List WorkRef
  skipped : List WorkRef
  deriving DecidableEq, Repr

def decideCloseEnqueue (refs : List WorkRef) (closerAvailable : String → Bool) :
    CloseEnqueueDecision where
  closable := refs.filter fun ref => closerAvailable ref.source
  skipped := refs.filter fun ref => !closerAvailable ref.source

/-- No reference on both sides, and exactly the listed ones on either. -/
def CloseEnqueueDecision.Partitions (decision : CloseEnqueueDecision) (refs : List WorkRef) : Prop :=
  (∀ ref ∈ decision.closable, ref ∉ decision.skipped) ∧
    (∀ ref ∈ refs, ref ∈ decision.closable ++ decision.skipped) ∧
    ∀ ref ∈ decision.closable ++ decision.skipped, ref ∈ refs

instance (decision : CloseEnqueueDecision) (refs : List WorkRef) :
    Decidable (decision.Partitions refs) := by
  unfold CloseEnqueueDecision.Partitions
  infer_instance

/-- What rolls a write back: a decision that does not partition the chunk's refs, or a key that
stands. -/
inductive CloseError
  | unpartitioned | integrity
  deriving DecidableEq, Repr

def noCloserReason : String := "no closer bound for source"

section Enqueueing
variable (store : CloseStore) (chunkId : ChunkId)

def workRefsOf : List WorkRef :=
  (store.workRefs.filter fun row => decide (row.chunkId = chunkId)).map (·.ref)

/-- The refs a terminal outcome is recorded for. -/
def terminalRefs : List WorkRef :=
  (store.closures.rows.filter fun row => decide (row.chunkId = chunkId) && row.outcome.terminal).map
    (·.ref)

/-- The refs with an intent, retired or not. -/
def intentRefs : List WorkRef :=
  (store.intents.rows.filter fun row => decide (row.chunkId = chunkId)).map (·.ref)

/-- `retired_at` set on the ref's pending intent. -/
def retired (key : ChunkId × WorkRef) (at_ : Instant) (row : CloseIntentRow) : CloseIntentRow :=
  if row.key = key ∧ row.retiredAt = none then { row with retiredAt := some at_ } else row

theorem retired_key (key : ChunkId × WorkRef) (at_ : Instant) (row : CloseIntentRow) :
    (retired key at_ row).key = row.key := by
  rw [retired]
  split <;> rfl

def retirePending (ref : WorkRef) (at_ : Instant) : CloseStore :=
  { store with
    intents := store.intents.update (retired (chunkId, ref) at_) (retired_key (chunkId, ref) at_) }

/-! ## Enqueueing -/

/-- The event a ref without a bound closer is skipped with. -/
def skipEvent (ref : WorkRef) (at_ : Instant) : EventRow where
  kind := .workItemCloseSkipped
  chunkId := chunkId
  message := s!"skipped closing {ref.source}#{ref.ref}: {noCloserReason}"
  detail := some [("source", some ref.source), ("ref", some ref.ref),
    ("reason", some noCloserReason), ("outcome", some "skipped")]
  recordedAt := at_
  announces := (chunkId, ref, .skipped)

/-- A skipped ref's closure, with its pending intent retired and its event, in one write. -/
def skipRef (at_ : Instant) (ref : WorkRef) : Except CloseError CloseStore :=
  match store.closures.insert ⟨chunkId, ref, .skipped, some noCloserReason, at_⟩ with
  | none => .error .integrity
  | some closures =>
    let recorded := retirePending { store with closures } chunkId ref at_
    .ok { recorded with events := recorded.events ++ [skipEvent chunkId ref at_] }

def insertIntent (at_ : Instant) (ref : WorkRef) : Except CloseError CloseStore :=
  match store.intents.insert ⟨chunkId, ref, at_, none⟩ with
  | none => .error .integrity
  | some intents => .ok { store with intents }

/-- One ref of the chunk accounted for; `terminal` and `already` were read before the first. -/
def enqueueRef (at_ : Instant) (decision : CloseEnqueueDecision) (terminal already : List WorkRef)
    (store : CloseStore) (ref : WorkRef) : Except CloseError CloseStore :=
  if ref ∈ terminal then .ok store
  else if ref ∈ decision.skipped then skipRef store chunkId at_ ref
  else if ref ∈ already then .ok store
  else insertIntent store chunkId at_ ref

def enqueueCloseIntents (at_ : Instant) (decision : CloseEnqueueDecision) :
    Except CloseError CloseStore :=
  if isEphemeralId store.tables chunkId then .ok store
  else if workRefsOf store chunkId = [] then .ok store
  else if ¬ decision.Partitions (workRefsOf store chunkId) then .error .unpartitioned
  else
    (workRefsOf store chunkId).foldlM (enqueueRef chunkId at_ decision (terminalRefs store chunkId)
      (intentRefs store chunkId)) store

end Enqueueing

/-! ## The writes that land or complete a chunk -/

def markerPrefix : String := "merged/"

/-- A landing marker's content names a revision. -/
def isLandedRevision (content : String) : Bool := decide (stripped content ≠ "")

def isLandingMarker (name data : String) : Bool :=
  markerPrefix.toList.isPrefixOf name.toList && isLandedRevision data

def artifactExists (tables : Tables) (artifact : StoredArtifact) : Bool :=
  tables.artifacts.any fun row => decide (row.chunkId = artifact.chunkId) &&
    decide (row.nodeId = artifact.nodeId) && decide (row.epoch = artifact.epoch) &&
      decide (row.name = artifact.name)

def recordHubArtifact (tables : Tables) (artifact : StoredArtifact) (admission : EpochAdmission)
    (now : Instant) : Tables × WriteOutcome :=
  if artifactExists tables artifact then (tables, .replayed)
  else
    match fence tables artifact.chunkId artifact.epoch admission none with
    | some refusal => (tables, .refused refusal)
    | none => (insertArtifact now tables artifact, .recorded)

structure RepoLanding where
  chunkId : ChunkId
  nodeId : String
  nodeName : String
  epoch : ℤ
  repo : String
  revision : String
  repositoryId : String
  artifactId : String
  deriving DecidableEq, Repr

/-- The `merged/<repo>` marker of one merge. -/
def RepoLanding.marker (landing : RepoLanding) : StoredArtifact where
  artifactId := landing.artifactId
  chunkId := landing.chunkId
  nodeId := landing.nodeId
  nodeName := landing.nodeName
  epoch := landing.epoch
  name := markerPrefix ++ landing.repo
  kind := .asset
  data := landing.revision
  repo := none
  forge := none

/-- A merge's rows are admitted past the fence; only a stored marker stops them. -/
def writeLandingRows (tables : Tables) (landing : RepoLanding) (now : Instant) :
    Tables × WriteOutcome :=
  if artifactExists tables landing.marker then (tables, .replayed)
  else (insertArtifact now tables landing.marker, .recorded)

/-- A write that may land or complete its chunk. -/
inductive LandingWrite
  | transition (w : TransitionWrite)
  | migration (w : MigrationWrite)
  | decision (w : DecisionWrite)
  | decisionLocked (w : DecisionWrite)
  | hubStep (w : TransitionWrite) (releaseRoute : Bool)
  | hubArtifact (artifact : StoredArtifact) (admission : EpochAdmission)
  | repoLanding (landing : RepoLanding)
  | deliveryLanded (chunkId : ChunkId)
  | finalize (w : TransitionWrite)
  | completion (chunkId : ChunkId) (by_ : String)
  deriving Repr

namespace LandingWrite

def chunkId : LandingWrite → ChunkId
  | transition w => w.chunkId
  | migration w => w.chunkId
  | decision w => w.chunkId
  | decisionLocked w => w.chunkId
  | hubStep w _ => w.chunkId
  | hubArtifact artifact _ => artifact.chunkId
  | repoLanding landing => landing.chunkId
  | deliveryLanded chunkId => chunkId
  | finalize w => w.chunkId
  | completion chunkId _ => chunkId

/-- The write's rows in the chunk tables. -/
def record (tables : Tables) (now : Instant) : LandingWrite → Tables × WriteOutcome
  | transition w => recordTransitionConn tables w now
  | migration w => recordMigrationConn tables w now
  | decision w => recordDecisionConn tables w now
  | decisionLocked w => recordDecisionLocked tables w now
  | hubStep w releaseRoute => transitionConn tables w releaseRoute now
  | hubArtifact artifact admission => recordHubArtifact tables artifact admission now
  | repoLanding landing => writeLandingRows tables landing now
  | deliveryLanded chunkId => (insertDeliveryLanded tables chunkId now, .recorded)
  | finalize w => finalizeDelivery tables w now
  | completion chunkId by_ => (recordCompletionLocked tables chunkId by_ now, .recorded)

/-- The `delivery_repo_landed` row a recorded merge writes. -/
def landedRepos (now : Instant) : LandingWrite → List RepoLandedRow
  | repoLanding landing =>
    [⟨landing.chunkId, landing.repo, landing.revision, landing.repositoryId, now⟩]
  | _ => []

def marks (artifacts : List StoredArtifact) : Bool :=
  artifacts.any fun row => isLandingMarker row.name row.data

/-- The write owes close intents once it is recorded. -/
def lands : LandingWrite → Bool
  | transition w => decide (w.toNodeId = reservedTerminal) || marks w.artifacts
  | migration w => marks w.artifacts
  | decision w => marks w.artifacts
  | decisionLocked w => marks w.artifacts
  | hubStep w _ => decide (w.toNodeId = reservedTerminal) || marks w.artifacts
  | hubArtifact artifact _ => isLandingMarker artifact.name artifact.data
  | repoLanding _ => true
  | deliveryLanded _ => true
  | finalize _ => true
  | completion _ _ => true

end LandingWrite

/-- One landing write's transaction; an error rolls back all of it. -/
def land (store : CloseStore) (write : LandingWrite) (decision : CloseEnqueueDecision) (now : Instant) :
    Except CloseError (CloseStore × WriteOutcome) :=
  let (tables, outcome) := write.record store.tables now
  if outcome = .recorded then
    let recorded := { store with tables, repoLanded := store.repoLanded ++ write.landedRepos now }
    if write.lands then
      (enqueueCloseIntents recorded write.chunkId now decision).map fun after => (after, outcome)
    else .ok (recorded, outcome)
  else .ok ({ store with tables }, outcome)

/-! ## The chunks' refs -/

/-- A minted chunk's row and its refs; a chunk id that stands is refused. -/
def insertChunkRows (store : CloseStore) (row : ChunkRow) (refs : List WorkRef) : Option CloseStore :=
  if free : row.chunkId ∉ store.tables.chunks.rows.map (·.chunkId) then
    some
      { store with
        tables := { store.tables with
          chunks :=
            { rows := store.tables.chunks.rows ++ [row]
              chunkId_unique := by
                rw [List.map_append, List.map_singleton]
                refine store.tables.chunks.chunkId_unique.append (List.nodup_singleton _) ?_
                intro id held own
                exact free (List.mem_singleton.mp own ▸ held) } }
        workRefs := store.workRefs ++ refs.map fun ref => ⟨row.chunkId, ref⟩ }
  else none

/-- A pointer folded into a group's survivor unless it holds it already. -/
def addWorkRef (chunkId : ChunkId) (refs : List WorkRefRow) (pointer : WorkRef) : List WorkRefRow :=
  if ⟨chunkId, pointer⟩ ∈ refs then refs else refs ++ [⟨chunkId, pointer⟩]

/-- A grouping: the survivor takes over the refs of what it folds. -/
def group (store : CloseStore) (survivor : ChunkId) (mergeIds : List ChunkId) (ids : ℕ → String) (now : Instant) :
    CloseStore × DependencyEdges.GroupOutcome :=
  let targets := DependencyEdges.mergeTargets survivor mergeIds
  match DependencyEdges.group store.tables survivor mergeIds ids now with
  | (tables, .grouped) =>
    ({ store with
        tables
        workRefs := (targets.flatMap (workRefsOf store)).foldl (addWorkRef survivor) store.workRefs },
      .grouped)
  | (_, outcome) => (store, outcome)

/-! ## What an attempt came to -/

section Attempts
variable (store : CloseStore) (chunkId : ChunkId)

/-- The pending intent of a ref. -/
def pendingIntentId (ref : WorkRef) : Option ℕ :=
  store.intents.rows.findIdx? fun row => decide (row.key = (chunkId, ref) ∧ row.retiredAt = none)

/-- A failed attempt ticks the backoff of the ref's pending intent, if it has one. -/
def tickBackoff (ref : WorkRef) (at_ : Instant) : CloseStore :=
  match pendingIntentId store chunkId ref with
  | none => store
  | some intentId => { store with attempts := store.attempts ++ [⟨intentId, at_, .failed, none⟩] }

/-- An outcome's closure unless it stands, and what the outcome does to the intent; whether the
closure was written. -/
def recordWorkItemClosure (pointer : WorkRef) (outcome : WorkItemCloseOutcome)
    (reason : Option String) (at_ : Instant) : CloseStore × Bool :=
  let (recorded, wrote) :=
    match store.closures.insert ⟨chunkId, pointer, outcome, reason, at_⟩ with
    | none => (store, false)
    | some closures => ({ store with closures }, true)
  if outcome.terminal then (retirePending recorded chunkId pointer at_, wrote)
  else (tickBackoff recorded chunkId pointer at_, wrote)

def recordCloseAttemptDeferred (intentId : ℕ) (at_ resumeAt : Instant) : CloseStore :=
  { store with attempts := store.attempts ++ [⟨intentId, at_, .deferred, some resumeAt⟩] }

/-! ## The pending intents and when they are due -/

/-- An intent with its attempt history: deferrals are neither counted nor dated, and the newest
one's resume time rides along. -/
structure PendingCloseIntent where
  chunkId : ChunkId
  ref : WorkRef
  intentId : ℕ
  attemptCount : ℕ
  lastAttemptAt : Option Instant
  resumeAt : Option Instant
  deriving DecidableEq, Repr

/-- The intent's attempts that were no deferral. -/
def spentAttempts (intentId : ℕ) : List AttemptRow :=
  store.attempts.filter fun row => decide (row.intentId = intentId ∧ row.outcome ≠ .deferred)

/-- The intent's deferrals, each with its id. -/
def deferrals (intentId : ℕ) : List (AttemptRow × ℕ) :=
  store.attempts.zipIdx.filter fun row =>
    decide (row.1.intentId = intentId ∧ row.1.outcome = .deferred)

/-- The deferral that comes last by `(attempted_at, id)`. -/
def newestDeferral (intentId : ℕ) : Option (AttemptRow × ℕ) :=
  (deferrals store intentId).argmax fun row => toLex (row.1.attemptedAt, row.2)

def pendingIntent (row : CloseIntentRow) (intentId : ℕ) : PendingCloseIntent where
  chunkId := row.chunkId
  ref := row.ref
  intentId := intentId
  attemptCount := (spentAttempts store intentId).length
  lastAttemptAt := ((spentAttempts store intentId).map (·.attemptedAt)).max?
  resumeAt := (newestDeferral store intentId).bind (·.1.resumeAt)

def pendingCloseIntents : List PendingCloseIntent :=
  (store.intents.rows.zipIdx.filter fun row =>
    row.1.retiredAt.isNone && !isEphemeralId store.tables row.1.chunkId).map fun row =>
      pendingIntent store row.1 row.2

end Attempts

/-- A delay of whole seconds. -/
def seconds (n : ℕ) : Instant := n * 1000000

def closeDrainBackoffBase : Instant := seconds 60
def closeDrainBackoffCap : Instant := seconds 3600
def closeDrainPassLimit : ℕ := 100
def maxDoublings : ℕ := 32

def backoffDelay (consecutiveFailures : ℕ) (base cap : Instant) : Instant :=
  if consecutiveFailures < 1 then base
  else min (base * 2 ^ min (consecutiveFailures - 1) maxDoublings) cap

/-- Never before the newest deferral's resume time; else with no attempt yet, or once the backoff
has passed since the last. -/
def closeIntentIsDue (now : Instant) (attemptCount : ℕ) (lastAttemptAt resumeAt : Option Instant) :
    Bool :=
  if resumeAt.any fun resume => decide (now < resume) then false
  else
    match lastAttemptAt with
    | none => true
    | some last =>
      attemptCount = 0 ||
        decide (backoffDelay attemptCount closeDrainBackoffBase closeDrainBackoffCap ≤ now - last)

def PendingCloseIntent.isDue (intent : PendingCloseIntent) (now : Instant) : Bool :=
  closeIntentIsDue now intent.attemptCount intent.lastAttemptAt intent.resumeAt

end Blizzard.CloseIntents
