import Blizzard.RouteLiveness

/-! # The derived chunk status

`ChunkFacts` is the aggregate of facts a chunk's status derives from; the
status is a pure function of it, a precedence ladder over newest-fact rules.
The verb table says from which statuses each operation is legal. -/
namespace Blizzard.StatusLadder
open HubTables RouteLiveness

inductive ChunkStatus
  | notReady | ready | running | delivering | waitingOnHuman | needsHuman | paused | stopped | done
  deriving DecidableEq, Repr

/-- Every status, in declaration order. -/
def ChunkStatus.all : List ChunkStatus :=
  [.notReady, .ready, .running, .delivering, .waitingOnHuman, .needsHuman, .paused, .stopped, .done]

theorem ChunkStatus.mem_all (status : ChunkStatus) : status ∈ ChunkStatus.all := by
  cases status <;> decide

def terminalStatuses : List ChunkStatus := [.stopped, .done]

/-- The statuses of a chunk no runner has taken. -/
def preClaimStatuses : List ChunkStatus := [.notReady, .ready]

/-- The verbs whose legality the modelled services read. -/
inductive ChunkVerb
  | declareDependency | promote | demote | pause | resume | stop | complete | restart | delete
  | group | claim | rekeyRouteToken | requeue | release
  deriving DecidableEq, Repr

def nonTerminal : List ChunkStatus := ChunkStatus.all.filter fun s => decide (s ∉ terminalStatuses)

/-- The statuses each verb is legal from. -/
def chunkVerbLegality : ChunkVerb → List ChunkStatus
  | .declareDependency => preClaimStatuses
  | .promote => nonTerminal
  | .demote => [.ready]
  | .pause => nonTerminal.filter fun s => decide (s ≠ .delivering)
  | .resume => ChunkStatus.all
  | .stop => nonTerminal
  | .complete => ChunkStatus.all
  | .restart => nonTerminal
  | .delete => preClaimStatuses
  | .group => preClaimStatuses
  | .claim => [.ready]
  | .rekeyRouteToken => nonTerminal
  | .requeue => [.needsHuman]
  | .release => [.running]

def verbLegalFrom (verb : ChunkVerb) (status : ChunkStatus) : Bool :=
  decide (status ∈ chunkVerbLegality verb)

/-- A chunk at this status still holds the route it may be carrying. -/
def holdsClaim (status : ChunkStatus) : Bool := decide (status ∉ terminalStatuses)

structure TransitionFact where
  toNodeId : String
  toNodeExecutor : Executor
  epoch : ℤ
  recordedAt : Instant
  fromNodeId : Option String
  choiceName : Option String
  graphId : String
  transitionId : String
  deriving DecidableEq, Repr

structure MigrationFact where
  fromNodeId : Option String
  fromGraphId : String
  toGraphId : String
  landedNodeId : Option String
  choiceName : Option String
  model : Option String
  epoch : ℤ
  recordedAt : Instant
  landedNodeExecutor : Executor
  source : Option MigrationSource
  migrationId : String
  deriving DecidableEq, Repr

structure RestartFact where
  toNodeId : String
  fromNodeId : Option String
  graphId : String
  epoch : ℤ
  recordedAt : Instant
  fromGraphId : Option String
  toNodeExecutor : Executor
  restartedBy : String
  note : Option String
  decisionId : Option String
  deriving DecidableEq, Repr

structure EscalationFact where
  epoch : ℤ
  recordedAt : Instant
  takeoverCommand : String
  wrappedTakeoverCommand : String
  cause : Option String
  detail : Option String
  deriving DecidableEq, Repr

structure LeaseFact where
  epoch : ℤ
  mintedAt : Instant
  deriving DecidableEq, Repr

structure EpochOwnerFact where
  epoch : ℤ
  runnerId : Option RunnerId
  deriving DecidableEq, Repr

structure QuestionFact where
  questionId : String
  askedAt : Instant
  answered : Bool
  epoch : ℤ
  deriving DecidableEq, Repr

structure DecisionFact where
  decisionId : String
  submittedAt : Instant
  resolved : Bool
  closed : Bool
  deriving DecidableEq, Repr

structure RequeueFact where
  requeuedAt : Instant
  requeuedBy : Option String
  note : Option String
  deriving DecidableEq, Repr

structure PauseFact where
  paused : Bool
  setAt : Instant
  setBy : String
  deriving DecidableEq, Repr

/-- Every fact a chunk's status derives from, already loaded. -/
structure ChunkFacts where
  promoted : Bool := false
  stoppedAt : Option Instant := none
  operatorCompletedAt : Option Instant := none
  deliveryLanded : Bool := false
  escalations : List EscalationFact := []
  leases : List LeaseFact := []
  epochOwners : List EpochOwnerFact := []
  transitions : List TransitionFact := []
  routes : RouteHistory := {}
  questions : List QuestionFact := []
  decisions : List DecisionFact := []
  requeues : List RequeueFact := []
  migrations : List MigrationFact := []
  restarts : List RestartFact := []
  pauses : List PauseFact := []
  deriving DecidableEq, Repr

/-- Which fact family put a chunk on the node it stands on. -/
inductive MovementKind | transition | migration | restart
  deriving DecidableEq, Repr

/-- The kind's place in an exact `(recorded_at, epoch)` tie. -/
def MovementKind.rank : MovementKind → ℕ
  | .transition => 0
  | .migration => 1
  | .restart => 2

abbrev MovementKey := ℤ ×ₗ ℤ ×ₗ ℕ

def MovementKind.orderKey (kind : MovementKind) (recordedAt : Instant) (epoch : ℤ) : MovementKey :=
  toLex (recordedAt, toLex (epoch, kind.rank))

structure Movement where
  kind : MovementKind
  nodeId : Option String
  executor : Executor
  graphId : String
  deriving DecidableEq, Repr

namespace ChunkFacts
variable (facts : ChunkFacts)

def stopped : Bool := facts.stoppedAt.isSome
def operatorCompleted : Bool := facts.operatorCompletedAt.isSome

/-- The `(recorded_at, epoch)` order of a movement family. -/
def transitionKey (t : TransitionFact) : ℤ ×ₗ ℤ := toLex (t.recordedAt, t.epoch)
def migrationKey (m : MigrationFact) : ℤ ×ₗ ℤ := toLex (m.recordedAt, m.epoch)
def restartKey (r : RestartFact) : ℤ ×ₗ ℤ := toLex (r.recordedAt, r.epoch)

def newestTransition : Option TransitionFact := facts.transitions.argmax transitionKey

/-- The newest epoch of the chunk's leases, restarts and owners, `none` before any. -/
def latestEpoch : Option ℤ :=
  (facts.leases.map (·.epoch) ++ facts.restarts.map (·.epoch) ++
    facts.epochOwners.map (·.epoch)).max?

/-- The newest movement of each family, keyed by `orderKey`. -/
def rankedMovements (asOf : Option Instant) : List (MovementKey × Movement) :=
  let seen (recordedAt : Instant) : Bool := asOf.all fun instant => decide (recordedAt ≤ instant)
  let transition := (facts.transitions.filter fun t => seen t.recordedAt).argmax transitionKey
  let migration := (facts.migrations.filter fun m => seen m.recordedAt).argmax migrationKey
  let restart := (facts.restarts.filter fun r => seen r.recordedAt).argmax restartKey
  (transition.map fun t => (MovementKind.orderKey .transition t.recordedAt t.epoch,
      (⟨.transition, some t.toNodeId, t.toNodeExecutor, t.graphId⟩ : Movement))).toList ++
    (migration.map fun m => (MovementKind.orderKey .migration m.recordedAt m.epoch,
      (⟨.migration, m.landedNodeId, m.landedNodeExecutor, m.toGraphId⟩ : Movement))).toList ++
    (restart.map fun r => (MovementKind.orderKey .restart r.recordedAt r.epoch,
      (⟨.restart, some r.toNodeId, r.toNodeExecutor, r.graphId⟩ : Movement))).toList

/-- The chunk's newest movement fact, `none` while it has not moved. -/
def latestMovement (asOf : Option Instant) : Option Movement :=
  ((facts.rankedMovements asOf).argmax Prod.fst).map Prod.snd

/-- `none` means the chunk stands on nowhere yet: its pinned graph's entry. -/
def currentNodeId : Option String := (facts.latestMovement none).bind (·.nodeId)

/-- The newest movement is a transition into the reserved terminal. -/
def newestTransitionIsTerminal : Bool :=
  match facts.latestMovement none with
  | none => false
  | some movement =>
    decide (movement.kind = .transition) && decide (movement.nodeId = some reservedTerminal)

def latestMovementEntersHubNode : Bool :=
  (facts.latestMovement none).any fun movement => decide (movement.executor = .hub)

/-- A completion outranks the stop it follows; the tie goes to the completion. -/
def operatorCompletionOutranksStop : Bool :=
  match facts.operatorCompletedAt, facts.stoppedAt with
  | none, _ => false
  | some _, none => true
  | some completedAt, some stoppedAt => decide (stoppedAt ≤ completedAt)

/-- The instant a terminal chunk finished. -/
def completedAt : Option Instant :=
  if facts.stopped && !facts.operatorCompletionOutranksStop then facts.stoppedAt
  else if facts.operatorCompleted then facts.operatorCompletedAt
  else if facts.newestTransitionIsTerminal then facts.newestTransition.map (·.recordedAt)
  else none

/-- The newest escalation that no later lease, requeue, restart or completion superseded. -/
def openEscalation : Option EscalationFact :=
  match facts.escalations.argmax (·.recordedAt) with
  | none => none
  | some newest =>
    let superseding := facts.leases.map (·.mintedAt) ++ facts.requeues.map (·.requeuedAt) ++
      facts.restarts.map (·.recordedAt) ++ facts.completedAt.toList
    if superseding.any fun instant => decide (newest.recordedAt < instant) then none else some newest

/-- The unanswered questions, oldest first. -/
def openQuestions : List QuestionFact :=
  (facts.questions.filter fun q => !q.answered).mergeSort fun a b =>
    decide (a.askedAt < b.askedAt) ||
      (decide (a.askedAt = b.askedAt) && decide (a.questionId ≤ b.questionId))

def openDecision : Option DecisionFact :=
  (facts.decisions.filter fun d => !d.resolved).argmax (·.submittedAt)

def unclosedDecision : Option DecisionFact :=
  (facts.decisions.filter fun d => !d.closed).argmax (·.submittedAt)

/-- The newest pause fact, if it reads paused. -/
def openPause : Option PauseFact :=
  match facts.pauses.getLast? with
  | none => none
  | some fact => if fact.paused then some fact else none

def isWaitingOnHuman : Bool := !facts.openQuestions.isEmpty || facts.openDecision.isSome

def hasLiveRoute : Bool := facts.routes.newest.isSome

/-- The precedence ladder, with whether the pause fact holds as an input. -/
def statusWith (paused : Bool) : ChunkStatus :=
  if facts.stopped && !facts.operatorCompletionOutranksStop then .stopped
  else if facts.operatorCompleted || facts.newestTransitionIsTerminal then .done
  else if facts.openEscalation.isSome then .needsHuman
  else if facts.isWaitingOnHuman then .waitingOnHuman
  else if paused then .paused
  else if !facts.promoted && !facts.hasLiveRoute then .notReady
  else if facts.latestMovementEntersHubNode then .delivering
  else if facts.hasLiveRoute then .running
  else .ready

/-- The chunk's single derived status, first match wins. -/
def status : ChunkStatus := facts.statusWith facts.openPause.isSome

def admits (verb : ChunkVerb) : Bool := verbLegalFrom verb facts.status

/-- The status with the pause lifted is `ready`. -/
def isReadyButForPause : Bool := decide (({ facts with pauses := [] } : ChunkFacts).status = .ready)

/-- `done`, finished strictly before `instant`; a stopped chunk never reads as finished. -/
def finishedBefore (instant : Instant) : Bool :=
  decide (facts.status = .done) && facts.completedAt.any fun finished => decide (finished < instant)

end ChunkFacts

variable {facts : ChunkFacts}

theorem status_eq_stopped_iff :
    facts.status = .stopped ↔
      (facts.stopped && !facts.operatorCompletionOutranksStop) = true := by
  constructor
  · intro h
    unfold ChunkFacts.status ChunkFacts.statusWith at h
    split_ifs at h with outranked
    exact outranked
  · intro outranked
    rw [ChunkFacts.status, ChunkFacts.statusWith, if_pos outranked]

theorem status_eq_done_iff :
    facts.status = .done ↔ (facts.stopped && !facts.operatorCompletionOutranksStop) = false ∧
      (facts.operatorCompleted || facts.newestTransitionIsTerminal) = true := by
  constructor
  · intro h
    unfold ChunkFacts.status ChunkFacts.statusWith at h
    split_ifs at h with outranked finished
    exact ⟨Bool.eq_false_of_not_eq_true outranked, finished⟩
  · rintro ⟨outranked, finished⟩
    rw [ChunkFacts.status, ChunkFacts.statusWith, outranked, if_neg Bool.false_ne_true, if_pos finished]

/-- A chunk that reads `ready` has no live route. -/
theorem hasLiveRoute_eq_false_of_ready (h : facts.status = .ready) : facts.hasLiveRoute = false := by
  unfold ChunkFacts.status ChunkFacts.statusWith at h
  split_ifs at h with _ _ _ _ _ _ _ routed
  exact Bool.eq_false_of_not_eq_true routed

/-- A chunk with a live route reads neither `ready` nor `not_ready`. -/
theorem status_of_hasLiveRoute (h : facts.hasLiveRoute = true) :
    facts.status ≠ .ready ∧ facts.status ≠ .notReady := by
  unfold ChunkFacts.status ChunkFacts.statusWith
  split_ifs <;> simp_all

end Blizzard.StatusLadder
