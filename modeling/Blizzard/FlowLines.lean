import Blizzard.HubTables
import Mathlib.Data.List.MinMax
import Mathlib.Data.List.Sort
import Mathlib.Data.String.Basic

/-! # A tenant's flow lines

Submissions of hub-node visits to the flows of the branches they land on, their closures, their
turns and the flows' facts. A submission is open while it has no closure, a turn while it has no
end. Each write is one transaction under the tenant row's lock; one that writes nothing or raises
is `none`. -/
namespace Blizzard.FlowLines
open HubTables

structure FlowResource where
  repositoryId : String
  branch : String
  deriving DecidableEq, Repr

def FlowResource.resource (r : FlowResource) : String :=
  "repo:" ++ r.repositoryId ++ "/" ++ r.branch

structure FlowRow where
  flowId : String
  resource : FlowResource
  createdAt : Instant
  deriving DecidableEq, Repr

structure SubmissionRow where
  submissionId : String
  chunkId : ChunkId
  nodeId : String
  epoch : ℤ
  generation : ℕ
  arrival : ℕ
  submittedAt : Instant
  deriving DecidableEq, Repr

structure HeldRow where
  submissionId : String
  flowId : String
  deriving DecidableEq, Repr

structure ClosureRow where
  submissionId : String
  outcome : String
  closedAt : Instant
  deriving DecidableEq, Repr

structure TurnRow where
  turnId : String
  submissionId : String
  startedAt : Instant
  endedAt : Option Instant := none
  outcome : Option String := none
  deriving DecidableEq, Repr

inductive FlowChangeKind | submitted | turnStarted | turnEnded | landed | withdrawn
  deriving DecidableEq, Repr

structure FlowFactRow where
  flowId : String
  submissionId : String
  chunkId : ChunkId
  kind : FlowChangeKind
  outcome : Option String
  revision : Option String
  at_ : Instant
  deriving DecidableEq, Repr

/-- What one repository a visit holds lands by; a landing position is kept as stored. -/
structure LandingTerms where
  repositoryId : String
  landingPolicy : String
  parkTimeoutHours : Option ℕ
  landingPosition : Option String
  deriving DecidableEq, Repr

structure TermsRow where
  submissionId : String
  terms : LandingTerms
  deriving DecidableEq, Repr

structure FlowTables where
  flows : List FlowRow := []
  submissions : List SubmissionRow := []
  held : List HeldRow := []
  closures : List ClosureRow := []
  turns : List TurnRow := []
  facts : List FlowFactRow := []
  terms : List TermsRow := []
  deriving DecidableEq

/-- Why a submission left its flows: the lever that ended its chunk, or any other move. -/
inductive Withdrawal | stopped | restarted | completed | superseded
  deriving DecidableEq, Repr

def Withdrawal.outcome : Withdrawal → String
  | .stopped => "stopped"
  | .restarted => "restarted"
  | .completed => "completed"
  | .superseded => "superseded"

def turnInterrupted : String := "interrupted"

def turnSuperseded : String := "superseded"

variable (t : FlowTables)

/-! ## Reads -/

def FlowTables.isOpen (submissionId : String) : Bool :=
  !t.closures.any (·.submissionId = submissionId)

def FlowTables.hasOpenTurn (submissionId : String) : Bool :=
  t.turns.any fun turn => turn.submissionId = submissionId ∧ turn.endedAt = none

def FlowTables.submission? (submissionId : String) : Option SubmissionRow :=
  t.submissions.find? (·.submissionId = submissionId)

/-- The flows a submission holds, in resource order. -/
def FlowTables.flowsHeld (submissionId : String) : List FlowRow :=
  ((t.held.filter (·.submissionId = submissionId)).flatMap fun h =>
    t.flows.filter (·.flowId = h.flowId)).insertionSort fun a b =>
      a.resource.resource ≤ b.resource.resource

def FlowTables.visit (chunkId : ChunkId) (nodeId : String) (epoch : ℤ) : List SubmissionRow :=
  t.submissions.filter fun s => s.chunkId = chunkId ∧ s.nodeId = nodeId ∧ s.epoch = epoch

/-- The visit's newest submission. -/
def FlowTables.submissionForVisit (chunkId : ChunkId) (nodeId : String) (epoch : ℤ) :
    Option SubmissionRow :=
  (t.visit chunkId nodeId epoch).argmax (·.generation)

/-- The outcome a submission was closed under. -/
def FlowTables.closedUnder (submissionId : String) : Option String :=
  (t.closures.find? (·.submissionId = submissionId)).map (·.outcome)

/-- The generation a visit submits at: the first, or the next where the newest closed
`superseded`. -/
def FlowTables.generation (chunkId : ChunkId) (nodeId : String) (epoch : ℤ) : Option ℕ :=
  match t.submissionForVisit chunkId nodeId epoch with
  | none => some 0
  | some latest =>
    if t.closedUnder latest.submissionId = some turnSuperseded then some (latest.generation + 1)
    else none

/-- Whether any of the flows has an open turn, of any submission holding it. -/
def FlowTables.busy (flows : List FlowRow) : Bool :=
  t.turns.any fun turn => turn.endedAt = none ∧
    ∃ h ∈ t.held, h.submissionId = turn.submissionId ∧ h.flowId ∈ flows.map (·.flowId)

/-- The open submissions on any of the flows that arrived before. -/
def FlowTables.aheadOn (flows : List FlowRow) (arrival : ℕ) : List String :=
  (t.submissions.filter fun s => s.arrival < arrival ∧ t.isOpen s.submissionId ∧
    ∃ h ∈ t.held, h.submissionId = s.submissionId ∧ h.flowId ∈ flows.map (·.flowId)).map
      (·.submissionId)

/-! ## Writes -/

/-- One fact for each flow. -/
def FlowTables.writeFacts (flows : List FlowRow) (submissionId : String) (chunkId : ChunkId)
    (kind : FlowChangeKind) (outcome revision : Option String) (at_ : Instant) : FlowTables :=
  { t with
    facts := t.facts ++ flows.map fun flow =>
      ⟨flow.flowId, submissionId, chunkId, kind, outcome, revision, at_⟩ }

/-- The tenant's flow on a resource, made now where none is; a minted id that is taken raises. -/
def FlowTables.flowFor (mint : String → String) (at_ : Instant) (r : FlowResource) :
    Option (FlowTables × FlowRow) :=
  match t.flows.find? (·.resource.resource = r.resource) with
  | some row => some (t, row)
  | none =>
    let flow : FlowRow := ⟨mint r.resource, r, at_⟩
    if t.flows.any (·.flowId = flow.flowId) then none
    else some ({ t with flows := t.flows ++ [flow] }, flow)

/-- The flows of several resources, in order. -/
def flowsFor (mint : String → String) (at_ : Instant) :
    FlowTables → List FlowResource → Option (FlowTables × List FlowRow)
  | t, [] => some (t, [])
  | t, r :: rest => do
    let (t, flow) ← t.flowFor mint at_ r
    let (t, flows) ← flowsFor mint at_ t rest
    some (t, flow :: flows)

/-- Submit a visit at a generation that is not taken, after every arrival of the tenant. -/
def FlowTables.submit (submissionId : String) (mint : String → String) (chunkId : ChunkId)
    (nodeId : String) (epoch : ℤ) (generation : ℕ) (resources : List FlowResource)
    (at_ : Instant) : Option FlowTables :=
  if (t.visit chunkId nodeId epoch).any (·.generation = generation) then none
  else if t.submissions.any (·.submissionId = submissionId) then none
  else do
    let arrival := ((t.submissions.map (·.arrival)).max?).getD 0 + 1
    let submission : SubmissionRow :=
      { submissionId, chunkId, nodeId, epoch, generation, arrival, submittedAt := at_ }
    let (t, flows) ← flowsFor mint at_ { t with submissions := t.submissions ++ [submission] }
      resources.eraseDups
    let rows : List HeldRow := flows.map fun flow => ⟨submissionId, flow.flowId⟩
    let holding : FlowTables := { t with held := t.held ++ rows }
    if (flows.map (·.flowId)).Nodup then
      some (holding.writeFacts flows submissionId chunkId .submitted none none at_)
    else none

/-- The unit of the reconciler that submits a visit: the generation is read under its lock. -/
def FlowTables.submitVisit (submissionId : String) (mint : String → String) (chunkId : ChunkId)
    (nodeId : String) (epoch : ℤ) (resources : List FlowResource) (at_ : Instant) :
    Option FlowTables := do
  let generation ← t.generation chunkId nodeId epoch
  t.submit submissionId mint chunkId nodeId epoch generation resources at_

/-- Close a submission that has no closure, with a `withdrawn` fact on each flow it holds. -/
def FlowTables.closeSubmission (submissionId : String) (outcome : String) (at_ : Instant) :
    Option FlowTables := do
  let submission ← t.submission? submissionId
  if t.isOpen submissionId then
    let closed : FlowTables := { t with closures := t.closures ++ [⟨submissionId, outcome, at_⟩] }
    some (closed.writeFacts (t.flowsHeld submissionId) submissionId submission.chunkId .withdrawn
      (some outcome) none at_)
  else none

/-- Close a submission without an open turn. -/
def FlowTables.close (submissionId : String) (outcome : Withdrawal) (at_ : Instant) :
    Option FlowTables :=
  if t.hasOpenTurn submissionId then none
  else t.closeSubmission submissionId outcome.outcome at_

/-- Terms for each repository held that has none: what the visit's newest earlier generation took,
else the candidate. -/
def FlowTables.takeTerms (submission : SubmissionRow) (flows : List FlowRow)
    (candidates : List LandingTerms) : FlowTables :=
  let repositories := (flows.map (·.resource.repositoryId)).dedup.insertionSort (· ≤ ·)
  let taken := (t.terms.filter (·.submissionId = submission.submissionId)).map
    (·.terms.repositoryId)
  let prior := (t.visit submission.chunkId submission.nodeId submission.epoch).filter
    (·.generation < submission.generation)
  let earlier := (prior.insertionSort fun a b => b.generation ≤ a.generation).flatMap fun s =>
    (t.terms.filter (·.submissionId = s.submissionId)).map (·.terms)
  let chosen := (repositories.filter (· ∉ taken)).filterMap fun repository =>
    (earlier ++ candidates.reverse).find? (·.repositoryId = repository)
  { t with terms := t.terms ++ chosen.map fun terms => ⟨submission.submissionId, terms⟩ }

/-- Start a turn of an open submission with none, where no flow it holds is busy and every open
submission ahead of it was passed over. -/
def FlowTables.takeTurn (turnId : String) (submissionId : String) (passedOver : List String)
    (candidates : List LandingTerms) (at_ : Instant) : Option FlowTables := do
  let submission ← t.submission? submissionId
  let flows := t.flowsHeld submissionId
  if !t.isOpen submissionId ∨ t.hasOpenTurn submissionId then none
  else if flows ≠ [] ∧
      (t.busy flows ∨ ¬∀ s ∈ t.aheadOn flows submission.arrival, s ∈ passedOver) then none
  else if t.turns.any (·.turnId = turnId) then none
  else
    let turn : TurnRow := { turnId, submissionId, startedAt := at_ }
    let turned : FlowTables := { t with turns := t.turns ++ [turn] }
    let told := turned.writeFacts flows submissionId submission.chunkId .turnStarted none none at_
    some (told.takeTerms submission flows candidates)

/-- End an open turn, with a `turn-ended` fact on each flow its submission holds. -/
def FlowTables.endTurn (turnId : String) (outcome : String) (at_ : Instant) :
    Option (FlowTables × String) := do
  let turn ← t.turns.find? fun turn => turn.turnId = turnId ∧ turn.endedAt = none
  let submission ← t.submission? turn.submissionId
  let ended : FlowTables := { t with
    turns := t.turns.map fun turn =>
      if turn.turnId = turnId then { turn with endedAt := some at_, outcome := some outcome }
      else turn }
  some (ended.writeFacts (t.flowsHeld turn.submissionId) turn.submissionId submission.chunkId
    .turnEnded (some outcome) none at_, turn.submissionId)

/-- End a turn and close its submission, where a closure is named and none stands. -/
def FlowTables.endTurnLocked (turnId : String) (outcome : String) (closure : Option String)
    (at_ : Instant) : Option FlowTables := do
  let (ended, submissionId) ← t.endTurn turnId outcome at_
  match closure with
  | none => some ended
  | some outcome => some ((ended.closeSubmission submissionId outcome at_).getD ended)

def FlowTables.endTurnInterrupted (turnId : String) (withdrawal : Option Withdrawal)
    (at_ : Instant) : Option FlowTables :=
  t.endTurnLocked turnId turnInterrupted (withdrawal.map (·.outcome)) at_

/-- A lever's withdrawal: close every open submission of the chunk that has no open turn. -/
def FlowTables.withdrawWaiting (chunkId : ChunkId) (outcome : Withdrawal) (at_ : Instant) :
    FlowTables :=
  let waiting := (t.submissions.filter fun s => s.chunkId = chunkId ∧ t.isOpen s.submissionId ∧
    ¬t.hasOpenTurn s.submissionId).insertionSort fun a b => a.arrival ≤ b.arrival
  waiting.foldl (fun t s => (t.closeSubmission s.submissionId outcome.outcome at_).getD t) t

/-- The `landed` fact of a merge whose landing rows were written. -/
def FlowTables.recordLanding (flow : FlowRow) (submissionId : String) (chunkId : ChunkId)
    (wrote : Bool) (revision : String) (at_ : Instant) : FlowTables :=
  if wrote then t.writeFacts [flow] submissionId chunkId .landed none (some revision) at_ else t

/-! ## Writes in any order -/

inductive Write
  | submit (submissionId : String) (mint : String → String) (chunkId : ChunkId) (nodeId : String)
      (epoch : ℤ) (resources : List FlowResource) (at_ : Instant)
  | close (submissionId : String) (outcome : Withdrawal) (at_ : Instant)
  | takeTurn (turnId submissionId : String) (passedOver : List String)
      (candidates : List LandingTerms) (at_ : Instant)
  | endTurn (turnId outcome : String) (closure : Option String) (at_ : Instant)
  | interrupt (turnId : String) (withdrawal : Option Withdrawal) (at_ : Instant)
  | withdraw (chunkId : ChunkId) (outcome : Withdrawal) (at_ : Instant)
  | land (flow : FlowRow) (submissionId : String) (chunkId : ChunkId) (wrote : Bool)
      (revision : String) (at_ : Instant)

def FlowTables.step : Write → FlowTables
  | .submit submissionId mint chunkId nodeId epoch resources at_ =>
    (t.submitVisit submissionId mint chunkId nodeId epoch resources at_).getD t
  | .close submissionId outcome at_ => (t.close submissionId outcome at_).getD t
  | .takeTurn turnId submissionId passedOver candidates at_ =>
    (t.takeTurn turnId submissionId passedOver candidates at_).getD t
  | .endTurn turnId outcome closure at_ => (t.endTurnLocked turnId outcome closure at_).getD t
  | .interrupt turnId withdrawal at_ => (t.endTurnInterrupted turnId withdrawal at_).getD t
  | .withdraw chunkId outcome at_ => t.withdrawWaiting chunkId outcome at_
  | .land flow submissionId chunkId wrote revision at_ =>
    t.recordLanding flow submissionId chunkId wrote revision at_

def FlowTables.run (writes : List Write) : FlowTables := writes.foldl FlowTables.step t

end Blizzard.FlowLines
