import Mathlib.Data.List.Sort
import Blizzard.ChunkLevers

/-! # Runner fact intake

A push of one runner's buffered facts, applied in `seq` order. Each fact's
write shares a transaction with the advance of the runner's high-water mark,
conditioned on the mark the push last read; pushes interleave between those
transactions and their reads. -/
namespace Blizzard.FactIntake
open HubTables RouteLiveness EpochFence FencedWrites StatusLadder FactLoading ChunkLevers

/-- A fact's payload, already read as its kind's own fields. The ungated kinds (usage, events,
delivered answers, samples, local pauses) are the write their own guard decides. -/
inductive FactBody
  | leaseMinted (chunkId : ChunkId) (epoch : ℤ) (leaseId routeToken : Option String)
  | escalationRecorded (chunkId : ChunkId) (epoch : ℤ) (leaseId routeToken : Option String)
      (takeoverCommand wrappedTakeoverCommand : String) (cause detail : Option String)
  | questionAsked (chunkId : ChunkId) (epoch : ℤ) (leaseId routeToken : Option String)
      (questionId nodeId sessionId : String) (harnessId : Option String) (question : String)
      (options : List String) (askedAt : Option Instant)
  | ungated (guard : Tables → Option (Tables → Tables × Option ℤ))
  | unknown
  | malformed

structure PushedFact where
  seq : ℤ
  body : FactBody

/-- A gated fact's chunk and the token it presents. -/
def FactBody.gate : FactBody → Option (ChunkId × Option String)
  | .leaseMinted chunkId _ _ routeToken => some (chunkId, routeToken)
  | .escalationRecorded chunkId _ _ routeToken _ _ _ _ => some (chunkId, routeToken)
  | .questionAsked chunkId _ _ routeToken _ _ _ _ _ _ _ => some (chunkId, routeToken)
  | _ => none

inductive WriteAnswer
  | written (tables : Tables) (rowId : Option ℤ)
  | fenced
  | raised

inductive LandingDecision
  | refused
  | raised
  | lands (write : Tables → WriteAnswer)

/-- What the write fence answered, as the unit reads it. -/
def WriteAnswer.of (rowId : Option ℤ) : Tables × WriteOutcome → WriteAnswer
  | (tables, .recorded) => .written tables rowId
  | (tables, .replayed) => .written tables none
  | (_, .refused _) => .fenced
  | (_, .chunkMissing) => .raised

def routeTokenOk (tables : Tables) (chunkId : ChunkId) (runnerId : RunnerId)
    (presented : Option String) (mode : RouteTokenMode) : Bool :=
  (routeTokenRejection ((loadFacts tables chunkId).getD {}) presented runnerId
    ((routeOf tables chunkId).map (·.runnerId)) mode).isNone

/-- The write that lands a fact, decided before its unit opens. -/
def landing (tables : Tables) (runnerId : RunnerId) (mode : RouteTokenMode) (body : FactBody)
    (now : Instant) : LandingDecision :=
  if body.gate.any fun gate => !routeTokenOk tables gate.1 runnerId gate.2 mode then .refused
  else
    match body with
    | .leaseMinted chunkId epoch leaseId _ =>
      .lands fun tables =>
        .of none (recordLeaseMinted tables chunkId epoch ⟨runnerId, leaseId⟩ now)
    | .escalationRecorded chunkId epoch leaseId _ takeover wrapped cause detail =>
      .lands fun tables =>
        .of (some (tables.escalations.length + 1)) (recordEscalation tables
          ⟨chunkId, epoch, .atOrAbove, some ⟨runnerId, leaseId⟩, takeover, wrapped, none, cause,
            detail⟩ now)
    | .questionAsked chunkId epoch leaseId _ questionId nodeId sessionId harnessId question options
        askedAt =>
      .lands fun tables =>
        .of none (recordQuestion tables
          ⟨questionId, chunkId, nodeId, sessionId, harnessId, runnerId, epoch, .atOrAbove,
            some ⟨runnerId, leaseId⟩, question, options⟩ (askedAt.getD now))
    | .ungated guard =>
      match guard tables with
      | none => .refused
      | some write => .lands fun tables => .written (write tables).1 (write tables).2
    | .unknown => .refused
    | .malformed => .raised

/-- A rejected gated fact whose chunk has no live route. -/
def routeEnded (tables : Tables) (body : FactBody) : Bool :=
  body.gate.any fun gate => (routeOf tables gate.1).isNone

/-- One runner's mark beside the tables; `applied` is the history of the seqs whose unit committed. -/
structure Intake where
  tables : Tables
  mark : Option ℤ
  applied : List ℤ

/-- The mark as a push reads it: 0 before the runner's first row. -/
def Intake.highWater (hub : Intake) : ℤ := hub.mark.getD 0

/-- The compare-and-set; `none` is the conflict. -/
def advanceHighWater (mark : Option ℤ) (seq expected : ℤ) : Option (Option ℤ) :=
  if expected = 0 then
    match mark with
    | none => some (some seq)
    | some _ => none
  else if mark = some expected then some (some seq) else none

/-- Where a push stands: about to judge its head fact, holding that fact's landing, behind a
conflict, or over. -/
inductive Phase
  | deciding
  | landing (write : Tables → WriteAnswer)
  | conflicted
  | finished
  | conflictRaised
  | raised

structure Push where
  pushed : List PushedFact
  pending : List PushedFact
  mark : ℤ
  applied : List ℤ := []
  already : List ℤ := []
  rejected : List ℤ := []
  routeEnded : List ℤ := []
  rowIdBySeq : List (ℤ × ℤ) := []
  phase : Phase := .deciding

/-- A push as it begins: its facts in `seq` order, and the mark it read. -/
def Push.begin (hub : Intake) (pushed : List PushedFact) : Push where
  pushed := pushed
  pending := pushed.insertionSort fun a b => a.seq ≤ b.seq
  mark := hub.highWater

def Push.skip (push : Push) (fact : PushedFact) (rest : List PushedFact) : Push :=
  { push with pending := rest, already := push.already ++ [fact.seq], phase := .deciding }

def Push.reject (push : Push) (tables : Tables) (fact : PushedFact) (rest : List PushedFact) : Push :=
  { push with
    pending := rest
    rejected := push.rejected ++ [fact.seq]
    routeEnded :=
      if FactIntake.routeEnded tables fact.body then push.routeEnded ++ [fact.seq]
      else push.routeEnded
    phase := .deciding }

def Push.apply (push : Push) (fact : PushedFact) (rest : List PushedFact) (rowId : Option ℤ) : Push :=
  { push with
    pending := rest
    mark := fact.seq
    applied := push.applied ++ [fact.seq]
    rowIdBySeq := push.rowIdBySeq ++ (rowId.map fun id => (fact.seq, id)).toList
    phase := .deciding }

/-- The unit: the fact's write and the mark's advance, or neither. -/
def applyUnit (hub : Intake) (push : Push) (fact : PushedFact) (rest : List PushedFact)
    (write : Tables → WriteAnswer) : Intake × Push :=
  match write hub.tables with
  | .fenced => (hub, push.reject hub.tables fact rest)
  | .raised => (hub, { push with phase := .raised })
  | .written tables rowId =>
    match advanceHighWater hub.mark fact.seq push.mark with
    | none => (hub, { push with phase := .conflicted })
    | some mark => (⟨tables, mark, hub.applied ++ [fact.seq]⟩, push.apply fact rest rowId)

/-- One atomic step of a push: a read, or a unit. -/
def Push.step (hub : Intake) (runnerId : RunnerId) (mode : RouteTokenMode) (now : Instant)
    (push : Push) : Intake × Push :=
  match push.phase, push.pending with
  | .deciding, [] => (hub, { push with phase := .finished })
  | .deciding, fact :: rest =>
    if fact.seq ≤ push.mark then (hub, push.skip fact rest)
    else
      match FactIntake.landing hub.tables runnerId mode fact.body now with
      | .refused => (hub, push.reject hub.tables fact rest)
      | .raised => (hub, { push with phase := .raised })
      | .lands write => (hub, { push with phase := .landing write })
  | .landing write, fact :: rest => applyUnit hub push fact rest write
  | .conflicted, _ =>
    if hub.highWater = push.mark then (hub, { push with phase := .conflictRaised })
    else (hub, { push with mark := hub.highWater, phase := .deciding })
  | _, _ => (hub, push)

/-- One runner's pushes over the hub. -/
structure Lane where
  hub : Intake
  pushes : List Push

inductive LaneEvent
  | begin (pushed : List PushedFact)
  | advance (index : ℕ) (mode : RouteTokenMode) (now : Instant)
  | elsewhere (tables : Tables)

/-- The lane after an event; `elsewhere` is any other writer of the hub's tables. -/
def Lane.after (runnerId : RunnerId) (lane : Lane) : LaneEvent → Lane
  | .begin pushed => { lane with pushes := lane.pushes ++ [Push.begin lane.hub pushed] }
  | .advance index mode now =>
    match lane.pushes[index]? with
    | none => lane
    | some push =>
      ⟨(push.step lane.hub runnerId mode now).1,
        lane.pushes.set index (push.step lane.hub runnerId mode now).2⟩
  | .elsewhere tables => { lane with hub := { lane.hub with tables := tables } }

def LaneStep (runnerId : RunnerId) (lane : Lane) (event : LaneEvent) (lane' : Lane) : Prop :=
  lane' = lane.after runnerId event

/-- A lane no push has reached yet. -/
def Lane.empty (tables : Tables) : Lane := ⟨⟨tables, none, []⟩, []⟩

end Blizzard.FactIntake
