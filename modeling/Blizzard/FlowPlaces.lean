import Blizzard.FlowReconcile
import Blizzard.HubPolls
import Blizzard.SortedRanks

/-! # Places on the flow lines

A tenant's open submissions judged against where their chunks stand: which may take a
pass now, which is next on every flow it holds, and the place each is shown at. One
arrival orders all of them, so the earliest eligible submission of a flow is the only
one that can be next there. -/
namespace Blizzard.FlowPlaces
open HubTables StatusLadder FlowLines FlowReconcile HubPolls

/-- A delay of whole seconds. -/
def delay (seconds : ℤ) : Instant := seconds * 1000000

def defaultPollInterval : Instant := delay 30
def defaultPollTimeout : Instant := delay (3 * 60 * 60)
def parkPollFloor : Instant := delay (2 * 60)

/-- A hub node's pending-poll cadence and give-up bound. -/
structure PollPolicy where
  interval : Instant := defaultPollInterval
  timeout : Instant := defaultPollTimeout
  deriving DecidableEq, Repr

/-- A parked visit polls no more often than the floor. -/
def PollPolicy.intervalFor (policy : PollPolicy) (kind : String) : Instant :=
  if kind = "awaiting-merge" then max policy.interval parkPollFloor else policy.interval

/-- When a visit waiting since the row is next due; the row's own instant only postpones. -/
def PollPolicy.dueAt (policy : PollPolicy) (row : HubNodePollFact) : Instant :=
  let due := row.lastPolledAt.getD row.polledAt + policy.intervalFor row.kind
  match row.nextPollAt with
  | none => due
  | some nextPollAt => max due nextPollAt

/-- A visit's place in the flows it holds. -/
structure Submission extends SubmissionRow where
  flows : List FlowRow
  deriving DecidableEq, Repr

/-- The submission holds the flow. -/
def Submission.holds (submission : Submission) (flowId : String) : Bool :=
  submission.flows.any fun held => decide (held.flowId = flowId)

inductive FlowPlaceState
  | landing | passedOver | awaitingMerge | polling | next | waiting
  deriving DecidableEq, Repr

structure FlowPlace where
  submission : Submission
  flow : FlowRow
  state : FlowPlaceState
  position : ℕ
  dueAt : Option Instant
  deriving DecidableEq, Repr

/-- A tenant's open submissions with their chunks' facts, their nodes' poll policies and the
submissions with an open turn. No two arrived at one place. -/
structure FlowLine where
  submissions : List Submission
  facts : ChunkId → HubFacts
  policies : String → PollPolicy
  turning : List String := []
  distinct : (submissions.map (·.arrival)).Nodup

/-- The chunk is `delivering` and the visit is its current one. -/
def mayPass (facts : HubFacts) (submission : Submission) : Bool :=
  deliveringAt facts.toChunkFacts submission.nodeId submission.epoch

namespace FlowLine
variable (line : FlowLine) (now : Instant)

def latestPoll (submission : Submission) : Option HubNodePollFact :=
  ((line.facts submission.chunkId).hubNodePollHistory submission.nodeId submission.epoch).getLast?

/-- When the visit's next poll is due, `none` while it has no poll. -/
def dueAt (submission : Submission) : Option Instant :=
  (line.latestPoll submission).map (line.policies submission.submissionId).dueAt

/-- It may pass, has no open turn, and its next poll is due. -/
def eligible (submission : Submission) : Bool :=
  if !mayPass (line.facts submission.chunkId) submission then false
  else if submission.submissionId ∈ line.turning then false
  else (line.dueAt submission).all fun due => decide (due ≤ now)

/-- It is eligible, and no eligible submission arrived before it on any flow it holds. -/
def isNext (submission : Submission) : Bool :=
  if !line.eligible now submission then false
  else !line.submissions.any fun other =>
    decide (other.arrival < submission.arrival) &&
      (submission.flows.any fun flow => other.holds flow.flowId) && line.eligible now other

def state (submission : Submission) : FlowPlaceState × Option Instant :=
  if submission.submissionId ∈ line.turning then (.landing, none)
  else if !mayPass (line.facts submission.chunkId) submission then (.passedOver, none)
  else match line.dueAt submission with
    | some due =>
      if now < due then
        if (line.latestPoll submission).any fun poll => decide (poll.kind = "awaiting-merge") then
          (.awaitingMerge, some due)
        else (.polling, some due)
      else (if line.isNext now submission then .next else .waiting, none)
    | none => (if line.isNext now submission then .next else .waiting, none)

def eligibleAhead (submission : Submission) (flow : FlowRow) : ℕ :=
  line.submissions.countP fun other =>
    decide (other.arrival < submission.arrival) && other.holds flow.flowId && line.eligible now other

/-- The submission's place on each flow it holds. -/
def placesOf (submission : Submission) : List FlowPlace :=
  let (state, due) := line.state now submission
  submission.flows.map fun flow =>
    { submission, flow, state
      position := if state = .landing ∨ state = .next then 1
        else 1 + line.eligibleAhead now submission flow
      dueAt := due }

/-- The submissions one pass hands the store as judged ineligible. -/
def passedOver : List String :=
  (line.submissions.filter fun submission => !line.eligible now submission).map (·.submissionId)

/-- The submissions one pass takes a turn for. -/
def nexts : List Submission := line.submissions.filter (line.isNext now)

end FlowLine

variable {line : FlowLine} {now : Instant} {submission other : Submission}

/-! ## Being next -/

/-- An eligible submission that arrived before on a flow both hold. -/
def Ahead (line : FlowLine) (now : Instant) (other submission : Submission) (flowId : String) :
    Prop :=
  other ∈ line.submissions ∧ line.eligible now other = true ∧
    other.arrival < submission.arrival ∧ other.holds flowId = true

theorem isNext_iff : line.isNext now submission = true ↔ line.eligible now submission = true ∧
    ∀ flow ∈ submission.flows, ∀ other, ¬ Ahead line now other submission flow.flowId := by
  rw [FlowLine.isNext]
  cases passes : line.eligible now submission with
  | false => simp
  | true =>
    simp only [Bool.not_true, Bool.false_eq_true, if_false, Bool.not_eq_true', List.any_eq_false,
      Bool.and_eq_true, decide_eq_true_eq, List.any_eq_true, not_and, Ahead, true_and]
    constructor
    · rintro clear flow held other mem eligible before holds
      exact clear other mem ⟨before, flow, held, holds⟩ eligible
    · rintro clear other mem ⟨before, flow, held, holds⟩ eligible
      exact clear flow held other mem eligible before holds

theorem arrival_ne (mem : submission ∈ line.submissions) (mem' : other ∈ line.submissions)
    (apart : submission ≠ other) : submission.arrival ≠ other.arrival := by
  intro same
  exact apart (List.inj_on_of_nodup_map line.distinct mem mem' same)

/-- Of two submissions that hold one flow, the later is not next while the earlier is eligible. -/
theorem not_next_behind (mem : submission ∈ line.submissions)
    (eligible : line.eligible now submission = true) (before : submission.arrival < other.arrival)
    {flow held : FlowRow} (holds : flow ∈ submission.flows) (holds' : held ∈ other.flows)
    (same : flow.flowId = held.flowId) : line.isNext now other = false := by
  refine Bool.eq_false_iff.mpr fun next => ?_
  refine (isNext_iff.mp next).2 held holds' submission ⟨mem, eligible, before, ?_⟩
  exact List.any_eq_true.mpr ⟨flow, holds, decide_eq_true same⟩

theorem nexts_apart (mem : submission ∈ line.submissions) (mem' : other ∈ line.submissions)
    (apart : submission ≠ other) (next : line.isNext now submission = true)
    (next' : line.isNext now other = true) {flow held : FlowRow} (holds : flow ∈ submission.flows)
    (holds' : held ∈ other.flows) : flow.flowId ≠ held.flowId := by
  intro same
  rcases Nat.lt_or_gt_of_ne (arrival_ne mem mem' apart) with before | before
  · have blocked := not_next_behind mem (isNext_iff.mp next).1 before holds holds' same
    exact absurd next' (Bool.eq_false_iff.mp blocked)
  · have blocked := not_next_behind mem' (isNext_iff.mp next').1 before holds' holds same.symm
    exact absurd next (Bool.eq_false_iff.mp blocked)

/-- The eligible submission that arrived first is next. -/
theorem exists_next (mem : submission ∈ line.submissions)
    (eligible : line.eligible now submission = true) :
    ∃ first ∈ line.submissions, line.isNext now first = true := by
  let passing := line.submissions.filter (line.eligible now)
  have some_ : passing ≠ [] := List.ne_nil_of_mem (List.mem_filter.mpr ⟨mem, eligible⟩)
  obtain ⟨first, least⟩ := Option.ne_none_iff_exists'.mp
    (mt List.argmin_eq_none.mp some_ : passing.argmin (·.arrival) ≠ none)
  obtain ⟨held, passes⟩ := List.mem_filter.mp (List.argmin_mem least)
  refine ⟨first, held, isNext_iff.mpr ⟨passes, ?_⟩⟩
  rintro flow - other ⟨among, may, before, -⟩
  have le := List.le_of_mem_argmin (List.mem_filter.mpr ⟨among, may⟩) least
  omega

/-! ## The state of a place -/

theorem eligible_iff : line.eligible now submission = true ↔
    submission.submissionId ∉ line.turning ∧ mayPass (line.facts submission.chunkId) submission ∧
      ∀ due, line.dueAt submission = some due → due ≤ now := by
  rw [FlowLine.eligible]
  cases mayPass (line.facts submission.chunkId) submission with
  | false => simp
  | true =>
    by_cases turning : submission.submissionId ∈ line.turning
    · simp [turning]
    · cases line.dueAt submission <;> simp [turning]

theorem state_turning (turning : submission.submissionId ∈ line.turning) :
    line.state now submission = (.landing, none) := if_pos turning

/-- A submission whose chunk stands elsewhere is shown `passedOver`. -/
theorem state_blocked (still : submission.submissionId ∉ line.turning)
    (blocked : mayPass (line.facts submission.chunkId) submission = false) :
    line.state now submission = (.passedOver, none) :=
  (if_neg still).trans (if_pos (by rw [blocked]; rfl))

theorem state_passing (still : submission.submissionId ∉ line.turning)
    (passes : mayPass (line.facts submission.chunkId) submission = true) :
    line.state now submission = match line.dueAt submission with
      | some due =>
        if now < due then
          if (line.latestPoll submission).any fun poll => decide (poll.kind = "awaiting-merge") then
            (.awaitingMerge, some due)
          else (.polling, some due)
        else (if line.isNext now submission then .next else .waiting, none)
      | none => (if line.isNext now submission then .next else .waiting, none) :=
  (if_neg still).trans (if_neg (by rw [passes]; decide))

/-- An eligible submission is shown `next` or `waiting`. -/
theorem state_of_eligible (eligible : line.eligible now submission = true) :
    line.state now submission =
      (if line.isNext now submission then .next else .waiting, none) := by
  obtain ⟨still, passes, due⟩ := eligible_iff.mp eligible
  rw [state_passing still passes]
  cases is : line.dueAt submission with
  | none => rfl
  | some at_ => exact if_neg (not_lt.mpr (due at_ is))

/-- A submission shown `waiting` is eligible. -/
theorem eligible_of_waiting (waiting : (line.state now submission).1 = .waiting) :
    line.eligible now submission = true := by
  have still : submission.submissionId ∉ line.turning := by
    intro turning
    rw [state_turning turning] at waiting
    cases waiting
  have passes : mayPass (line.facts submission.chunkId) submission = true := by
    by_contra blocked
    rw [state_blocked still (Bool.eq_false_iff.mpr blocked)] at waiting
    cases waiting
  refine eligible_iff.mpr ⟨still, passes, fun due is => ?_⟩
  by_contra later
  rw [state_passing still passes, is] at waiting
  simp only [if_pos (not_le.mp later)] at waiting
  split at waiting <;> cases waiting

/-- Only an eligible submission that is not next is shown `waiting`. -/
theorem waiting_iff : (line.state now submission).1 = .waiting ↔
    line.eligible now submission = true ∧ line.isNext now submission = false := by
  constructor
  · intro waiting
    have eligible := eligible_of_waiting waiting
    rw [state_of_eligible eligible] at waiting
    cases next : line.isNext now submission with
    | false => exact ⟨eligible, rfl⟩
    | true => simp [next] at waiting
  · rintro ⟨eligible, behind⟩
    simp [state_of_eligible eligible, behind]

/-! ## Positions -/

theorem mem_placesOf {place : FlowPlace} : place ∈ line.placesOf now submission ↔
    ∃ flow ∈ submission.flows, place =
      { submission, flow, state := (line.state now submission).1
        position := if (line.state now submission).1 = .landing ∨
            (line.state now submission).1 = .next then 1
          else 1 + line.eligibleAhead now submission flow
        dueAt := (line.state now submission).2 } := by
  simp only [FlowLine.placesOf, List.mem_map, eq_comm]

theorem eligibleAhead_pos {flow : FlowRow} (ahead : Ahead line now other submission flow.flowId) :
    0 < line.eligibleAhead now submission flow := by
  obtain ⟨mem, eligible, before, holds⟩ := ahead
  exact List.countP_pos_iff.mpr ⟨other, mem, by simp [eligible, before, holds]⟩

theorem position_one {place : FlowPlace} (mem : place ∈ line.placesOf now submission)
    (first : line.isNext now submission = true ∨ submission.submissionId ∈ line.turning) :
    place.position = 1 := by
  obtain ⟨flow, -, rfl⟩ := mem_placesOf.mp mem
  refine if_pos ?_
  rcases first with next | turning
  · simp [state_of_eligible (isNext_iff.mp next).1, next]
  · simp [state_turning turning]

/-- On some flow it holds, a waiting submission is behind another. -/
theorem waiting_behind (waiting : (line.state now submission).1 = .waiting) :
    ∃ place ∈ line.placesOf now submission, 1 < place.position := by
  obtain ⟨eligible, behind⟩ := waiting_iff.mp waiting
  have blocked : ∃ flow ∈ submission.flows, ∃ other,
      Ahead line now other submission flow.flowId := by
    by_contra none_
    have clear : line.isNext now submission = true :=
      isNext_iff.mpr ⟨eligible, fun flow held other ahead => none_ ⟨flow, held, other, ahead⟩⟩
    exact absurd clear (Bool.eq_false_iff.mp behind)
  obtain ⟨flow, held, other, ahead⟩ := blocked
  refine ⟨_, mem_placesOf.mpr ⟨flow, held, rfl⟩, ?_⟩
  have pos := eligibleAhead_pos ahead
  simp only [waiting, reduceCtorEq, or_self, if_false]
  omega

theorem position_le {place : FlowPlace} (mem : place ∈ line.placesOf now submission) :
    place.position ≤ 1 + line.eligibleAhead now submission place.flow := by
  obtain ⟨flow, -, rfl⟩ := mem_placesOf.mp mem
  dsimp only
  split <;> omega

/-- The earlier of two eligible submissions on a flow has the smaller position there. -/
theorem position_lt (mem : submission ∈ line.submissions)
    (eligible : line.eligible now submission = true) (eligible' : line.eligible now other = true)
    (before : submission.arrival < other.arrival) {place place' : FlowPlace}
    (shown : place ∈ line.placesOf now submission) (shown' : place' ∈ line.placesOf now other)
    (same : place.flow.flowId = place'.flow.flowId) : place.position < place'.position := by
  have le := position_le shown
  obtain ⟨flow, holds, rfl⟩ := mem_placesOf.mp shown
  obtain ⟨held, holds', rfl⟩ := mem_placesOf.mp shown'
  have waits := not_next_behind mem eligible before holds holds' same
  have fewer : line.eligibleAhead now submission flow < line.eligibleAhead now other held := by
    refine SortedRanks.countP_lt ?_ mem ?_ ?_
    · intro row ahead
      simp only [Bool.and_eq_true, decide_eq_true_eq] at ahead ⊢
      exact ⟨⟨ahead.1.1.trans before, same ▸ ahead.1.2⟩, ahead.2⟩
    · have own : submission.holds held.flowId = true :=
        List.any_eq_true.mpr ⟨flow, holds, decide_eq_true same⟩
      simp [before, own, eligible]
    · simp
  have shownAt : (line.state now other).1 = .waiting := waiting_iff.mpr ⟨eligible', waits⟩
  simp only [shownAt, reduceCtorEq, or_self, if_false]
  dsimp only at le
  omega

/-! ## The line -/

/-- What the line shows and what it admits agree. -/
structure Judged (line : FlowLine) (now : Instant) : Prop where
  next_iff : ∀ submission ∈ line.submissions, line.isNext now submission = true ↔
    line.eligible now submission = true ∧ ∀ flow ∈ submission.flows, ∀ other ∈ line.submissions,
      line.eligible now other = true → other.holds flow.flowId = true →
        ¬ other.arrival < submission.arrival
  apart : ∀ submission ∈ line.submissions, ∀ other ∈ line.submissions, submission ≠ other →
    line.isNext now submission = true → line.isNext now other = true →
      ∀ flow ∈ submission.flows, ∀ held ∈ other.flows, flow.flowId ≠ held.flowId
  served : (∃ submission ∈ line.submissions, line.eligible now submission = true) →
    ∃ submission ∈ line.submissions, line.isNext now submission = true
  first : ∀ submission ∈ line.submissions,
    line.isNext now submission = true ∨ submission.submissionId ∈ line.turning →
      ∀ place ∈ line.placesOf now submission, place.position = 1
  behind : ∀ submission ∈ line.submissions, (line.state now submission).1 = .waiting →
    ∃ place ∈ line.placesOf now submission, 1 < place.position
  ordered : ∀ submission ∈ line.submissions, ∀ other ∈ line.submissions,
    line.eligible now submission = true → line.eligible now other = true →
    submission.arrival < other.arrival → ∀ place ∈ line.placesOf now submission,
      ∀ place' ∈ line.placesOf now other, place.flow.flowId = place'.flow.flowId →
        place.position < place'.position

/-- Every line is judged so at every instant, whatever its facts, policies and open turns. -/
theorem line_judged (line : FlowLine) (now : Instant) : Judged line now where
  next_iff submission _ := by
    rw [isNext_iff]
    refine and_congr_right fun _ => forall₂_congr fun flow _ => forall_congr' fun other => ?_
    simp only [Ahead, not_and]
    exact ⟨fun clear mem eligible holds before => clear mem eligible before holds,
      fun clear mem eligible before holds => clear mem eligible holds before⟩
  apart _ mem _ mem' apart next next' _ holds _ holds' :=
    nexts_apart mem mem' apart next next' holds holds'
  served := fun ⟨_, mem, eligible⟩ => exists_next mem eligible
  first _ _ first _ shown := position_one shown first
  behind _ _ waiting := waiting_behind waiting
  ordered _ mem _ _ eligible eligible' before _ shown _ shown' same :=
    position_lt mem eligible eligible' before shown shown' same

/-- What one pass hands the store as passed over covers every submission ahead of one it takes a
turn for, so the store's own walk of the flows refuses none of them. -/
theorem ahead_passedOver (next : submission ∈ line.nexts now) (mem : other ∈ line.submissions)
    (before : other.arrival < submission.arrival) {flow : FlowRow}
    (holds : flow ∈ submission.flows) (holds' : other.holds flow.flowId = true) :
    other.submissionId ∈ line.passedOver now := by
  have clear := (isNext_iff.mp (List.mem_filter.mp next).2).2 flow holds other
  refine List.mem_map_of_mem (List.mem_filter.mpr ⟨mem, ?_⟩)
  rw [Bool.not_eq_true']
  exact Bool.eq_false_iff.mpr fun eligible => clear ⟨mem, eligible, before, holds'⟩

end Blizzard.FlowPlaces
