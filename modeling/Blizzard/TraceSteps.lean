import Blizzard.HubTables
import Mathlib.Data.List.Dedup
import Mathlib.Data.List.Sort
import Mathlib.Data.Prod.Lex
import Mathlib.Data.String.Basic
import Mathlib.Order.Lattice

/-! # Steps of a chunk and their closes

Which steps a chunk's facts hold, how and when each ended, when the chunk itself finished, and the
place of a close in the export's total order. Where a step stood, who resolved a gate and what came
before a step are read by no window and left out. -/
namespace Blizzard.TraceSteps
open HubTables

/-! ## Facts -/

structure TracedLease where
  epoch : ℕ
  mintedAt : Instant
  deriving DecidableEq, Repr

/-- An `epoch_owners` row; no runner means the hub. -/
structure TracedEpochOwner where
  epoch : ℕ
  runnerId : Option RunnerId
  recordedAt : Instant
  deriving DecidableEq, Repr

structure TracedTransition where
  epoch : ℕ
  recordedAt : Instant
  toNodeId : String
  decisionId : Option String := none
  deriving DecidableEq, Repr

structure TracedMigration where
  epoch : ℕ
  recordedAt : Instant
  source : Option MigrationSource := none
  decisionId : Option String := none
  deriving DecidableEq, Repr

/-- A restart or an escalation. -/
structure TracedTurn where
  epoch : ℕ
  recordedAt : Instant
  decisionId : Option String := none
  deriving DecidableEq, Repr

/-- A `decisions` row; a runner gate names the runner that imposed it. -/
structure TracedDecision where
  decisionId : String
  named : decisionId ≠ ""
  epoch : ℕ
  submittedAt : Instant
  imposedByRunnerId : Option RunnerId := none
  deriving DecidableEq

/-- One row of a chunk's facts; `minted` is the chunk's own row. -/
inductive Fact
  | minted (at_ : Instant)
  | lease (row : TracedLease)
  | owner (row : TracedEpochOwner)
  | transition (row : TracedTransition)
  | migration (row : TracedMigration)
  | restart (row : TracedTurn)
  | escalation (row : TracedTurn)
  | decision (row : TracedDecision)
  | requeue (at_ : Instant)
  | released (at_ : Instant)
  | stopped (at_ : Instant)
  | completed (at_ : Instant)
  deriving DecidableEq

def Fact.at_ : Fact → Instant
  | .minted at_ | .requeue at_ | .released at_ | .stopped at_ | .completed at_ => at_
  | .lease row => row.mintedAt
  | .owner row => row.recordedAt
  | .transition row => row.recordedAt
  | .migration row => row.recordedAt
  | .restart row | .escalation row => row.recordedAt
  | .decision row => row.submittedAt

/-- Everything step identification reads about one chunk. -/
structure StepFacts where
  chunkId : ChunkId
  rows : List Fact

variable (facts : StepFacts)

def StepFacts.mintedAt : Option Instant :=
  (facts.rows.filterMap fun | .minted at_ => some at_ | _ => none).head?

def StepFacts.leaseFacts : List TracedLease :=
  facts.rows.filterMap fun | .lease row => some row | _ => none

def StepFacts.epochOwners : List TracedEpochOwner :=
  facts.rows.filterMap fun | .owner row => some row | _ => none

def StepFacts.transitions : List TracedTransition :=
  facts.rows.filterMap fun | .transition row => some row | _ => none

def StepFacts.migrations : List TracedMigration :=
  facts.rows.filterMap fun | .migration row => some row | _ => none

def StepFacts.restarts : List TracedTurn :=
  facts.rows.filterMap fun | .restart row => some row | _ => none

def StepFacts.escalations : List TracedTurn :=
  facts.rows.filterMap fun | .escalation row => some row | _ => none

def StepFacts.decisions : List TracedDecision :=
  facts.rows.filterMap fun | .decision row => some row | _ => none

def StepFacts.requeues : List Instant :=
  facts.rows.filterMap fun | .requeue at_ => some at_ | _ => none

def StepFacts.routeReleased : List Instant :=
  facts.rows.filterMap fun | .released at_ => some at_ | _ => none

def StepFacts.chunkStopped : List Instant :=
  facts.rows.filterMap fun | .stopped at_ => some at_ | _ => none

def StepFacts.chunkCompleted : List Instant :=
  facts.rows.filterMap fun | .completed at_ => some at_ | _ => none

/-! ## Closes -/

inductive StepOutcome
  | transitioned | gated | migrated | escalated | released | stopped | completed | superseded
  | decided | restarted
  deriving DecidableEq, Repr

/-- How and when a step may have ended; `order` breaks a tie of instants. -/
structure Candidate where
  at_ : Instant
  order : ℕ
  outcome : StepOutcome
  deriving DecidableEq, Repr

structure StepClose where
  outcome : StepOutcome
  at_ : Instant
  deriving DecidableEq, Repr

/-- The first candidate of least rank. -/
def leastCandidate : List Candidate → Option Candidate
  | [] => none
  | c :: rest =>
    match leastCandidate rest with
    | none => some c
    | some best =>
      if best.at_ < c.at_ ∨ best.at_ = c.at_ ∧ best.order < c.order then some best else some c

def earliest (candidates : List Candidate) : Option StepClose :=
  (leastCandidate candidates).map fun best => ⟨best.outcome, best.at_⟩

/-- A stop, a hand-completion or the first higher epoch, after a step's start. -/
def terminalCandidates (start : Instant) (epoch : ℕ) : List Candidate :=
  ((facts.chunkStopped.filter (start < ·)).map fun at_ => ⟨at_, 5, .stopped⟩) ++
    ((facts.chunkCompleted.filter (start < ·)).map fun at_ => ⟨at_, 6, .completed⟩) ++
    let higher := facts.epochOwners.filter fun o => epoch < o.epoch ∧ start ≤ o.recordedAt
    ((higher.map (·.recordedAt)).min?.toList.map fun at_ => ⟨at_, 7, .superseded⟩)

/-- The instants of the facts an epoch's attempt leaves, a release before any of which is none. -/
def attemptInstants (epoch : ℕ) : List Instant :=
  (facts.transitions.filter (·.epoch = epoch)).map (·.recordedAt) ++
    (facts.decisions.filter (·.epoch = epoch)).map (·.submittedAt) ++
    (facts.migrations.filter (·.epoch = epoch)).map (·.recordedAt) ++
    (facts.escalations.filter (·.epoch = epoch)).map (·.recordedAt) ++
    (facts.restarts.filter (·.epoch = epoch)).map (·.recordedAt)

def runnerCandidates (epoch : ℕ) (start : Instant) : List Candidate :=
  let here := attemptInstants facts epoch
  ((facts.transitions.filter fun t => t.epoch = epoch ∧ t.decisionId = none).map fun t =>
      ⟨t.recordedAt, 0, .transitioned⟩) ++
    ((facts.decisions.filter fun d => d.epoch = epoch ∧ d.imposedByRunnerId.isSome).map fun d =>
      ⟨d.submittedAt, 1, .gated⟩) ++
    ((facts.migrations.filter fun m => m.epoch = epoch ∧ m.source ≠ some .restart).map fun m =>
      ⟨m.recordedAt, 2, .migrated⟩) ++
    ((facts.escalations.filter (·.epoch = epoch)).map fun e => ⟨e.recordedAt, 3, .escalated⟩) ++
    ((facts.routeReleased.filter fun at_ => start < at_ ∧ ∀ other ∈ here, other ≤ at_).map
      fun at_ => ⟨at_, 4, .released⟩) ++
    terminalCandidates facts start epoch

/-- A runner or hub step closes at the earliest closing fact. -/
def runnerClose (epoch : ℕ) (start : Instant) : Option StepClose :=
  earliest (runnerCandidates facts epoch start)

def gateCandidates (decision : TracedDecision) : List Candidate :=
  ((facts.transitions.filter (·.decisionId = some decision.decisionId)).map fun t =>
      ⟨t.recordedAt, 0, .decided⟩) ++
    ((facts.migrations.filter (·.decisionId = some decision.decisionId)).map fun m =>
      ⟨m.recordedAt, 1, .migrated⟩) ++
    ((facts.escalations.filter (·.decisionId = some decision.decisionId)).map fun e =>
      ⟨e.recordedAt, 2, .escalated⟩) ++
    ((facts.restarts.filter (·.decisionId = some decision.decisionId)).map fun r =>
      ⟨r.recordedAt, 3, .restarted⟩) ++
    terminalCandidates facts decision.submittedAt decision.epoch

/-- A gate closes at the first fact carrying its decision. -/
def gateClose (decision : TracedDecision) : Option StepClose :=
  earliest (gateCandidates facts decision)

/-- The instants of every movement that arrives on its own. -/
def movementArrivals : List Instant :=
  facts.transitions.map (·.recordedAt) ++
    (facts.migrations.filter (·.source ≠ some .restart)).map (·.recordedAt) ++
    facts.restarts.map (·.recordedAt)

/-- The latest fact that placed the chunk on the hub node before the step's exit. -/
def hubStart (mintedAt : Instant) : Instant :=
  match ((movementArrivals facts).filter (· < mintedAt)).max? with
  | none => mintedAt
  | some start =>
    (facts.requeues.filter fun at_ => start < at_ ∧ at_ ≤ mintedAt).foldl max start

/-! ## Steps -/

inductive StepKind | runner | hub | gate
  deriving DecidableEq, Repr

/-- A step's identity: an attempt at an epoch, or one decision. -/
structure StepKey where
  chunkId : ChunkId
  epoch : ℕ
  decisionId : Option String := none
  deriving DecidableEq, Repr

structure NodeStep where
  kind : StepKind
  key : StepKey
  epoch : ℕ
  runnerId : Option RunnerId
  start : Instant
  close : Option StepClose
  decisionId : Option String := none
  deriving DecidableEq, Repr

/-- The owner of an epoch: its earliest row, the last of several at one instant. -/
def ownerOf (epoch : ℕ) : Option TracedEpochOwner :=
  (facts.epochOwners.filter (·.epoch = epoch)).foldl
    (fun best o => match best with
      | some held => if o.recordedAt ≤ held.recordedAt then some o else best
      | none => some o) none

def attemptSteps : List NodeStep :=
  let epochs := (facts.leaseFacts.map (·.epoch)).dedup.insertionSort (· ≤ ·)
  epochs.filterMap fun epoch => do
    let owner ← ownerOf facts epoch
    let minted ← ((facts.leaseFacts.filter (·.epoch = epoch)).map (·.mintedAt)).min?
    let hub := owner.runnerId.isNone
    let start := if hub then hubStart facts minted else minted
    some { kind := if hub then .hub else .runner
           key := { chunkId := facts.chunkId, epoch }
           epoch, runnerId := owner.runnerId, start
           close := runnerClose facts epoch start }

def gateSteps : List NodeStep :=
  facts.decisions.map fun d =>
    { kind := .gate
      key := { chunkId := facts.chunkId, epoch := d.epoch, decisionId := some d.decisionId }
      epoch := d.epoch, runnerId := d.imposedByRunnerId, start := d.submittedAt
      close := gateClose facts d, decisionId := some d.decisionId }

/-- By start, then epoch, then attempt before gate. -/
def NodeStep.rank (step : NodeStep) : Instant ×ₗ ℕ ×ₗ Bool :=
  toLex (step.start, toLex (step.epoch, decide (step.kind = .gate)))

/-- Every runner, hub and gate step the facts hold. -/
def identifySteps : List NodeStep :=
  (attemptSteps facts ++ gateSteps facts).insertionSort fun a b => a.rank ≤ b.rank

/-! ## The chunk's own finish -/

inductive ChunkOutcome | done | stopped
  deriving DecidableEq, Repr

structure ChunkEnd where
  outcome : ChunkOutcome
  at_ : Instant
  deriving DecidableEq, Repr

/-- The first terminal fact: a terminal transition before a completion before a stop. -/
def chunkEnd : Option ChunkEnd :=
  let terminal := (facts.transitions.filter (·.toNodeId = reservedTerminal)).map (·.recordedAt)
  let found := terminal ++ facts.chunkCompleted
  match found.min?, facts.chunkStopped.min? with
  | none, none => none
  | some done, none => some ⟨.done, done⟩
  | none, some stopped => some ⟨.stopped, stopped⟩
  | some done, some stopped =>
    if done ≤ stopped then some ⟨.done, done⟩ else some ⟨.stopped, stopped⟩

/-- When a chunk that stopped was hand-completed. -/
def completionInstant : Option Instant :=
  match chunkEnd facts with
  | some ⟨.stopped, at_⟩ => (facts.chunkCompleted.filter (at_ < ·)).min?
  | _ => none

/-! ## The export's order -/

/-- A position in the total order of closed steps and finished chunks. -/
structure CursorKey where
  at_ : Instant
  chunkId : ChunkId := ""
  epoch : ℤ := 0
  decisionId : String := ""
  deriving DecidableEq, Repr

def CursorKey.rank (key : CursorKey) : Instant ×ₗ ChunkId ×ₗ ℤ ×ₗ String :=
  toLex (key.at_, toLex (key.chunkId, toLex (key.epoch, key.decisionId)))

theorem CursorKey.rank_injective : Function.Injective CursorKey.rank := by
  rintro ⟨at_, chunkId, epoch, decisionId⟩ ⟨at_', chunkId', epoch', decisionId'⟩ same
  simp only [rank, EmbeddingLike.apply_eq_iff_eq, Prod.mk.injEq] at same
  obtain ⟨rfl, rfl, rfl, rfl⟩ := same
  rfl

instance : LinearOrder CursorKey := LinearOrder.lift' CursorKey.rank CursorKey.rank_injective

/-- The key of a step closed at an instant; a step without a decision has an empty one. -/
def CursorKey.of (step : NodeStep) (close : StepClose) : CursorKey :=
  { at_ := close.at_, chunkId := step.key.chunkId, epoch := step.epoch
    decisionId := step.decisionId.getD "" }

def CursorKey.chunkFinished (at_ : Instant) (chunkId : ChunkId) : CursorKey :=
  { at_, chunkId, epoch := -1 }

def CursorKey.chunkCompleted (at_ : Instant) (chunkId : ChunkId) : CursorKey :=
  { at_, chunkId, epoch := -1, decisionId := "completed" }

/-- Before every item at an instant. -/
def CursorKey.opening (at_ : Instant) : CursorKey := { at_ }

/-- After every item at an instant. -/
def CursorKey.past (at_ : Instant) : CursorKey := { at_ := at_ + microsecond }

theorem CursorKey.lt_of_at {a b : CursorKey} (earlier : a.at_ < b.at_) : a < b :=
  Prod.Lex.toLex_lt_toLex.mpr (.inl earlier)

theorem CursorKey.at_le {a b : CursorKey} (before : a ≤ b) : a.at_ ≤ b.at_ := by
  by_contra later
  exact absurd (CursorKey.lt_of_at (not_le.mp later)) (not_lt.mpr before)

theorem string_pos {text : String} (nonempty : text ≠ "") : "" < text := by
  rw [String.lt_iff_toList_lt]
  rcases chars : text.toList with _ | ⟨c, rest⟩
  · exact absurd (String.toList_eq_nil_iff.mp chars) nonempty
  · exact List.nil_lt_cons c rest

/-- A named chunk's item comes after the opening of every instant up to its own. -/
theorem CursorKey.opening_lt {key : CursorKey} {at_ : Instant} (named : key.chunkId ≠ "")
    (reached : at_ ≤ key.at_) : CursorKey.opening at_ < key := by
  rcases lt_or_eq_of_le reached with before | same
  · exact CursorKey.lt_of_at before
  · refine Prod.Lex.toLex_lt_toLex.mpr (.inr ⟨same, ?_⟩)
    exact Prod.Lex.toLex_lt_toLex.mpr (.inl (string_pos named))

end Blizzard.TraceSteps
