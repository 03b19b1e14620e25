import Mathlib.Data.List.Induction
import Blizzard.HubTables
import Blizzard.SourceText

/-! # Findings and their facts

A finding's liveness is the newest of its append-only facts, by the instant each carries and then
by insertion; the verbs that write a fact are legal from the states the transition table names. -/
namespace Blizzard.FindingLiveness
open HubTables SourceText

inductive FactKind
  | add | observed | gone | delivered | resolved | goneConfirmed | wontFix | notAFinding
  | superseded | reopened
  deriving DecidableEq, Repr

inductive FindingState
  | live | gone | delivered | resolved | goneConfirmed | wontFix | notAFinding | superseded
  deriving DecidableEq, Repr

/-- The human-driven verbs that exit a finding for good. -/
def exitKinds : List FactKind := [.resolved, .goneConfirmed, .wontFix, .notAFinding, .superseded]

/-- The kinds whose being newest makes a finding live. -/
def liveKinds : List FactKind := [.add, .observed, .reopened]

/-- The state a newest fact of each kind leaves its finding in. -/
def FactKind.state : FactKind → FindingState
  | .add | .observed | .reopened => .live
  | .gone => .gone
  | .delivered => .delivered
  | .resolved => .resolved
  | .goneConfirmed => .goneConfirmed
  | .wontFix => .wontFix
  | .notAFinding => .notAFinding
  | .superseded => .superseded

/-- The text a kind is stored as. -/
def FactKind.text : FactKind → String
  | .add => "add"
  | .observed => "observed"
  | .gone => "gone"
  | .delivered => "delivered"
  | .resolved => "resolved"
  | .goneConfirmed => "gone-confirmed"
  | .wontFix => "wont-fix"
  | .notAFinding => "not-a-finding"
  | .superseded => "superseded"
  | .reopened => "reopened"

def FindingState.text : FindingState → String
  | .live => "live"
  | .gone => "gone"
  | .delivered => "delivered"
  | .resolved => "resolved"
  | .goneConfirmed => "gone-confirmed"
  | .wontFix => "wont-fix"
  | .notAFinding => "not-a-finding"
  | .superseded => "superseded"

/-- The unexited states. -/
def unexitedStates : List FindingState := [.live, .gone, .delivered]

/-- Which fact kind is legal from which state; `add` mints and has no prior state. -/
def allows (state : FindingState) : FactKind → Bool
  | .add => false
  | .observed | .gone => decide (state ∈ unexitedStates)
  | .delivered => decide (state = .live)
  | .reopened => decide (state ≠ .live)
  | .resolved | .goneConfirmed | .wontFix | .notAFinding | .superseded =>
      decide (state ∈ unexitedStates)

/-- One row of `finding_facts`; its id is its position. -/
structure FactRow where
  findingId : String
  kind : FactKind
  recordedAt : Instant
  note : Option String := none
  actor : Option String := none
  proposalId : Option String := none
  supersededBy : Option String := none
  deriving DecidableEq, Repr

/-- The newer of two facts, the second inserted later: a tie keeps the later-inserted one. -/
def newer (newest fact : FactRow) : FactRow :=
  if newest.recordedAt ≤ fact.recordedAt then fact else newest

/-- The newest of some facts given oldest first. -/
def newestFact : List FactRow → Option FactRow
  | [] => none
  | first :: rest => some (rest.foldl newer first)

structure FindingFactSummary where
  newest : Option FactRow
  firstObservedAt : Option Instant
  lastSeenAt : Option Instant
  observedCount : ℕ
  deriving DecidableEq, Repr

def summarizeFacts (facts : List FactRow) : FindingFactSummary :=
  let seen := (facts.filter fun f => f.kind = .add || f.kind = .observed).map (·.recordedAt)
  { newest := newestFact facts
    firstObservedAt := seen.min?
    lastSeenAt := seen.max?
    observedCount := facts.countP fun f => f.kind = .observed }

structure Liveness where
  state : FindingState
  note : Option String
  firstObservedAt : Option Instant
  lastSeenAt : Option Instant
  observedCount : ℕ
  actor : Option String
  deriving DecidableEq, Repr

def Liveness.live (liveness : Liveness) : Bool := decide (liveness.state = .live)

/-- The newest-fact-wins read over a summary; a finding with no facts reads live. -/
def livenessOf (summary : FindingFactSummary) : Liveness :=
  match summary.newest with
  | none => ⟨.live, none, none, none, 0, none⟩
  | some newest =>
    { state := newest.kind.state
      note := newest.note
      firstObservedAt := summary.firstObservedAt
      lastSeenAt := summary.lastSeenAt
      observedCount := summary.observedCount
      actor := newest.actor }

/-- The facts of one finding, oldest first. -/
def factsOf (facts : List FactRow) (findingId : String) : List FactRow :=
  facts.filter fun f => f.findingId = findingId

/-- A finding's liveness in the store. -/
def derived (facts : List FactRow) (findingId : String) : Liveness :=
  livenessOf (summarizeFacts (factsOf facts findingId))

/-- What a verb reads of a loaded finding. -/
structure Finding where
  findingId : String
  state : FindingState
  actor : Option String := none
  deriving DecidableEq, Repr

def Finding.live (finding : Finding) : Bool := decide (finding.state = .live)

def Finding.exited (finding : Finding) : Bool := decide (finding.state ∉ unexitedStates)

/-- A finding as the store derives it now. -/
def load (facts : List FactRow) (findingId : String) : Finding :=
  { findingId
    state := (derived facts findingId).state
    actor := (derived facts findingId).actor }

/-! ## The facts a verb writes, or its refusal -/

inductive FindingRefusal
  | duplicate (findingId : String)
  | supersedesItself (findingId : String)
  | absorberNotLive (findingId : String)
  | notReopenable (findingId : String)
  | alreadyExited (findingId : String) (kind : FactKind)
  | noteRequired (kind : FactKind)
  deriving DecidableEq, Repr

/-- Refuse a fact a finding's state disallows. -/
def Finding.check (finding : Finding) (kind : FactKind) : Except FindingRefusal Unit :=
  if allows finding.state kind then .ok ()
  else if kind = .reopened then .error (.notReopenable finding.findingId)
  else .error (.alreadyExited finding.findingId kind)

def requireNote (kind : FactKind) (note : String) : Except FindingRefusal String :=
  if stripped note = "" then .error (.noteRequired kind) else .ok (stripped note)

/-- The first finding a bulk verb names a second time. -/
def duplicateOf : List String → List String → Option String
  | _, [] => none
  | seen, id :: ids => if id ∈ seen then some id else duplicateOf (id :: seen) ids

def refuseDuplicates (findings : List Finding) : Except FindingRefusal Unit :=
  match duplicateOf [] (findings.map (·.findingId)) with
  | some id => .error (.duplicate id)
  | none => .ok ()

/-- What one person's verb says of each finding it names. -/
structure VerbText where
  note : String
  actor : String
  at_ : Instant
  proposalId : Option String := none
  deriving DecidableEq, Repr

/-- One person's bulk exit or `reopened`. -/
def exitFacts (kind : FactKind) (text : VerbText) (findings : List Finding) :
    Except FindingRefusal (List FactRow) := do
  refuseDuplicates findings
  findings.forM fun finding => finding.check kind
  let note ← requireNote kind text.note
  return findings.map fun finding =>
    { findingId := finding.findingId, kind, recordedAt := text.at_, note := some note,
      actor := some text.actor, proposalId := text.proposalId }

/-- One person's bulk `superseded` into `absorber`. -/
def supersedeFacts (absorber : Finding) (text : VerbText) (findings : List Finding) :
    Except FindingRefusal (List FactRow) := do
  refuseDuplicates findings
  findings.forM fun finding =>
    if absorber.findingId = finding.findingId then
      .error (.supersedesItself finding.findingId)
    else .ok ()
  if !absorber.live then .error (.absorberNotLive absorber.findingId)
  else
    findings.forM fun finding => finding.check .superseded
    let note ← requireNote .superseded text.note
    return findings.map fun finding =>
      { findingId := finding.findingId, kind := .superseded, recordedAt := text.at_,
        note := some note, actor := some text.actor, supersededBy := some absorber.findingId }

/-- A landed proposal's `delivered` facts, its still-live findings only. -/
def deliverFacts (text : VerbText) (findings : List Finding) :
    Except FindingRefusal (List FactRow) := do
  let note ← requireNote .delivered text.note
  return (findings.filter fun finding => allows finding.state .delivered).map fun finding =>
    { findingId := finding.findingId, kind := .delivered, recordedAt := text.at_,
      note := some note, actor := some text.actor, proposalId := text.proposalId }

/-- The fact a run's `gone` op lands as: a `delivered` finding settles to `resolved`. -/
def Finding.runGone (finding : Finding) : FactKind × Option String :=
  if finding.state = .delivered then (.resolved, finding.actor) else (.gone, none)

/-! ## The newest fact -/

@[simp] theorem newestFact_append (facts : List FactRow) (fact : FactRow) :
    newestFact (facts ++ [fact]) = some ((newestFact facts).elim fact fun newest =>
      newer newest fact) := by
  cases facts with
  | nil => rfl
  | cons first rest => simp [newestFact]

/-- The newest fact is one of the facts, and none carries a later instant. -/
theorem newestFact_unbeaten {facts : List FactRow} {newest : FactRow}
    (h : newestFact facts = some newest) :
    newest ∈ facts ∧ ∀ fact ∈ facts, fact.recordedAt ≤ newest.recordedAt := by
  induction facts using List.reverseRecOn generalizing newest with
  | nil => cases h
  | append_singleton facts fact ih =>
    rw [newestFact_append] at h
    have hnewest := Option.some.inj h
    cases hold : newestFact facts with
    | none =>
      have hempty : facts = [] := by
        cases facts with
        | nil => rfl
        | cons first rest => cases hold
      subst hempty
      rw [hold] at hnewest
      subst hnewest
      simp
    | some old =>
      obtain ⟨hmem, hle⟩ := ih hold
      rw [hold] at hnewest
      simp only [Option.elim_some, newer] at hnewest
      split at hnewest
      · next hlater =>
        subst hnewest
        refine ⟨by simp, fun other hother => ?_⟩
        rcases List.mem_append.mp hother with hother | hother
        · exact (hle other hother).trans hlater
        · exact le_of_eq (congrArg _ (List.mem_singleton.mp hother))
      · next hearlier =>
        subst hnewest
        refine ⟨by simp [hmem], fun other hother => ?_⟩
        rcases List.mem_append.mp hother with hother | hother
        · exact hle other hother
        · rw [List.mem_singleton.mp hother]
          exact (not_le.mp hearlier).le

/-- An appended fact is the newest exactly when no earlier fact carries a later instant. -/
theorem newestFact_append_eq {facts : List FactRow} {fact : FactRow}
    (h : ∀ other ∈ facts, other.recordedAt ≤ fact.recordedAt) :
    newestFact (facts ++ [fact]) = some fact := by
  rw [newestFact_append]
  cases hold : newestFact facts with
  | none => rfl
  | some old =>
    have hle := h old (newestFact_unbeaten hold).1
    simp [newer, hle]

/-- An appended fact that carries an earlier instant than some fact leaves the newest one. -/
theorem newestFact_append_old {facts : List FactRow} {fact other : FactRow} (hmem : other ∈ facts)
    (h : fact.recordedAt < other.recordedAt) :
    newestFact (facts ++ [fact]) = newestFact facts := by
  rw [newestFact_append]
  cases hold : newestFact facts with
  | none =>
    cases facts with
    | nil => cases hmem
    | cons first rest => cases hold
  | some old =>
    have hle := (newestFact_unbeaten hold).2 other hmem
    have hlt : ¬ old.recordedAt ≤ fact.recordedAt := not_le.mpr (h.trans_le hle)
    simp [newer, hlt]

theorem derived_state (facts : List FactRow) (findingId : String) :
    (derived facts findingId).state
      = (newestFact (factsOf facts findingId)).elim .live fun newest => newest.kind.state := by
  unfold derived livenessOf summarizeFacts
  cases newestFact (factsOf facts findingId) <;> rfl

theorem exit_state {kind : FactKind} (h : kind ∈ exitKinds) : kind.state ∉ unexitedStates := by
  cases kind <;> simp_all [exitKinds, FactKind.state, unexitedStates]

/-- From an exited state only `reopened` is legal. -/
theorem allows_exited {state : FindingState} {kind : FactKind} (exited : state ∉ unexitedStates)
    (h : allows state kind = true) : kind = .reopened := by
  cases kind <;> simp_all [allows, unexitedStates]

end Blizzard.FindingLiveness
