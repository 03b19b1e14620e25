import Blizzard.FindingLiveness

/-! # Guarded writes of finding facts

A person's verb loads its findings, reads the clock once, and writes its facts under the findings'
row locks where their derived states are still those it loaded; it reloads and tries again where
they are not. A garden run's delivery validates, reads the clock and writes under the same guard.
Every step below is one transaction or one read of the clock. -/
namespace Blizzard.FindingWrites
open HubTables SourceText FindingLiveness

/-- How many times a finding write asks again after losing its state guard. -/
def guardAttempts : ℕ := 3

/-- A person's verbs, and the closure a landed proposal triggers. -/
inductive Verb
  | resolve | confirmGone | wontFix | notAFinding | supersede | reopen | deliver
  deriving DecidableEq, Repr

/-- The facts a verb writes to `batch`; `supersede` reads its absorber among `companions`. -/
def Verb.facts (verb : Verb) (text : VerbText) (batch companions : List Finding) :
    Except FindingRefusal (List FactRow) :=
  match verb with
  | .resolve => exitFacts .resolved text batch
  | .confirmGone => exitFacts .goneConfirmed text batch
  | .wontFix => exitFacts .wontFix text batch
  | .notAFinding => exitFacts .notAFinding text batch
  | .reopen => exitFacts .reopened text batch
  | .deliver => deliverFacts text batch
  | .supersede =>
    match companions with
    | absorber :: _ => supersedeFacts absorber text batch
    | [] => .ok []

/-- A verb in flight: `text` carries the instant once the clock was read. -/
structure VerbCall where
  verb : Verb
  note : String
  actor : String
  proposalId : Option String := none
  batch : List Finding
  companions : List Finding := []
  at_ : Option Instant := none
  losses : ℕ := 0
  awaitsReload : Bool := false
  deriving DecidableEq, Repr

/-- What one garden run says of findings. -/
inductive RunOp
  | add (findingId : String)
  | observed (findingId : String)
  | gone (findingId note : String)
  deriving DecidableEq, Repr

/-- The finding an op names, none for the one it mints. -/
def RunOp.cites : RunOp → Option String
  | .add _ => none
  | .observed id | .gone id _ => some id

structure Delta where
  artifactId : String
  ops : List RunOp
  deriving DecidableEq, Repr

/-- A delivery in flight: the findings its ops cite, none of which had exited when validated. -/
structure RunCall where
  deltas : List Delta
  citable : List Finding
  at_ : Option Instant := none
  unexited : ∀ finding ∈ citable, finding.state ∈ unexitedStates
  covered : ∀ delta ∈ deltas, ∀ id ∈ delta.ops.filterMap RunOp.cites,
    ∃ finding ∈ citable, finding.findingId = id

structure Garden where
  facts : List FactRow
  now : Instant
  materialized : List String := []
  verbs : String → Option VerbCall := fun _ => none
  runs : String → Option RunCall := fun _ => none

/-- A call's entry replaced. -/
def put {α : Type} (calls : String → Option α) (call : String) (entry : Option α) :
    String → Option α := fun c => if c = call then entry else calls c

/-- The expected states that are no longer the derived ones. -/
def movedFindings (facts : List FactRow) (expect : List Finding) : List Finding :=
  expect.filter fun finding => (derived facts finding.findingId).state ≠ finding.state

/-! ## A person's verb -/

/-- The facts a verb in flight asks to write. -/
def VerbCall.entries (call : VerbCall) : Except FindingRefusal (List FactRow) :=
  match call.at_ with
  | none => .ok []
  | some at_ =>
    call.verb.facts ⟨call.note, call.actor, at_, call.proposalId⟩ call.batch call.companions

/-- The rows one guarded attempt of a verb writes. -/
def VerbCall.written (facts : List FactRow) (call : VerbCall) : List FactRow :=
  match call.entries with
  | .error _ => []
  | .ok entries => if movedFindings facts (call.batch ++ call.companions) = [] then entries else []

/-- What an attempt leaves of its call: it waits to reload where it lost the guard. -/
def VerbCall.afterAttempt (facts : List FactRow) (call : VerbCall) : Option VerbCall :=
  match call.entries with
  | .error _ => none
  | .ok entries =>
    if entries = [] ∨ movedFindings facts (call.batch ++ call.companions) = [] then none
    else some { call with awaitsReload := true, losses := call.losses + 1 }

/-- The call after it reloaded what it guards; `none` once its attempts are spent. -/
def VerbCall.reloaded (facts : List FactRow) (call : VerbCall) : Option VerbCall :=
  if guardAttempts ≤ call.losses then none
  else some { call with
    awaitsReload := false
    batch := call.batch.map fun finding => load facts finding.findingId
    companions := call.companions.map fun finding => load facts finding.findingId }

/-! ## A garden run's delivery -/

/-- The findings the ops of a delivery cite, as the store derives them now. -/
def cited (facts : List FactRow) (deltas : List Delta) : List Finding :=
  (deltas.flatMap fun delta => delta.ops.filterMap RunOp.cites).map (load facts)

/-- Whether every op passes validation: it cites a known finding that has not exited, no finding
twice in one delta, and a `gone` says why. -/
def accepts (facts : List FactRow) (deltas : List Delta) : Bool :=
  (cited facts deltas).all (fun finding => !finding.exited) &&
    deltas.all fun delta =>
      decide (delta.ops.filterMap RunOp.cites).Nodup &&
      delta.ops.all fun op => match op with
        | .add _ => true
        | .observed id => !(factsOf facts id).isEmpty
        | .gone id note => !(factsOf facts id).isEmpty && !blank note

/-- A delivery as it was validated. -/
def validated (facts : List FactRow) (deltas : List Delta) (accepted : accepts facts deltas) :
    RunCall where
  deltas
  citable := cited facts deltas
  unexited := by
    intro finding h
    have unexited := List.all_eq_true.mp (Bool.and_eq_true_iff.mp accepted).1 finding h
    simpa [Finding.exited] using unexited
  covered := by
    intro delta hdelta id hid
    exact ⟨load facts id, List.mem_map_of_mem (List.mem_flatMap.mpr ⟨delta, hdelta, hid⟩), rfl⟩

/-- The fact of one op of a delivery. -/
def RunCall.fact (call : RunCall) (at_ : Instant) : RunOp → FactRow
  | .add id => { findingId := id, kind := .add, recordedAt := at_ }
  | .observed id => { findingId := id, kind := .observed, recordedAt := at_ }
  | .gone id note =>
    let settled := ((call.citable.find? fun finding => finding.findingId = id).map
      Finding.runGone).getD (.gone, none)
    { findingId := id, kind := settled.1, recordedAt := at_, note := some note,
      actor := settled.2 }

/-- The deltas of a delivery whose artifact is not materialized yet. -/
def RunCall.surviving (materialized : List String) (call : RunCall) : List Delta :=
  call.deltas.filter fun delta => delta.artifactId ∉ materialized

def RunCall.facts (materialized : List String) (call : RunCall) (at_ : Instant) : List FactRow :=
  (call.surviving materialized).flatMap fun delta => delta.ops.map (call.fact at_)

/-- The validated states a delivery re-checks: of the findings it will write a fact to. -/
def RunCall.expect (materialized : List String) (call : RunCall) : List Finding :=
  call.citable.filter fun finding =>
    finding.findingId ∈ (call.surviving materialized).flatMap fun delta =>
      delta.ops.filterMap RunOp.cites

/-- The findings a delivery mints; an id already stored fails the insert. -/
def RunCall.minted (materialized : List String) (call : RunCall) : List String :=
  (call.surviving materialized).flatMap fun delta => delta.ops.filterMap fun op => match op with
    | .add id => some id
    | _ => none

/-- Whether a delivery's writes go through: its guard holds and its minted ids are new. -/
def RunCall.admitted (facts : List FactRow) (materialized : List String) (call : RunCall) : Bool :=
  decide (movedFindings facts (call.expect materialized) = []) &&
    (call.minted materialized).all fun id => (factsOf facts id).isEmpty

def RunCall.written (facts : List FactRow) (materialized : List String) (call : RunCall) :
    List FactRow :=
  match call.at_ with
  | none => []
  | some at_ => if call.admitted facts materialized then call.facts materialized at_ else []

/-! ## Interleavings -/

inductive Event
  | tick (now : Instant)
  | mint (findingId : String) (at_ : Instant)
  | loadVerb (call : String) (verb : Verb) (note actor : String) (proposalId : Option String)
      (findingIds : List String) (absorber : Option String)
  | clockVerb (call : String)
  | attempt (call : String)
  | reload (call : String)
  | validateRun (call : String) (deltas : List Delta)
  | clockRun (call : String)
  | commitRun (call : String) (refused : Bool)

/-- The rows an event writes; a delivery refused by its chunk's fence or replayed writes none. -/
def writtenBy (s : Garden) : Event → List FactRow
  | .mint id at_ =>
    if (factsOf s.facts id).isEmpty then [{ findingId := id, kind := .add, recordedAt := at_ }]
    else []
  | .attempt call => ((s.verbs call).map (VerbCall.written s.facts)).getD []
  | .commitRun call refused =>
    if refused then []
    else ((s.runs call).map (RunCall.written s.facts s.materialized)).getD []
  | _ => []

/-- One step of the system, `none` where the event cannot happen. -/
def step (s : Garden) (event : Event) : Option Garden :=
  match event with
  | .tick now => if s.now ≤ now then some { s with now } else none
  | .mint id at_ =>
    if (factsOf s.facts id).isEmpty ∧ at_ ≤ s.now then
      some { s with facts := s.facts ++ writtenBy s event }
    else none
  | .loadVerb call verb note actor proposalId ids absorber =>
    some { s with verbs := put s.verbs call (some {
      verb, note, actor, proposalId
      batch := ids.map (load s.facts)
      companions := absorber.toList.map (load s.facts) }) }
  | .clockVerb call =>
    match s.verbs call with
    | some entry =>
      if entry.at_.isNone then
        some { s with verbs := put s.verbs call (some { entry with at_ := some s.now }) }
      else none
    | none => none
  | .attempt call =>
    match s.verbs call with
    | some entry =>
      if entry.at_.isSome ∧ !entry.awaitsReload then
        some { s with
          facts := s.facts ++ writtenBy s event
          verbs := put s.verbs call (entry.afterAttempt s.facts) }
      else none
    | none => none
  | .reload call =>
    match s.verbs call with
    | some entry =>
      if entry.awaitsReload then
        some { s with verbs := put s.verbs call (entry.reloaded s.facts) }
      else none
    | none => none
  | .validateRun call deltas =>
    if accepted : accepts s.facts deltas then
      some { s with runs := put s.runs call (some (validated s.facts deltas accepted)) }
    else none
  | .clockRun call =>
    match s.runs call with
    | some entry => some { s with runs := put s.runs call (some { entry with at_ := some s.now }) }
    | none => none
  | .commitRun call refused =>
    match s.runs call with
    | some entry =>
      if entry.at_.isSome then
        some { s with
          facts := s.facts ++ writtenBy s event
          materialized := if !refused && entry.admitted s.facts s.materialized then
            s.materialized ++ (entry.surviving s.materialized).map (·.artifactId)
          else s.materialized
          runs := put s.runs call none }
      else none
    | none => none

/-- A step appends the rows its event writes and no others. -/
theorem step_facts {s t : Garden} {event : Event} (h : step s event = some t) :
    t.facts = s.facts ++ writtenBy s event := by
  cases event with
  | tick now =>
    simp only [step] at h
    split at h
    · cases h
      simp [writtenBy]
    · cases h
  | mint id at_ =>
    simp only [step] at h
    split at h
    · cases h
      rfl
    · cases h
  | loadVerb call verb note actor proposalId ids absorber =>
    cases h
    simp [writtenBy]
  | validateRun call deltas =>
    simp only [step] at h
    split at h
    · cases h
      simp [writtenBy]
    · cases h
  | clockRun call =>
    simp only [step] at h
    split at h
    · cases h
      simp [writtenBy]
    · cases h
  | clockVerb call | reload call =>
    simp only [step] at h
    split at h
    · split at h
      · cases h
        simp [writtenBy]
      · cases h
    · cases h
  | attempt call | commitRun call refused =>
    simp only [step] at h
    split at h
    · split at h
      · cases h
        rfl
      · cases h
    · cases h

end Blizzard.FindingWrites
