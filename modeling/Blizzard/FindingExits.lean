import Blizzard.ExceptRules
import Blizzard.FindingWrites

/-! # When an accepted exit stands

A verb's exit is appended under its guard but carries the instant the verb read before, so a run's
fact that committed in between may carry a later one. -/
namespace Blizzard.FindingExits
open HubTables ExceptRules FindingLiveness FindingWrites

/-- The exits that a person's verb commits at an event. -/
def exitsOf (s : Garden) (event : Event) : List FactRow :=
  match event with
  | .attempt _ => (writtenBy s event).filter fun row => row.kind ∈ exitKinds
  | _ => []

/-- Whether an event reopens a finding. -/
def reopens (s : Garden) (event : Event) (findingId : String) : Bool :=
  (writtenBy s event).any fun row => row.findingId = findingId && row.kind = .reopened

/-- A finding derives `state` now and after each event to come, until one reopens it. -/
def Stands (findingId : String) (state : FindingState) : Garden → List Event → Prop
  | s, [] => (derived s.facts findingId).state = state
  | s, event :: events =>
    (derived s.facts findingId).state = state ∧
      match step s event with
      | some t => reopens s event findingId = true ∨ Stands findingId state t events
      | none => True

/-- Every exit that a run of events commits stands. -/
def ExitsStand : Garden → List Event → Prop
  | _, [] => True
  | s, event :: events =>
    match step s event with
    | some t =>
      (∀ row ∈ exitsOf s event, Stands row.findingId row.kind.state t events) ∧
        ExitsStand t events
    | none => True

/-- A verb that exits findings read the clock no earlier than any fact they already have. -/
def InOrder (s : Garden) : Event → Prop
  | .attempt call =>
    ∀ entry ∈ s.verbs call, ∀ instant ∈ entry.at_, ∀ row ∈ exitsOf s (.attempt call),
      ∀ fact ∈ factsOf s.facts row.findingId, fact.recordedAt ≤ instant
  | _ => True

/-- Every exit that a run of events commits is committed in order. -/
def ExitsInOrder : Garden → List Event → Prop
  | _, [] => True
  | s, event :: events =>
    match step s event with
    | some t => InOrder s event ∧ ExitsInOrder t events
    | none => True

instance decidableStands (findingId : String) (state : FindingState) :
    ∀ (s : Garden) (events : List Event), Decidable (Stands findingId state s events)
  | s, [] => inferInstanceAs (Decidable ((derived s.facts findingId).state = state))
  | s, event :: events =>
    match taken : step s event with
    | some t =>
      have := decidableStands findingId state t events
      decidable_of_iff ((derived s.facts findingId).state = state ∧
        (reopens s event findingId = true ∨ Stands findingId state t events))
        (by simp only [Stands, taken])
    | none =>
      decidable_of_iff ((derived s.facts findingId).state = state)
        (by simp only [Stands, taken, and_true])

instance decidableExitsStand : ∀ (s : Garden) (events : List Event), Decidable (ExitsStand s events)
  | _, [] => isTrue trivial
  | s, event :: events =>
    match taken : step s event with
    | some t =>
      have := decidableExitsStand t events
      decidable_of_iff ((∀ row ∈ exitsOf s event, Stands row.findingId row.kind.state t events) ∧
        ExitsStand t events) (by simp only [ExitsStand, taken])
    | none => isTrue (by simp only [ExitsStand, taken])

/-! ## The rows a verb writes -/

theorem duplicateOf_none {seen ids : List String} (h : duplicateOf seen ids = none) :
    ids.Nodup ∧ ∀ id ∈ ids, id ∉ seen := by
  induction ids generalizing seen with
  | nil => simp
  | cons id ids ih =>
    simp only [duplicateOf] at h
    split at h
    · cases h
    · next hfresh =>
      obtain ⟨hnodup, hdisjoint⟩ := ih h
      refine ⟨List.nodup_cons.mpr ⟨fun hmem => hdisjoint id hmem (by simp), hnodup⟩, ?_⟩
      intro other hother
      rcases List.mem_cons.mp hother with rfl | hother
      · exact hfresh
      · exact fun hseen => hdisjoint other hother (by simp [hseen])

theorem refuseDuplicates_ok {findings : List Finding} (h : refuseDuplicates findings = .ok ()) :
    (findings.map (·.findingId)).Nodup := by
  unfold refuseDuplicates at h
  split at h
  · cases h
  · next hnone => exact (duplicateOf_none hnone).1

theorem check_ok {finding : Finding} {kind : FactKind} (h : finding.check kind = .ok ()) :
    allows finding.state kind = true := by
  unfold Finding.check at h
  split at h
  · assumption
  · split at h <;> cases h

/-- What the rows of a verb say: the instant it captured, of findings of its batch whose loaded
states allow their kinds, and one row a finding but for `delivered`. -/
structure RowsOf (instant : Instant) (batch : List Finding) (rows : List FactRow) : Prop where
  instants : ∀ row ∈ rows, row.recordedAt = instant
  allowed : ∀ row ∈ rows, ∃ finding ∈ batch, finding.findingId = row.findingId ∧
    allows finding.state row.kind = true
  distinct : (rows.map (·.findingId)).Nodup ∨ ∀ row ∈ rows, row.kind = .delivered

/-- One row for each finding of a batch without duplicates. -/
theorem RowsOf.of_map {instant : Instant} {batch : List Finding} {kind : FactKind}
    {row : Finding → FactRow} (nodup : (batch.map (·.findingId)).Nodup)
    (allowed : ∀ finding ∈ batch, allows finding.state kind = true)
    (hrow : ∀ finding, (row finding).findingId = finding.findingId ∧ (row finding).kind = kind ∧
      (row finding).recordedAt = instant) : RowsOf instant batch (batch.map row) where
  instants := by
    intro r hr
    obtain ⟨finding, _, rfl⟩ := List.mem_map.mp hr
    exact (hrow finding).2.2
  allowed := by
    intro r hr
    obtain ⟨finding, hmem, rfl⟩ := List.mem_map.mp hr
    have hkind := (hrow finding).2.1
    exact ⟨finding, hmem, (hrow finding).1.symm, by rw [hkind]; exact allowed finding hmem⟩
  distinct := by
    left
    have hids : (fun finding => (row finding).findingId) = fun finding : Finding =>
        finding.findingId := funext fun finding => (hrow finding).1
    simpa [Function.comp_def, hids] using nodup

theorem exitFacts_ok {kind : FactKind} {text : VerbText} {batch : List Finding}
    {rows : List FactRow} (h : exitFacts kind text batch = .ok rows) :
    RowsOf text.at_ batch rows := by
  obtain ⟨_, hnodup, h⟩ := bind_ok h
  obtain ⟨_, hchecked, h⟩ := bind_ok h
  obtain ⟨note, _, h⟩ := bind_ok h
  cases h
  have hallowed := fun finding hmem => check_ok (forM_ok hchecked finding hmem)
  exact .of_map (refuseDuplicates_ok hnodup) hallowed fun _ => ⟨rfl, rfl, rfl⟩

theorem supersedeFacts_ok {absorber : Finding} {text : VerbText} {batch : List Finding}
    {rows : List FactRow} (h : supersedeFacts absorber text batch = .ok rows) :
    RowsOf text.at_ batch rows := by
  obtain ⟨_, hnodup, h⟩ := bind_ok h
  obtain ⟨_, _, h⟩ := bind_ok h
  split at h
  · cases h
  · obtain ⟨_, hchecked, h⟩ := bind_ok h
    obtain ⟨note, _, h⟩ := bind_ok h
    cases h
    have hallowed := fun finding hmem => check_ok (forM_ok hchecked finding hmem)
    exact .of_map (refuseDuplicates_ok hnodup) hallowed fun _ => ⟨rfl, rfl, rfl⟩

theorem deliverFacts_ok {text : VerbText} {batch : List Finding} {rows : List FactRow}
    (h : deliverFacts text batch = .ok rows) : RowsOf text.at_ batch rows := by
  obtain ⟨note, _, h⟩ := bind_ok h
  cases h
  refine ⟨?_, ?_, .inr ?_⟩ <;> intro row hrow <;>
    obtain ⟨finding, hfinding, rfl⟩ := List.mem_map.mp hrow
  · rfl
  · obtain ⟨hmem, hallowed⟩ := List.mem_filter.mp hfinding
    exact ⟨finding, hmem, rfl, hallowed⟩
  · rfl

theorem facts_ok {verb : Verb} {text : VerbText} {batch companions : List Finding}
    {rows : List FactRow} (h : verb.facts text batch companions = .ok rows) :
    RowsOf text.at_ batch rows := by
  cases verb with
  | resolve | confirmGone | wontFix | notAFinding | reopen => exact exitFacts_ok h
  | deliver => exact deliverFacts_ok h
  | supersede =>
    simp only [Verb.facts] at h
    split at h
    · exact supersedeFacts_ok h
    · cases h
      exact ⟨by simp, by simp, .inl (by simp)⟩

/-- A guarded attempt that writes found its whole batch in the states it had loaded. -/
theorem written_ok {facts : List FactRow} {call : VerbCall} {row : FactRow}
    (h : row ∈ call.written facts) :
    ∃ instant, call.at_ = some instant ∧ RowsOf instant call.batch (call.written facts) ∧
      ∀ finding ∈ call.batch, (derived facts finding.findingId).state = finding.state := by
  unfold VerbCall.written at h ⊢
  cases hentries : call.entries with
  | error refusal => simp [hentries] at h
  | ok entries =>
    simp only [hentries] at h ⊢
    split at h
    · next hmoved =>
      rw [if_pos hmoved]
      unfold VerbCall.entries at hentries
      cases hinstant : call.at_ with
      | none =>
        rw [hinstant] at hentries
        cases hentries
        cases h
      | some instant =>
        rw [hinstant] at hentries
        refine ⟨instant, rfl, facts_ok hentries, fun finding hfinding => ?_⟩
        have hkept := List.filter_eq_nil_iff.mp hmoved finding (List.mem_append_left _ hfinding)
        simpa using hkept
    · cases h

/-- The kind of every row an attempt writes is allowed by its finding's derived state. -/
theorem written_allowed {facts : List FactRow} {call : VerbCall} {row : FactRow}
    (h : row ∈ call.written facts) :
    allows (derived facts row.findingId).state row.kind = true := by
  obtain ⟨instant, _, rows, kept⟩ := written_ok h
  obtain ⟨finding, hmem, hid, hallowed⟩ := rows.allowed row h
  rw [← hid, kept finding hmem]
  exact hallowed

/-! ## What an exited finding admits -/

theorem factsOf_append (facts rows : List FactRow) (findingId : String) :
    factsOf (facts ++ rows) findingId = factsOf facts findingId ++ factsOf rows findingId :=
  List.filter_append ..

/-- A finding without facts reads live. -/
theorem derived_absent {facts : List FactRow} {findingId : String}
    (h : factsOf facts findingId = []) : (derived facts findingId).state = .live := by
  rw [derived_state, h]
  rfl

/-- A delivery that goes through writes nothing to a finding that has exited. -/
theorem run_written_unexited {facts : List FactRow} {materialized : List String} {call : RunCall}
    {row : FactRow} (h : row ∈ call.written facts materialized) :
    (derived facts row.findingId).state ∈ unexitedStates := by
  unfold RunCall.written at h
  split at h
  · cases h
  · next instant _ =>
    split at h
    · next hadmitted =>
      obtain ⟨hmoved, hminted⟩ := Bool.and_eq_true_iff.mp hadmitted
      obtain ⟨delta, hdelta, hrow⟩ := List.mem_flatMap.mp h
      obtain ⟨op, hop, rfl⟩ := List.mem_map.mp hrow
      have cites : ∀ id, op.cites = some id → (derived facts id).state ∈ unexitedStates := by
        intro id hid
        have hcited : id ∈ delta.ops.filterMap RunOp.cites := List.mem_filterMap.mpr ⟨op, hop, hid⟩
        obtain ⟨finding, hfinding, rfl⟩ :=
          call.covered delta (List.mem_of_mem_filter hdelta) id hcited
        have hexpected : finding ∈ call.expect materialized := List.mem_filter.mpr
          ⟨hfinding, decide_eq_true (List.mem_flatMap.mpr ⟨delta, hdelta, hcited⟩)⟩
        have hkept := List.filter_eq_nil_iff.mp (of_decide_eq_true hmoved) finding hexpected
        have hstate : (derived facts finding.findingId).state = finding.state := by simpa using hkept
        rw [hstate]
        exact call.unexited finding hfinding
      cases op with
      | add id =>
        have hnew := List.all_eq_true.mp hminted id
          (List.mem_flatMap.mpr ⟨delta, hdelta, List.mem_filterMap.mpr ⟨.add id, hop, rfl⟩⟩)
        have hstate : (derived facts id).state = .live := derived_absent (by simpa using hnew)
        simp [RunCall.fact, hstate, unexitedStates]
      | observed id => exact cites id rfl
      | gone id note => exact cites id rfl
    · cases h

/-- Only `reopened` is ever written to a finding that has exited. -/
theorem written_exited {s : Garden} {event : Event} {row : FactRow} (h : row ∈ writtenBy s event)
    (exited : (derived s.facts row.findingId).state ∉ unexitedStates) : row.kind = .reopened := by
  cases event with
  | mint id instant =>
    simp only [writtenBy] at h
    split at h
    · next hnew =>
      have hstate : (derived s.facts id).state = .live := derived_absent (by simpa using hnew)
      have hrow := List.mem_singleton.mp h
      subst hrow
      simp [hstate, unexitedStates] at exited
    · cases h
  | attempt call =>
    cases hcall : s.verbs call with
    | none => simp [writtenBy, hcall] at h
    | some entry =>
      have hrow : row ∈ entry.written s.facts := by simpa [writtenBy, hcall] using h
      exact allows_exited exited (written_allowed hrow)
  | commitRun call refused =>
    simp only [writtenBy] at h
    split at h
    · cases h
    · cases hcall : s.runs call with
      | none => simp [hcall] at h
      | some entry =>
        have hrow : row ∈ entry.written s.facts s.materialized := by simpa [hcall] using h
        exact absurd (run_written_unexited hrow) exited
  | tick | loadVerb | clockVerb | reload | validateRun | clockRun => cases h

/-- An exited state stands until a verb reopens its finding. -/
theorem stands_of_exited {findingId : String} {state : FindingState} {s : Garden}
    (events : List Event) (exited : state ∉ unexitedStates)
    (now : (derived s.facts findingId).state = state) : Stands findingId state s events := by
  induction events generalizing s with
  | nil => exact now
  | cons event events ih =>
    refine ⟨now, ?_⟩
    split
    · next t taken =>
      cases hreopens : reopens s event findingId with
      | true => exact .inl rfl
      | false =>
        have hnone : factsOf (writtenBy s event) findingId = [] := by
          apply List.filter_eq_nil_iff.mpr
          intro row hrow hid
          have hid := of_decide_eq_true hid
          subst hid
          have hkind := written_exited hrow (by rwa [now])
          have hkept := List.any_eq_false.mp hreopens row hrow
          simp [hkind] at hkept
        have hfacts : factsOf t.facts findingId = factsOf s.facts findingId := by
          rw [step_facts taken, factsOf_append, hnone, List.append_nil]
        have hstate : (derived t.facts findingId).state = state := by
          rw [derived_state, hfacts, ← derived_state, now]
        exact .inr (ih hstate)
    · trivial

theorem Stands.now {findingId : String} {state : FindingState} {s : Garden} {events : List Event}
    (h : Stands findingId state s events) : (derived s.facts findingId).state = state := by
  cases events with
  | nil => exact h
  | cons event events => exact h.1

/-! ## An exit's commit -/

/-- The one row of a finding among rows of distinct findings. -/
theorem factsOf_distinct {rows : List FactRow} {row : FactRow}
    (h : (rows.map (·.findingId)).Nodup) (hrow : row ∈ rows) :
    factsOf rows row.findingId = [row] := by
  induction rows with
  | nil => cases hrow
  | cons first rest ih =>
    rw [List.map_cons, List.nodup_cons] at h
    obtain ⟨hfresh, hrest⟩ := h
    rcases List.mem_cons.mp hrow with rfl | hmem
    · have hnone : factsOf rest row.findingId = [] := by
        apply List.filter_eq_nil_iff.mpr
        intro other hother hid
        exact hfresh (List.mem_map.mpr ⟨other, hother, of_decide_eq_true hid⟩)
      simpa [factsOf] using hnone
    · have hne : first.findingId ≠ row.findingId := fun heq =>
        hfresh (heq ▸ List.mem_map_of_mem hmem)
      have htail := ih hrest hmem
      simpa [factsOf, hne] using htail

/-- A committed exit is its finding's state exactly when no stored fact carries a later instant. -/
theorem exit_derived {s t : Garden} {call : String} {entry : VerbCall} {instant : Instant}
    {row : FactRow} (taken : step s (.attempt call) = some t) (hcall : s.verbs call = some entry)
    (hinstant : entry.at_ = some instant) (hrow : row ∈ exitsOf s (.attempt call)) :
    (derived t.facts row.findingId).state = row.kind.state ↔
      ∀ fact ∈ factsOf s.facts row.findingId, fact.recordedAt ≤ instant := by
  obtain ⟨hwritten, hkind⟩ := List.mem_filter.mp hrow
  have hexit : row.kind ∈ exitKinds := of_decide_eq_true hkind
  have hrows : writtenBy s (.attempt call) = entry.written s.facts := by simp [writtenBy, hcall]
  rw [hrows] at hwritten
  obtain ⟨captured, hcaptured, rows, -⟩ := written_ok hwritten
  have hclock : row.recordedAt = instant := by
    have hsame := rows.instants row hwritten
    rw [hsame]
    exact Option.some.inj (hcaptured.symm.trans hinstant)
  have hdistinct : ((entry.written s.facts).map (·.findingId)).Nodup := by
    rcases rows.distinct with hnodup | hdelivered
    · exact hnodup
    · have hthis := hdelivered row hwritten
      simp [hthis, exitKinds] at hexit
  have hfacts : factsOf t.facts row.findingId = factsOf s.facts row.findingId ++ [row] := by
    rw [step_facts taken, factsOf_append, hrows, factsOf_distinct hdistinct hwritten]
  rw [derived_state, hfacts, ← hclock]
  constructor
  · intro hstate
    by_contra hlater
    push Not at hlater
    obtain ⟨fact, hfact, hlt⟩ := hlater
    -- A later fact keeps the state the guard saw, and from that state the exit was legal.
    rw [newestFact_append_old hfact hlt, ← derived_state] at hstate
    have hallowed := written_allowed hwritten
    rw [hstate] at hallowed
    have hreopened := allows_exited (exit_state hexit) hallowed
    simp [hreopened, exitKinds] at hexit
  · intro hearlier
    rw [newestFact_append_eq hearlier]
    rfl

theorem exits_stand_at_step {s t : Garden} {event : Event} {events : List Event}
    (taken : step s event = some t) :
    (∀ row ∈ exitsOf s event, Stands row.findingId row.kind.state t events) ↔
      InOrder s event := by
  cases event with
  | attempt call =>
    cases hcall : s.verbs call with
    | none => simp [step, hcall] at taken
    | some entry =>
      cases hinstant : entry.at_ with
      | none => simp [step, hcall, hinstant] at taken
      | some instant =>
        constructor
        · intro hstand entry' hentry' instant' hinstant' row hrow
          have hentry := Option.some.inj (hcall.symm.trans hentry')
          subst hentry
          have hsame := Option.some.inj (hinstant.symm.trans hinstant')
          subst hsame
          exact (exit_derived taken hcall hinstant hrow).mp (hstand row hrow).now
        · intro horder row hrow
          have hearlier := horder entry hcall instant hinstant row hrow
          have hexit : row.kind ∈ exitKinds := of_decide_eq_true (List.mem_filter.mp hrow).2
          exact stands_of_exited events (exit_state hexit)
            ((exit_derived taken hcall hinstant hrow).mpr hearlier)
  | tick | mint | loadVerb | clockVerb | reload | validateRun | clockRun | commitRun =>
    simp [exitsOf, InOrder]

/-- The exits of a run of events stand exactly when each was committed in order. -/
theorem exits_stand_iff (s : Garden) (events : List Event) :
    ExitsStand s events ↔ ExitsInOrder s events := by
  induction events generalizing s with
  | nil => exact Iff.rfl
  | cons event events ih =>
    simp only [ExitsStand, ExitsInOrder]
    split
    · next t taken => rw [exits_stand_at_step taken, ih t]
    · exact Iff.rfl

/-- A run observes the finding after the verb read the clock and before it wrote. -/
theorem overtaken_exit_reads_live :
    ¬ ExitsStand { facts := [], now := 0 }
      [.mint "fnd_1" 0, .tick 10,
        .loadVerb "operator" .resolve "fixed" "alex" none ["fnd_1"] none, .clockVerb "operator",
        .tick 11, .validateRun "run" [⟨"art_1", [.observed "fnd_1"]⟩], .clockRun "run",
        .commitRun "run" false, .attempt "operator"] := by
  decide +kernel

end Blizzard.FindingExits
