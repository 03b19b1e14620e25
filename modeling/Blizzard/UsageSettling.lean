import Blizzard.UsageCoverage

/-! # Passes that settle

A pass tells each step at most once. Passes that nothing stops move both cursors past every closed
step and usage row the settle delay is over for, so no late row waits for ever. -/
namespace Blizzard.UsageSettling
open HubTables TraceSteps ExportWindows WindowDrain SortedRanks ExportRuns ExportCoverage LateUsage
  UsageCoverage

variable {config : EgressConfig} {h : UsageExport} {corpus : Corpus}

/-! ## Once in a pass -/

theorem addStep_distinct {batch : StepBatch} (distinct : (named batch).Nodup) (key : StepKey)
    (cursor : CursorKey) : (named (addStep batch key cursor)).Nodup := by
  rw [addStep]
  split
  next => exact distinct
  next absent =>
    rw [named, List.map_append, List.nodup_append]
    refine ⟨distinct, by simp, ?_⟩
    intro other held last added same
    rw [List.map_singleton, List.mem_singleton] at added
    obtain ⟨entry, entered, rfl⟩ := List.mem_map.mp held
    exact absent (List.any_eq_true.mpr ⟨entry, entered, decide_eq_true (same.trans added)⟩)

theorem foldl_distinct {α : Type} {add : StepBatch → α → StepBatch}
    (keeps : ∀ batch a, (named batch).Nodup → (named (add batch a)).Nodup) (entries : List α)
    {batch : StepBatch} (distinct : (named batch).Nodup) :
    (named (entries.foldl add batch)).Nodup := by
  induction entries generalizing batch with
  | nil => exact distinct
  | cons a rest ih => exact ih (keeps batch a distinct)

/-- A plan names each step once. -/
theorem planned_distinct (corpus : Corpus) (cursor : EgressCheckpoint)
    (usage : List AttributedUsage) (now : Instant) :
    (named (ExportRuns.planned config corpus cursor usage now).rows).Nodup := by
  refine ((List.perm_insertionSort _ _).map _).nodup_iff.mpr ?_
  apply foldl_distinct
  · intro batch row distinct
    rw [addRetold]
    split
    · exact distinct
    · split
      · exact distinct
      · dsimp only
        split
        · exact addStep_distinct distinct _ _
        · exact distinct
  · have none_ : (named []).Nodup := List.nodup_nil
    refine foldl_distinct ?_ _ none_
    intro batch item distinct
    cases item with
    | closedStep key step facts => exact addStep_distinct distinct _ _
    | finishedChunk key facts completion => exact distinct

/-- Where an event takes a pass. -/
inductive StageMove (config : EgressConfig) (h : Egress) (pass : ExportPass) : PassStage → Prop
  | planned (cursor : EgressCheckpoint) (usage : List AttributedUsage)
      (from_ : pass.stage = .begun) :
      StageMove config h pass (.planned (ExportRuns.planned config h.corpus cursor usage pass.startedAt))
  | placed (plan : StepsPassPlan) (from_ : pass.stage = .planned plan) :
      StageMove config h pass (.placed plan)
  | listed (plan : StepsPassPlan) (from_ : pass.stage = .placed plan) :
      StageMove config h pass (.listed plan)

/-- Any event but a begin ends the pass in flight, leaves it or moves it on. -/
theorem step_stage (h : Egress) {event : Event} (other : event ≠ .begin) :
    (h.step config event).pass = none ∨ (h.step config event).pass = h.pass ∨
      ∃ pass ∈ h.pass, ∃ stage, (h.step config event).pass = some { pass with stage } ∧
        StageMove config h pass stage := by
  cases event with
  | begin => exact absurd rfl other
  | crash => exact .inl rfl
  | tick elapsed => exact .inr (.inl rfl)
  | commit row =>
    rw [Egress.step]
    split
    · split
      · exact .inr (.inl rfl)
      · exact .inr (.inl rfl)
    · exact .inr (.inl rfl)
  | anchor =>
    rw [Egress.step]
    split
    · exact .inl rfl
    · exact .inr (.inl rfl)
  | read usage =>
    rw [Egress.step]
    split
    next startedAt cursor flying =>
      exact .inr (.inr ⟨_, flying, _, rfl, .planned cursor usage rfl⟩)
    next => exact .inr (.inl rfl)
  | write ok =>
    rw [Egress.step]
    split
    next startedAt cursor plan flying =>
      split
      · split
        · exact .inl rfl
        · exact .inl rfl
      · split
        · exact .inr (.inr ⟨_, flying, _, rfl, .placed plan rfl⟩)
        · exact .inl rfl
    next => exact .inr (.inl rfl)
  | list_ ok =>
    rw [Egress.step]
    split
    next startedAt cursor plan flying =>
      split
      · exact .inr (.inr ⟨_, flying, _, rfl, .listed plan rfl⟩)
      · exact .inl rfl
    next => exact .inr (.inl rfl)
  | append ok =>
    rw [Egress.step]
    split
    · split
      · exact .inl rfl
      · exact .inl rfl
    · exact .inr (.inl rfl)

/-- A plan in flight names each step once. -/
def StageDistinct : PassStage → Prop
  | .begun => True
  | .planned plan | .placed plan | .listed plan => (named plan.rows).Nodup

theorem StageMove.distinct {h : Egress} {pass : ExportPass} {stage : PassStage}
    (move : StageMove config h pass stage) (distinct : StageDistinct pass.stage) :
    StageDistinct stage := by
  cases move with
  | planned cursor usage from_ => exact planned_distinct _ _ _ _
  | placed plan from_ | listed plan from_ =>
    rw [from_] at distinct
    exact distinct

theorem list_pass {h : Egress} {startedAt : Instant} {cursor : Option EgressCheckpoint}
    {plan : StepsPassPlan} (flying : h.pass = some ⟨startedAt, cursor, .placed plan⟩) :
    (h.step config (.list_ true)).pass = some ⟨startedAt, cursor, .listed plan⟩ := by
  rw [Egress.step, flying]
  rfl

/-- What any event of the export does to the pass and to what is exported. -/
theorem usage_step (config : EgressConfig) (h : UsageExport) {event : UsageEvent} (other : event ≠ .begin) :
    ((h.step config event).exported = h.exported ∧
      ((h.step config event).egress = h.egress ∨
        ∃ inner ≠ Event.begin, (h.step config event).egress = h.egress.step config inner)) ∨
    ∃ startedAt cursor plan, h.egress.pass = some ⟨startedAt, cursor, .placed plan⟩ ∧
      (h.step config event).exported = h.exported ++ exportedSteps h.seen plan.rows ∧
      (h.step config event).egress = h.egress.step config (.list_ true) := by
  cases event with
  | begin => exact absurd rfl other
  | commit row =>
    rw [UsageExport.step]
    split
    · exact .inl ⟨rfl, .inr ⟨.commit row, by simp, rfl⟩⟩
    · exact .inl ⟨rfl, .inl rfl⟩
  | usage row =>
    rw [UsageExport.step]
    split
    · exact .inl ⟨rfl, .inl rfl⟩
    · exact .inl ⟨rfl, .inl rfl⟩
  | fetch =>
    rw [UsageExport.step]
    split
    · exact .inl ⟨rfl, .inl rfl⟩
    · exact .inl ⟨rfl, .inl rfl⟩
  | read =>
    rw [UsageExport.step]
    split
    next usage _ => exact .inl ⟨rfl, .inr ⟨.read usage, by simp, rfl⟩⟩
    next => exact .inl ⟨rfl, .inl rfl⟩
  | list_ ok =>
    rw [UsageExport.step]
    split
    next startedAt cursor plan flying =>
      split
      next done =>
        refine .inr ⟨startedAt, cursor, plan, flying, rfl, ?_⟩
        rw [UsageExport.lift, done]
      next => exact .inl ⟨rfl, .inr ⟨.list_ ok, by simp, rfl⟩⟩
    next => exact .inl ⟨rfl, .inl rfl⟩
  | tick elapsed => exact .inl ⟨rfl, .inr ⟨.tick elapsed, by simp, rfl⟩⟩
  | anchor => exact .inl ⟨rfl, .inr ⟨.anchor, by simp, rfl⟩⟩
  | write ok => exact .inl ⟨rfl, .inr ⟨.write ok, by simp, rfl⟩⟩
  | append ok => exact .inl ⟨rfl, .inr ⟨.append ok, by simp, rfl⟩⟩
  | crash => exact .inl ⟨rfl, .inr ⟨.crash, by simp, rfl⟩⟩

theorem usage_stage (config : EgressConfig) (h : UsageExport) {event : UsageEvent} (other : event ≠ .begin) :
    (h.step config event).egress.pass = none ∨
      (h.step config event).egress.pass = h.egress.pass ∨ ∃ pass ∈ h.egress.pass, ∃ stage,
        (h.step config event).egress.pass = some { pass with stage } ∧
          StageMove config h.egress pass stage := by
  rcases usage_step config h other with ⟨_, unmoved | ⟨inner, notBegin, moved⟩⟩ |
    ⟨startedAt, cursor, plan, flying, _, listed⟩
  · exact .inr (.inl (by rw [unmoved]))
  · rw [moved]
    exact step_stage h.egress notBegin
  · exact .inr (.inr ⟨_, flying, _, listed ▸ list_pass flying, .listed plan rfl⟩)

/-- Every event keeps the plan in flight naming each step once. -/
theorem distinct_step (distinct : ∀ pass ∈ h.egress.pass, StageDistinct pass.stage)
    (event : UsageEvent) :
    ∀ pass ∈ (h.step config event).egress.pass, StageDistinct pass.stage := by
  intro pass held
  by_cases begins : event = .begin
  · subst begins
    rw [UsageExport.step, UsageExport.lift, Egress.step] at held
    dsimp only at held
    split at held
    · cases held
      trivial
    · exact distinct pass held
  · rcases usage_stage config h begins with ended | still |
      ⟨old, flying, stage, moved, move⟩
    · rw [ended] at held
      cases held
    · exact distinct pass (still ▸ held)
    · rw [moved] at held
      cases held
      exact move.distinct (distinct old flying)

theorem distinct_run (distinct : ∀ pass ∈ h.egress.pass, StageDistinct pass.stage)
    (events : List UsageEvent) :
    ∀ pass ∈ (h.run config events).egress.pass, StageDistinct pass.stage := by
  induction events generalizing h with
  | nil => exact distinct
  | cons event rest ih => exact ih (distinct_step distinct event)

/-- The manifest of the pass in flight is committed. -/
def Manifested (h : UsageExport) : Prop :=
  ∀ pass ∈ h.egress.pass, ∃ plan, pass.stage = .listed plan

theorem manifested_step (done : Manifested h) {event : UsageEvent} (other : event ≠ .begin) :
    Manifested (h.step config event) := by
  intro pass held
  rcases usage_stage config h other with ended | still |
    ⟨old, flying, stage, moved, move⟩
  · rw [ended] at held
    cases held
  · exact done pass (still ▸ held)
  · obtain ⟨plan, isListed⟩ := done old flying
    cases move with
    | planned cursor usage from_ | placed plan from_ | listed plan from_ =>
      rw [isListed] at from_
      cases from_

/-- Until the next begin each step is exported once, and none after the manifest. -/
theorem pass_tells_once (distinct : ∀ pass ∈ h.egress.pass, StageDistinct pass.stage)
    {events : List UsageEvent} (onePass : UsageEvent.begin ∉ events) :
    ∃ rows, (h.run config events).exported = h.exported ++ rows ∧
      (rows.map (·.stepKey)).Nodup ∧ (Manifested h → rows = []) := by
  induction events generalizing h with
  | nil => exact ⟨[], (List.append_nil _).symm, List.nodup_nil, fun _ => rfl⟩
  | cons event rest ih =>
    have other : event ≠ .begin := fun same => onePass (same ▸ List.mem_cons_self)
    have later : UsageEvent.begin ∉ rest := fun held => onePass (List.mem_cons_of_mem _ held)
    obtain ⟨rows, exported, once, done⟩ := ih (distinct_step distinct event) later
    rcases usage_step config h other with ⟨same, _⟩ |
      ⟨startedAt, cursor, plan, flying, told, listed⟩
    · exact ⟨rows, exported.trans (by rw [same]), once, fun finished =>
        done (manifested_step finished other)⟩
    · have fresh : StageDistinct (.placed plan) := distinct _ flying
      have none_ : rows = [] := by
        apply done
        intro pass held
        rw [listed, list_pass flying] at held
        cases held
        exact ⟨plan, rfl⟩
      rw [none_, List.append_nil, told] at exported
      refine ⟨exportedSteps h.seen plan.rows, exported, ?_, ?_⟩
      · rw [exportedSteps, List.map_map]
        exact fresh
      · intro finished
        obtain ⟨other, isListed⟩ := finished _ flying
        cases isListed

/-! ## Passes that nothing stops -/

theorem ordered_usage_step (ordered : Ordered config h.egress) (event : UsageEvent) :
    Ordered config (h.step config event).egress := by
  by_cases begins : event = .begin
  · subst begins
    exact (ordered_step ordered .begin).1
  · rcases usage_step config h begins with ⟨_, unmoved | ⟨inner, _, moved⟩⟩ | ⟨_, _, _, _, _, listed⟩
    · exact unmoved ▸ ordered
    · exact moved ▸ (ordered_step ordered inner).1
    · exact listed ▸ (ordered_step ordered (.list_ true)).1

theorem ordered_usage_run (ordered : Ordered config h.egress) (events : List UsageEvent) :
    Ordered config (h.run config events).egress := by
  induction events generalizing h with
  | nil => exact ordered
  | cons event rest ih => exact ih (ordered_usage_step ordered event)

/-- Between passes: none in flight, no usage read. -/
structure Idle (h : UsageExport) : Prop where
  idle : h.egress.pass = none
  unread : h.fetched = none

/-- What a pass plans that begins now from a cursor. -/
def nextPlan (config : EgressConfig) (h : UsageExport) (cursor : EgressCheckpoint) : StepsPassPlan :=
  ExportRuns.planned config h.egress.corpus cursor
    (usageAfter h.usage cursor.usage (h.egress.clock - config.settle) config.batchLimit)
    h.egress.clock

/-- A state between passes with the same facts and a later cursor. -/
structure Passed (before after : UsageExport) : Prop where
  idle : Idle after
  clock : after.egress.clock = before.egress.clock
  corpus : after.egress.corpus = before.egress.corpus
  usage : after.usage = before.usage

theorem Passed.trans {a b c : UsageExport} (first : Passed a b) (second : Passed b c) : Passed a c :=
  ⟨second.idle, second.clock.trans first.clock, second.corpus.trans first.corpus,
    second.usage.trans first.usage⟩

/-- A whole pass exports its plan's rows and leaves the plan's positions stored. -/
theorem whole_pass (ordered : Ordered config h.egress) (idle : Idle h) {cursor : EgressCheckpoint}
    (newest : newestCursor h.egress.cursors = some cursor) :
    Passed h (h.run config wholePass) ∧
      (h.run config wholePass).exported =
        h.exported ++ exportedSteps h.usage (nextPlan config h cursor).rows ∧
      ∃ stored ∈ newestCursor (h.run config wholePass).egress.cursors,
        stored.step = (nextPlan config h cursor).advanced.step ∧
          stored.usage = (nextPlan config h cursor).advanced.usage := by
  have times := ordered.times
  obtain ⟨egress, usage, fetched, seen, exported⟩ := h
  obtain ⟨corpus, clock, cursors, pass, told, waived⟩ := egress
  obtain ⟨rfl, rfl⟩ := idle
  set plan := nextPlan config ⟨⟨corpus, clock, cursors, none, told, waived⟩, usage, none, seen,
    exported⟩ cursor with isPlan
  have last : newestCursor (cursors ++ [plan.advanced]) = some plan.advanced :=
    newestCursor_append times
  have read : ExportRuns.planned config corpus cursor
      (usageAfter usage cursor.usage (clock - config.settle) config.batchLimit) clock = plan := rfl
  simp only [UsageExport.run, wholePass, List.foldl_cons, List.foldl_nil, UsageExport.step,
    UsageExport.lift, Egress.step, newest, read]
  by_cases empty : plan.rows = []
  · by_cases moved : plan.moved = true
    · simp only [empty, moved, if_true, and_self, Egress.appended]
      exact ⟨⟨⟨rfl, rfl⟩, rfl, rfl, rfl⟩, (List.append_nil exported).symm, plan.advanced, last, rfl,
        rfl⟩
    · have still : ¬(plan.advanced.step ≠ cursor.step ∨ plan.advanced.usage ≠ cursor.usage) :=
        fun differs => moved (decide_eq_true differs)
      rw [not_or, not_not, not_not] at still
      simp only [empty, moved, if_true, Bool.false_eq_true, false_and, if_false]
      exact ⟨⟨⟨rfl, rfl⟩, rfl, rfl, rfl⟩, (List.append_nil exported).symm, cursor, newest,
        still.1.symm, still.2.symm⟩
  · simp only [empty, if_false, if_true, Egress.appended]
    exact ⟨⟨⟨rfl, rfl⟩, rfl, rfl, rfl⟩, trivial, plan.advanced, last, rfl, rfl⟩

/-- What the settle delay is over for. -/
abbrev settledBy (config : EgressConfig) (h : UsageExport) : Instant :=
  h.egress.clock - config.settle

/-- The usage a position has not passed. -/
def unreadUsage (usage : List AttributedUsage) (position : ExportRuns.UsagePosition)
    (until_ : Instant) : ℕ :=
  usage.countP fun row => decide (position < usagePosition row) && decide (row.recordedAt ≤ until_)

/-- The closing rows, items and usage rows ahead of a cursor. -/
def aheadOf (config : EgressConfig) (h : UsageExport) (cursor : EgressCheckpoint) : ℕ :=
  ahead h.egress.corpus cursor.step (settledBy config h) +
    unreadUsage h.usage cursor.usage (settledBy config h)

/-- Nothing the settle delay is over for is ahead of the stored cursor. -/
def Settled (config : EgressConfig) (h : UsageExport) : Prop :=
  ∃ cursor ∈ newestCursor h.egress.cursors,
    owed h.egress.corpus cursor.step (settledBy config h) = [] ∧
      ∀ row ∈ h.usage, row.recordedAt ≤ settledBy config h → usagePosition row ≤ cursor.usage

theorem usageAfter_still {usage : List AttributedUsage} {position : ExportRuns.UsagePosition}
    {until_ : Instant} {limit : ℕ} (some_ : 0 < limit)
    (none_ : (usageAfter usage position until_ limit).getLast? = none) :
    ∀ row ∈ usage, row.recordedAt ≤ until_ → usagePosition row ≤ position := by
  intro row held low
  by_contra past
  have empty := List.getLast?_eq_none_iff.mp none_
  rw [usageAfter, List.take_eq_nil_iff] at empty
  rcases empty with zero | nothing
  · omega
  · have inside : row ∈ ranked usagePosition (usage.filter fun row =>
        decide (position < usagePosition row) && decide (row.recordedAt ≤ until_)) := by
      rw [mem_ranked, List.mem_filter, Bool.and_eq_true, decide_eq_true_eq, decide_eq_true_eq]
      exact ⟨held, not_le.mp past, low⟩
    rw [nothing] at inside
    cases inside

/-- The usage position a pass moves to: its last row's, or the cursor's own. -/
theorem nextPlan_usage (config : EgressConfig) (h : UsageExport) (cursor : EgressCheckpoint) :
    (nextPlan config h cursor).advanced.usage = cursor.usage ∧
        (∀ row ∈ h.usage, row.recordedAt ≤ settledBy config h →
          usagePosition row ≤ cursor.usage) ∨
      cursor.usage < (nextPlan config h cursor).advanced.usage ∧
        unreadUsage h.usage (nextPlan config h cursor).advanced.usage (settledBy config h) <
          unreadUsage h.usage cursor.usage (settledBy config h) := by
  cases last : (usageAfter h.usage cursor.usage (settledBy config h) config.batchLimit).getLast? with
  | none =>
    refine .inl ⟨?_, usageAfter_still config.positive last⟩
    simp only [nextPlan, ExportRuns.planned, planStepsPass, last, Option.map_none, Option.getD_none]
  | some row =>
    have moved : (nextPlan config h cursor).advanced.usage = usagePosition row := by
      simp only [nextPlan, ExportRuns.planned, planStepsPass, last, Option.map_some,
        Option.getD_some]
      rfl
    obtain ⟨held, past, low⟩ := mem_usageAfter (List.mem_of_getLast? last)
    rw [moved]
    refine .inr ⟨past, countP_lt ?_ held ?_ ?_⟩
    · intro other test
      rw [Bool.and_eq_true, decide_eq_true_eq, decide_eq_true_eq] at test ⊢
      exact ⟨past.trans test.1, test.2⟩
    · rw [Bool.and_eq_true, decide_eq_true_eq, decide_eq_true_eq]
      exact ⟨past, low⟩
    · simp

theorem nextPlan_step (config : EgressConfig) (h : UsageExport) (cursor : EgressCheckpoint) :
    cursor.step ≤ (nextPlan config h cursor).advanced.step ∧
      ((nextPlan config h cursor).advanced.step = cursor.step ∧
          owed h.egress.corpus cursor.step (settledBy config h) = [] ∨
        ahead h.egress.corpus (nextPlan config h cursor).advanced.step (settledBy config h) <
          ahead h.egress.corpus cursor.step (settledBy config h)) := by
  obtain ⟨forward, _⟩ := readWindow_spec h.egress.corpus cursor.step (settledBy config h)
    config.positive
  refine ⟨forward, ?_⟩
  by_cases still : (nextPlan config h cursor).advanced.step = cursor.step
  · exact .inl ⟨still, (window_still _ _ _ config.positive still).2⟩
  · exact .inr (ahead_lt _ _ _ config.positive still)

/-- A number of whole passes, one after another. -/
def wholePasses (passes : ℕ) : List UsageEvent := (List.replicate passes wholePass).flatten

theorem run_append (config : EgressConfig) (h : UsageExport) (events more : List UsageEvent) :
    h.run config (events ++ more) = (h.run config events).run config more :=
  List.foldl_append

theorem wholePasses_succ (config : EgressConfig) (h : UsageExport) (passes : ℕ) :
    h.run config (wholePasses (passes + 1)) =
      (h.run config wholePass).run config (wholePasses passes) := by
  rw [wholePasses, List.replicate_succ, List.flatten_cons, run_append]
  rfl

/-- A run that commits no fact is prompt. -/
theorem prompt_of_quiet {events : List UsageEvent}
    (quiet : ∀ event ∈ events, ∀ row, event ≠ .commit row) : PromptUsageRun config h events := by
  induction events generalizing h with
  | nil => trivial
  | cons event rest ih =>
    refine ⟨?_, ih fun other held => quiet other (List.mem_cons_of_mem _ held)⟩
    cases event with
    | commit row => exact absurd rfl (quiet _ List.mem_cons_self row)
    | _ => trivial

theorem wholePass_quiet : ∀ event ∈ wholePass, ∀ row, event ≠ .commit row := by
  intro event held row same
  subst same
  simp [wholePass] at held

theorem Settled.pass (settled : Settled config h) (ordered : Ordered config h.egress) (idle : Idle h) :
    Settled config (h.run config wholePass) := by
  obtain ⟨cursor, newest, nothing, read⟩ := settled
  obtain ⟨passed, _, stored, isStored, atStep, atUsage⟩ := whole_pass ordered idle newest
  refine ⟨stored, isStored, ?_, ?_⟩
  · rw [passed.corpus, settledBy, passed.clock, atStep]
    refine List.filter_eq_nil_iff.mpr fun item held test => ?_
    rw [decide_eq_true_eq] at test
    have forward := (nextPlan_step config h cursor).1
    exact List.filter_eq_nil_iff.mp nothing item held
      (decide_eq_true ⟨forward.trans_lt test.1, test.2⟩)
  · rw [passed.usage, settledBy, passed.clock, atUsage]
    intro row held low
    rcases nextPlan_usage config h cursor with ⟨same, _⟩ | ⟨forward, _⟩
    · rw [same]
      exact read row held low
    · exact (read row held low).trans forward.le

theorem settled_passes (passes : ℕ) (settled : Settled config h) (ordered : Ordered config h.egress)
    (idle : Idle h) : Settled config (h.run config (wholePasses passes)) ∧
      Passed h (h.run config (wholePasses passes)) := by
  induction passes generalizing h with
  | zero => exact ⟨settled, idle, rfl, rfl, rfl⟩
  | succ passes ih =>
    rw [wholePasses_succ]
    obtain ⟨cursor, newest, _⟩ := id settled
    obtain ⟨passed, _⟩ := whole_pass ordered idle newest
    obtain ⟨still, rest⟩ := ih (settled.pass ordered idle)
      (ordered_usage_run ordered wholePass) passed.idle
    exact ⟨still, passed.trans rest⟩

/-- As many passes as there is ahead of the cursor settle it. -/
theorem passes_settle (passes : ℕ) (ordered : Ordered config h.egress) (idle : Idle h)
    {cursor : EgressCheckpoint} (newest : newestCursor h.egress.cursors = some cursor)
    (enough : aheadOf config h cursor ≤ passes) :
    Settled config (h.run config (wholePasses passes)) ∧
      Passed h (h.run config (wholePasses passes)) := by
  induction passes generalizing h cursor with
  | zero =>
    refine settled_passes 0 ⟨cursor, newest, ?_, ?_⟩ ordered idle
    · apply List.eq_nil_of_length_eq_zero
      rw [aheadOf, ahead] at enough
      omega
    · intro row held low
      by_contra past
      have none_ : unreadUsage h.usage cursor.usage (settledBy config h) = 0 := by
        rw [aheadOf] at enough
        omega
      refine List.countP_eq_zero.mp none_ row held ?_
      rw [Bool.and_eq_true, decide_eq_true_eq, decide_eq_true_eq]
      exact ⟨not_le.mp past, low⟩
  | succ passes ih =>
    obtain ⟨passed, _, stored, isStored, atStep, atUsage⟩ := whole_pass ordered idle newest
    have next : Ordered config (h.run config wholePass).egress := ordered_usage_run ordered wholePass
    have left : aheadOf config (h.run config wholePass) stored =
        ahead h.egress.corpus (nextPlan config h cursor).advanced.step (settledBy config h) +
          unreadUsage h.usage (nextPlan config h cursor).advanced.usage (settledBy config h) := by
      rw [aheadOf, settledBy, passed.corpus, passed.clock, passed.usage, atStep, atUsage]
    have further : aheadOf config (h.run config wholePass) stored < aheadOf config h cursor →
        Settled config (h.run config (wholePasses (passes + 1))) ∧
          Passed h (h.run config (wholePasses (passes + 1))) := by
      intro less
      rw [wholePasses_succ]
      obtain ⟨settled, rest⟩ := ih next passed.idle isStored (by omega)
      exact ⟨settled, passed.trans rest⟩
    rcases (nextPlan_step config h cursor).2 with ⟨sameStep, nothing⟩ | fewer
    · rcases nextPlan_usage config h cursor with ⟨sameUsage, read⟩ | ⟨_, fewerUsage⟩
      · exact settled_passes (passes + 1) ⟨cursor, newest, nothing, read⟩ ordered idle
      · apply further
        rw [left, sameStep, aheadOf]
        omega
    · apply further
      rw [left, aheadOf]
      rcases nextPlan_usage config h cursor with ⟨sameUsage, _⟩ | ⟨_, fewerUsage⟩
      · rw [sameUsage]
        omega
      · omega

/-- The first pass of an export anchors it. -/
theorem anchor_pass (idle : Idle h)
    (none_ : newestCursor h.egress.cursors = none) :
    Passed h (h.run config wholePass) ∧
      ∃ stored, newestCursor (h.run config wholePass).egress.cursors = some stored := by
  have opened := newestCursor_none none_
  obtain ⟨egress, usage, fetched, seen, exported⟩ := h
  obtain ⟨corpus, clock, cursors, pass, told, waived⟩ := egress
  obtain ⟨rfl, rfl⟩ := idle
  dsimp only at opened
  subst opened
  exact ⟨⟨⟨rfl, rfl⟩, rfl, rfl, rfl⟩, anchorRow config clock, rfl⟩

/-- From between passes on, some number of whole passes and any more settle the export. -/
theorem settles (ordered : Ordered config h.egress) (idle : Idle h) : ∃ enough, ∀ passes ≥ enough,
    Settled config (h.run config (wholePasses passes)) ∧
      Passed h (h.run config (wholePasses passes)) := by
  cases newest : newestCursor h.egress.cursors with
  | some cursor =>
    exact ⟨aheadOf config h cursor, fun passes enough => passes_settle passes ordered idle newest enough⟩
  | none =>
    obtain ⟨passed, stored, isStored⟩ := anchor_pass idle newest
    have next : Ordered config (h.run config wholePass).egress := ordered_usage_run ordered wholePass
    refine ⟨aheadOf config (h.run config wholePass) stored + 1, ?_⟩
    intro passes enough
    obtain ⟨more, rfl⟩ := Nat.exists_eq_add_of_lt enough
    have isSucc : aheadOf config (h.run config wholePass) stored + more + 1 =
        (aheadOf config (h.run config wholePass) stored + more) + 1 := rfl
    rw [isSucc, wholePasses_succ]
    obtain ⟨settled, rest⟩ := passes_settle _ next passed.idle isStored (Nat.le_add_right _ more)
    exact ⟨settled, passed.trans rest⟩

/-! ## What a settled export tells -/

/-- A settled export tells nothing more. -/
theorem settled_silent (settled : Settled config h) (ordered : Ordered config h.egress) (idle : Idle h) :
    (h.run config wholePass).exported = h.exported := by
  obtain ⟨cursor, newest, nothing, read⟩ := settled
  obtain ⟨_, exported, _⟩ := whole_pass ordered idle newest
  have unread : usageAfter h.usage cursor.usage (settledBy config h) config.batchLimit = [] := by
    apply List.eq_nil_iff_forall_not_mem.mpr
    intro row held
    obtain ⟨stored, past, low⟩ := mem_usageAfter held
    exact absurd (read row stored low) (not_le.mpr past)
  have items : (readWindow h.egress.corpus cursor.step (settledBy config h)
      config.batchLimit).items = [] := by
    obtain ⟨_, split, _⟩ := readWindow_spec h.egress.corpus cursor.step (settledBy config h)
      config.positive
    rw [nothing] at split
    exact (List.append_eq_nil_iff.mp split.symm).1
  have none_ : (nextPlan config h cursor).rows = [] := by
    simp only [nextPlan, ExportRuns.planned, planStepsPass, unread, windowStepRows, items,
      List.foldl_nil, List.insertionSort_nil]
  rw [exported, none_]
  exact List.append_nil _

theorem settled_stays_silent (passes : ℕ) (settled : Settled config h) (ordered : Ordered config h.egress)
    (idle : Idle h) : (h.run config (wholePasses passes)).exported = h.exported := by
  induction passes generalizing h with
  | zero => rfl
  | succ passes ih =>
    rw [wholePasses_succ]
    obtain ⟨cursor, newest, _⟩ := id settled
    obtain ⟨passed, _⟩ := whole_pass ordered idle newest
    rw [ih (settled.pass ordered idle) (ordered_usage_run ordered wholePass) passed.idle,
      settled_silent settled ordered idle]

/-- Some time after an instant every one of some instants is past. -/
theorem exists_elapsed (start : Instant) (times : List Instant) :
    ∃ elapsed : ℕ, ∀ at_ ∈ times, at_ ≤ start + elapsed := by
  induction times with
  | nil => exact ⟨0, by simp⟩
  | cons first rest ih =>
    obtain ⟨elapsed, past⟩ := ih
    refine ⟨max elapsed (first - start).toNat, ?_⟩
    intro at_ held
    rcases List.mem_cons.mp held with rfl | later
    · have reached := Int.self_le_toNat (at_ - start)
      have most := Int.ofNat_le.mpr (le_max_right elapsed (at_ - start).toNat)
      exact Int.le_add_of_sub_left_le (reached.trans most)
    · have most := Int.ofNat_le.mpr (le_max_left elapsed (first - start).toNat)
      exact (past at_ later).trans (Int.add_le_add_left most start)

/-- In a settled export every usage row of a closed step the settle delay is over for is told or
excused. -/
theorem settled_told (settled : Settled config h) (kept : UsageKept config h)
    (usageOver : ∀ row ∈ h.usage, row.recordedAt ≤ settledBy config h)
    (itemsOver : ∀ item ∈ corpusItems h.egress.corpus, item.key.at_ ≤ settledBy config h) :
    ∀ row ∈ h.usage, ∀ step ∈ attributedStep h.egress.corpus row, step.close.isSome →
      Included h.exported step.key row ∨ Excused h step.key row := by
  intro row held step attributed closed
  obtain ⟨close, isClose⟩ := Option.isSome_iff_exists.mp closed
  obtain ⟨cursor, newest, nothing, read⟩ := settled
  have item := closed_item (mem_attributedStep.mp attributed).1 isClose
  have behind : CursorKey.of step close ≤ cursor.step := by
    by_contra ahead
    exact List.filter_eq_nil_iff.mp nothing _ item
      (decide_eq_true ⟨not_le.mp ahead, itemsOver _ item⟩)
  rcases kept.stored cursor newest row held (read row held (usageOver row held)) step attributed
    close isClose behind with told | excused | ⟨none_, _⟩
  · exact .inl told
  · exact .inr excused
  · cases none_

/-- In every run of the export, where every row that identifies a step is prompt: a usage row behind the
stored usage cursor, of a runner step closed behind the stored step cursor, is in an exported row
of that step, or was recorded as the step was closed behind the anchor the export began at; after a
while passes that nothing stops have told every usage row of a closed step so; and between two
begins each step is told at most once. -/
theorem late_usage_told (config : EgressConfig) (corpus : Corpus) (once : OwnedOnce corpus)
    (clock : Instant) (events : List UsageEvent)
    (prompt : PromptUsageRun config (UsageExport.start corpus clock) events) :
    let h := (UsageExport.start corpus clock).run config events
    (∀ cursor ∈ newestCursor h.egress.cursors, ∀ row ∈ h.usage, usagePosition row ≤ cursor.usage →
      ∀ step ∈ attributedStep h.egress.corpus row, ∀ close ∈ step.close,
        CursorKey.of step close ≤ cursor.step →
          Included h.exported step.key row ∨ Excused h step.key row) ∧
    (∃ elapsed enough, ∀ passes ≥ enough,
      let later := h.run config (.crash :: .tick elapsed :: wholePasses passes)
      ∀ row ∈ h.usage, ∀ step ∈ attributedStep h.egress.corpus row, step.close.isSome →
        Included later.exported step.key row ∨ Excused later step.key row) ∧
    ∀ more, UsageEvent.begin ∉ more → ∃ rows, (h.run config more).exported = h.exported ++ rows ∧
      (rows.map (·.stepKey)).Nodup := by
  intro h
  have kept : UsageKept config h := kept_run (kept_start once clock) prompt
  refine ⟨?_, ?_, ?_⟩
  · intro cursor newest row held behind step attributed close closed before
    rcases kept.stored cursor newest row held behind step attributed close closed before with
      told | excused | ⟨none_, _⟩
    · exact .inl told
    · exact .inr excused
    · cases none_
  · obtain ⟨elapsed, due⟩ := exists_elapsed (h.egress.clock - config.settle)
      (h.usage.map (·.recordedAt) ++ (corpusItems h.egress.corpus).map (·.key.at_))
    have waited : UsageKept config (h.run config [.crash, .tick elapsed]) :=
      kept_run kept (prompt_of_quiet (by simp))
    have idle : Idle (h.run config [.crash, .tick elapsed]) := ⟨rfl, rfl⟩
    obtain ⟨enough, settle⟩ := settles waited.ordered idle
    refine ⟨elapsed, enough, ?_⟩
    intro passes many later row held step attributed closed
    have settled : Settled config later := (settle passes many).1
    have passed : Passed (h.run config [.crash, .tick elapsed]) later := (settle passes many).2
    have keptLater : UsageKept config later :=
      @kept_run config _ waited (wholePasses passes) (prompt_of_quiet (by
        intro event inside
        obtain ⟨pass, isPass, ofPass⟩ := List.mem_flatten.mp inside
        rw [List.eq_of_mem_replicate isPass] at ofPass
        exact wholePass_quiet event ofPass))
    have by_ : settledBy config later = h.egress.clock - config.settle + elapsed := by
      have moved (start wait settle : ℤ) : start + wait - settle = start - settle + wait := by
        omega
      rw [settledBy, passed.clock]
      exact moved _ _ _
    refine settled_told settled keptLater ?_ ?_ row (passed.usage ▸ held) step
      (passed.corpus ▸ attributed) closed
    · intro row held
      rw [by_]
      rw [passed.usage] at held
      exact due _ (List.mem_append_left _ (List.mem_map_of_mem held))
    · intro item held
      rw [by_]
      rw [passed.corpus] at held
      exact due _ (List.mem_append_right _ (List.mem_map_of_mem held))
  · intro more onePass
    have distinct : ∀ pass ∈ h.egress.pass, StageDistinct pass.stage := by
      apply distinct_run
      intro pass held
      cases held
    obtain ⟨rows, exported, each, _⟩ := pass_tells_once distinct onePass
    exact ⟨rows, exported, each⟩

instance (config : EgressConfig) (h : UsageExport) (event : UsageEvent) :
    Decidable (PromptUsage config h event) :=
  match event with
  | .commit _ => inferInstanceAs (Decidable (_ → _))
  | .usage _ | .tick _ | .begin | .anchor | .fetch | .read | .write _ | .list_ _ | .append _
  | .crash => inferInstanceAs (Decidable True)

instance decidablePromptUsageRun (config : EgressConfig) :
    ∀ h events, Decidable (PromptUsageRun config h events)
  | _, [] => inferInstanceAs (Decidable True)
  | h, event :: rest =>
    have := decidablePromptUsageRun config (h.step config event) rest
    inferInstanceAs (Decidable (_ ∧ _))

theorem noRows_once : OwnedOnce noRows := fun _ => List.nodup_nil

def ch1Usage (usageId : ℕ) (recordedAt : Instant) : AttributedUsage := ⟨usageId, "ch_1", 1, recordedAt⟩

def committed (fact : Fact) : UsageEvent := .commit (ch1Row 1 fact)

/-- An attempt told at its close with the usage there was, and again once more usage came. -/
def usageTwice : List UsageEvent :=
  wholePass ++ [committed (.owner ⟨1, some "rn_1", 1⟩), committed (.lease ⟨1, 1⟩),
    .usage (ch1Usage 1 2), committed (.escalation ⟨1, 3, none⟩), .tick 20] ++ wholePass ++
    [.usage (ch1Usage 2 21), .tick 20] ++ wholePass

theorem late_usage_retold :
    let h := (UsageExport.start noRows 0).run shortSettle usageTwice
    h.exported = [⟨⟨"ch_1", 1, none⟩, [ch1Usage 1 2]⟩,
        ⟨⟨"ch_1", 1, none⟩, [ch1Usage 1 2, ch1Usage 2 21]⟩] ∧
      ∀ cursor ∈ newestCursor h.egress.cursors, ∀ row ∈ h.usage,
        usagePosition row ≤ cursor.usage → ∀ step ∈ attributedStep h.egress.corpus row,
          ∀ close ∈ step.close, CursorKey.of step close ≤ cursor.step →
            Included h.exported step.key row ∨ Excused h step.key row :=
  ⟨by decide +kernel,
    (late_usage_told shortSettle noRows noRows_once 0 usageTwice (by decide +kernel)).1⟩

/-- An attempt closed and its usage recorded before the first pass, which anchors the export past
both. -/
def anchoredUsage : List UsageEvent :=
  [committed (.owner ⟨1, some "rn_1", 1⟩), committed (.lease ⟨1, 1⟩),
    committed (.escalation ⟨1, 2, none⟩), .usage (ch1Usage 1 3), .tick 20] ++ wholePass ++ wholePass

/-- A pass moves past an escalation and the usage of an epoch with no lease; the lease comes in time
after it. -/
def unleasedUsage : List UsageEvent :=
  wholePass ++ [committed (.owner ⟨1, some "rn_1", 1⟩), committed (.escalation ⟨1, 2, none⟩),
    .usage (ch1Usage 1 3), .tick 20] ++ wholePass ++ [.tick 2, committed (.lease ⟨1, 22⟩)]

/-- The usage row of a closed step that no number of whole passes exports. -/
def NeverTold (config : EgressConfig) (h : UsageExport) (row : AttributedUsage) (key : StepKey) :
    Prop :=
  row ∈ h.usage ∧ ∀ passes, ¬Included (h.run config (wholePasses passes)).exported key row

theorem never_told {row : AttributedUsage} {key : StepKey} (ordered : Ordered config h.egress)
    (idle : Idle h) (settled : Settled config h) (held : row ∈ h.usage) (untold : h.exported = []) :
    NeverTold config h row key := by
  refine ⟨held, ?_⟩
  intro passes
  rw [settled_stays_silent passes settled ordered idle, untold]
  rintro ⟨told, none_, _⟩
  cases none_

instance (corpus : Corpus) (since : CursorKey) (until_ : Instant) :
    Decidable (owed corpus since until_ = []) :=
  decidable_of_iff _ List.isEmpty_iff

instance (config : EgressConfig) (h : UsageExport) : Decidable (Settled config h) :=
  inferInstanceAs (Decidable (∃ _ ∈ _, _ ∧ _))

/-- Usage of a closed step stays untold where both were there before the anchor, and where the step's
lease comes once both cursors are past. -/
theorem usage_untold :
    (∃ step ∈ attributedStep ((UsageExport.start noRows 0).run shortSettle
        anchoredUsage).egress.corpus (ch1Usage 1 3), step.close.isSome ∧
      NeverTold shortSettle ((UsageExport.start noRows 0).run shortSettle anchoredUsage)
        (ch1Usage 1 3) step.key) ∧
    ∃ step ∈ attributedStep ((UsageExport.start noRows 0).run shortSettle
        unleasedUsage).egress.corpus (ch1Usage 1 3), step.close.isSome ∧
      NeverTold shortSettle ((UsageExport.start noRows 0).run shortSettle unleasedUsage)
        (ch1Usage 1 3) step.key := by
  have ordered (events : List UsageEvent) :
      Ordered shortSettle ((UsageExport.start noRows 0).run shortSettle events).egress :=
    ordered_usage_run (ordered_start noRows 0) events
  constructor
  · have closed : ∃ step ∈ attributedStep ((UsageExport.start noRows 0).run shortSettle
        anchoredUsage).egress.corpus (ch1Usage 1 3), step.close.isSome := by
      decide +kernel
    obtain ⟨step, attributed, isClosed⟩ := closed
    exact ⟨step, attributed, isClosed, never_told (ordered anchoredUsage) ⟨rfl, rfl⟩
      (by decide +kernel) (by decide +kernel) (by decide +kernel)⟩
  · have closed : ∃ step ∈ attributedStep ((UsageExport.start noRows 0).run shortSettle
        unleasedUsage).egress.corpus (ch1Usage 1 3), step.close.isSome := by
      decide +kernel
    obtain ⟨step, attributed, isClosed⟩ := closed
    exact ⟨step, attributed, isClosed, never_told (ordered unleasedUsage) ⟨rfl, rfl⟩
      (by decide +kernel) (by decide +kernel) (by decide +kernel)⟩

end Blizzard.UsageSettling
