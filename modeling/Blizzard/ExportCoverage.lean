import Blizzard.ExportRuns

/-! # No closed step is left behind the cursor

The stored cursor only moves forward, to a position short of what may still be committed. So a
closed step behind it was told by a committed manifest, unless a row came late and found the step
already closed. -/
namespace Blizzard.ExportCoverage
open HubTables TraceSteps ExportWindows WindowDrain LateFacts ExportRuns

variable {config : EgressConfig} {h : Egress}

/-! ## The cursor -/

theorem newestCursor_mem {cursors : List EgressCheckpoint} {row : EgressCheckpoint}
    (newest : newestCursor cursors = some row) : row ∈ cursors := by
  induction cursors using List.reverseRecOn generalizing row with
  | nil => cases newest
  | append_singleton front last ih =>
    rw [newestCursor, List.foldl_append, ← newestCursor, List.foldl_cons, List.foldl_nil] at newest
    split at newest
    next held some_ =>
      split at newest
      · rw [Option.some_inj] at newest
        simp [newest]
      · exact List.mem_append_left _ (ih newest)
    next =>
      rw [Option.some_inj] at newest
      simp [newest]

/-- A row recorded no earlier than the others is the newest. -/
theorem newestCursor_append {cursors : List EgressCheckpoint} {row : EgressCheckpoint}
    (latest : ∀ other ∈ cursors, other.recordedAt ≤ row.recordedAt) :
    newestCursor (cursors ++ [row]) = some row := by
  rw [newestCursor, List.foldl_append, ← newestCursor, List.foldl_cons, List.foldl_nil]
  split
  next held some_ => rw [if_pos (latest held (newestCursor_mem some_))]
  next => rfl

/-- The row that starts the export at an instant, the settle delay before a pass. -/
abbrev anchorRow (config : EgressConfig) (startedAt : Instant) : EgressCheckpoint :=
  { step := CursorKey.opening (startedAt - config.settle)
    usage := { recordedAt := startedAt - config.settle }
    recordedAt := startedAt }

/-- Where a planned cursor stands: no earlier than the one read, and short of what may come. -/
structure PlanOrdered (config : EgressConfig) (clock : Instant) (pass : ExportPass)
    (plan : StepsPassPlan) : Prop where
  forward : ∃ cursor, pass.cursor = some cursor ∧ cursor.step ≤ plan.advanced.step
  short : plan.advanced.step ≤ CursorKey.past (clock - config.settle)
  recorded : plan.advanced.recordedAt = pass.startedAt

def StageOrdered (config : EgressConfig) (clock : Instant) (pass : ExportPass) : PassStage → Prop
  | .begun => True
  | .planned plan | .placed plan | .listed plan => PlanOrdered config clock pass plan

/-- The order of the stored cursors, the clock and the pass in flight. -/
structure Ordered (config : EgressConfig) (h : Egress) : Prop where
  times : ∀ row ∈ h.cursors, row.recordedAt ≤ h.clock
  short : ∀ row ∈ h.cursors, row.step ≤ CursorKey.past (h.clock - config.settle)
  read : ∀ pass ∈ h.pass, pass.cursor = newestCursor h.cursors
  started : ∀ pass ∈ h.pass, pass.startedAt ≤ h.clock
  after : ∀ pass ∈ h.pass, ∀ row ∈ h.cursors, row.recordedAt ≤ pass.startedAt
  stage : ∀ pass ∈ h.pass, StageOrdered config h.clock pass pass.stage

theorem past_le {a b : Instant} (reached : a ≤ b) : CursorKey.past a ≤ CursorKey.past b := by
  rcases lt_or_eq_of_le reached with before | rfl
  · exact (CursorKey.lt_of_at (Int.add_lt_add_right before _)).le
  · exact le_refl _

theorem planned_ordered {pass : ExportPass} {cursor : EgressCheckpoint}
    (usage : List AttributedUsage) (ordered : Ordered config h) (flying : pass ∈ h.pass)
    (read : pass.cursor = some cursor) :
    PlanOrdered config h.clock pass
      (ExportRuns.planned config h.corpus cursor usage pass.startedAt) := by
  obtain ⟨forward, _, bound, _⟩ := readWindow_spec h.corpus cursor.step
    (pass.startedAt - config.settle) config.positive
  have held : cursor ∈ h.cursors :=
    newestCursor_mem ((ordered.read pass flying).symm.trans read)
  refine ⟨⟨cursor, read, forward⟩, ?_, rfl⟩
  rcases bound with still | moved
  · exact still.le.trans (ordered.short cursor held)
  · exact moved.trans (past_le (Int.sub_le_sub_right (ordered.started pass flying) _))

/-- A pass that ends with a row appended leaves the order as it was, with that row the newest. -/
theorem appended_ordered (ordered : Ordered config h) {pass : ExportPass} (flying : pass ∈ h.pass)
    {row : EgressCheckpoint} (from_ : pass.startedAt ≤ row.recordedAt)
    (upTo : row.recordedAt ≤ h.clock)
    (short : row.step ≤ CursorKey.past (h.clock - config.settle)) :
    Ordered config (h.appended row) ∧ newestCursor (h.appended row).cursors = some row := by
  refine ⟨⟨?_, ?_, ?_, ?_, ?_, ?_⟩, ?_⟩
  · intro other held
    rcases List.mem_append.mp held with old | new
    · exact ordered.times other old
    · rw [List.mem_singleton.mp new]
      exact upTo
  · intro other held
    rcases List.mem_append.mp held with old | new
    · exact ordered.short other old
    · rw [List.mem_singleton.mp new]
      exact short
  · intro other held
    cases held
  · intro other held
    cases held
  · intro other held
    cases held
  · intro other held
    cases held
  · apply newestCursor_append
    intro other held
    exact (ordered.after pass flying other held).trans from_

/-- A pass that ends without a row leaves the order as it was. -/
theorem Ordered.ended (ordered : Ordered config h) : Ordered config { h with pass := none } := by
  refine ⟨ordered.times, ordered.short, ?_, ?_, ?_, ?_⟩ <;>
  · intro pass held
    cases held

/-- A pass moves on to a stage that is in order. -/
theorem Ordered.moved (ordered : Ordered config h) {pass : ExportPass} (flying : pass ∈ h.pass)
    {stage : PassStage} {told : List StepKey}
    (next : StageOrdered config h.clock pass stage) :
    Ordered config { h with pass := some { pass with stage }, told } := by
  refine ⟨ordered.times, ordered.short, ?_, ?_, ?_, ?_⟩
  · intro other held
    cases held
    exact ordered.read pass flying
  · intro other held
    cases held
    exact ordered.started pass flying
  · intro other held
    cases held
    exact ordered.after pass flying
  · intro other held
    cases held
    cases stage with
    | begun => trivial
    | planned plan => exact ⟨next.forward, next.short, next.recorded⟩
    | placed plan => exact ⟨next.forward, next.short, next.recorded⟩
    | listed plan => exact ⟨next.forward, next.short, next.recorded⟩

/-- The stored cursor of one state is no earlier than that of another. -/
def Forward (before after : Egress) : Prop :=
  ∀ row ∈ newestCursor before.cursors, ∃ row' ∈ newestCursor after.cursors, row.step ≤ row'.step

theorem Forward.refl (h : Egress) : Forward h h := fun row newest => ⟨row, newest, le_refl _⟩

theorem Forward.same {before after : Egress} (same : after.cursors = before.cursors) :
    Forward before after := by
  intro row newest
  exact ⟨row, by rw [same]; exact newest, le_refl _⟩

theorem planned_forward (ordered : Ordered config h) {pass : ExportPass} (flying : pass ∈ h.pass)
    {plan : StepsPassPlan} (planned : PlanOrdered config h.clock pass plan) {row : EgressCheckpoint}
    (same : row.step = plan.advanced.step)
    (newest : newestCursor (h.appended row).cursors = some row) : Forward h (h.appended row) := by
  intro old held
  obtain ⟨cursor, read, forward⟩ := planned.forward
  have stored := (ordered.read pass flying).symm.trans read
  have it : old = cursor := Option.some_inj.mp (held.symm.trans stored)
  subst it
  exact ⟨row, newest, same ▸ forward⟩

/-- Every event keeps the order and never moves the stored cursor back. -/
theorem ordered_step (ordered : Ordered config h) (event : Event) :
    Ordered config (h.step config event) ∧ Forward h (h.step config event) := by
  cases event with
  | commit row =>
    rw [Egress.step]
    split
    · split
      · refine ⟨⟨ordered.times, ordered.short, ordered.read, ordered.started, ordered.after, ?_⟩,
          .same rfl⟩
        intro pass held
        have stage := ordered.stage pass held
        revert stage
        cases pass.stage <;> exact id
      · exact ⟨ordered, .refl _⟩
    · exact ⟨ordered, .refl _⟩
  | tick elapsed =>
    rw [Egress.step]
    have later : h.clock ≤ h.clock + elapsed := Int.le_add_of_nonneg_right (Int.natCast_nonneg _)
    have bound := past_le (Int.sub_le_sub_right later config.settle)
    refine ⟨⟨fun row held => (ordered.times row held).trans later,
      fun row held => (ordered.short row held).trans bound, ordered.read,
      fun pass held => (ordered.started pass held).trans later, ordered.after, ?_⟩, .same rfl⟩
    intro pass held
    have stage := ordered.stage pass held
    revert stage
    cases pass.stage with
    | begun => exact id
    | planned plan => exact fun p => ⟨p.forward, p.short.trans bound, p.recorded⟩
    | placed plan => exact fun p => ⟨p.forward, p.short.trans bound, p.recorded⟩
    | listed plan => exact fun p => ⟨p.forward, p.short.trans bound, p.recorded⟩
  | begin =>
    rw [Egress.step]
    split
    next =>
      refine ⟨⟨ordered.times, ordered.short, ?_, ?_, ?_, ?_⟩, .same rfl⟩ <;>
        (intro pass held; cases held)
      · rfl
      · exact le_refl _
      · exact ordered.times
      · trivial
    next => exact ⟨ordered, .refl _⟩
  | anchor =>
    rw [Egress.step]
    split
    next startedAt flying =>
      have inFlight : (⟨startedAt, none, .begun⟩ : ExportPass) ∈ h.pass := flying
      have started := ordered.started _ inFlight
      have short : CursorKey.opening (startedAt - config.settle) ≤
          CursorKey.past (h.clock - config.settle) :=
        (CursorKey.lt_of_at (Int.lt_add_one_of_le (Int.sub_le_sub_right started _))).le
      have start : startedAt ≤ (anchorRow config startedAt).recordedAt := le_refl _
      obtain ⟨kept, newest⟩ := appended_ordered ordered inFlight start started short
      refine ⟨⟨kept.times, kept.short, kept.read, kept.started, kept.after, fun _ held => by
        cases held⟩, ?_⟩
      intro row held
      have none_ := ordered.read _ inFlight
      rw [← none_] at held
      cases held
    next => exact ⟨ordered, .refl _⟩
  | read usage =>
    rw [Egress.step]
    split
    next startedAt cursor flying =>
      have inFlight : (⟨startedAt, some cursor, .begun⟩ : ExportPass) ∈ h.pass := flying
      exact ⟨ordered.moved inFlight (planned_ordered usage ordered inFlight rfl), .same rfl⟩
    next => exact ⟨ordered, .refl _⟩
  | write ok =>
    rw [Egress.step]
    split
    next startedAt cursor plan flying =>
      have inFlight : (⟨startedAt, cursor, .planned plan⟩ : ExportPass) ∈ h.pass := flying
      have planned : PlanOrdered config h.clock _ plan := ordered.stage _ inFlight
      split
      · split
        · obtain ⟨kept, newest⟩ := appended_ordered ordered inFlight planned.recorded.ge
            (planned.recorded.le.trans (ordered.started _ inFlight)) planned.short
          exact ⟨kept, planned_forward ordered inFlight planned rfl newest⟩
        · exact ⟨ordered.ended, .same rfl⟩
      · split
        · have moved : Ordered config { h with pass := some ⟨startedAt, cursor, .placed plan⟩ } :=
            ordered.moved inFlight planned
          exact ⟨moved, .same rfl⟩
        · exact ⟨ordered.ended, .same rfl⟩
    next => exact ⟨ordered, .refl _⟩
  | list_ ok =>
    rw [Egress.step]
    split
    next startedAt cursor plan flying =>
      have inFlight : (⟨startedAt, cursor, .placed plan⟩ : ExportPass) ∈ h.pass := flying
      have planned : PlanOrdered config h.clock _ plan := ordered.stage _ inFlight
      split
      · have listed : StageOrdered config h.clock _ (.listed plan) := planned
        exact ⟨ordered.moved inFlight listed, .same rfl⟩
      · exact ⟨ordered.ended, .same rfl⟩
    next => exact ⟨ordered, .refl _⟩
  | append ok =>
    rw [Egress.step]
    split
    next startedAt cursor plan flying =>
      have inFlight : (⟨startedAt, cursor, .listed plan⟩ : ExportPass) ∈ h.pass := flying
      have planned : PlanOrdered config h.clock _ plan := ordered.stage _ inFlight
      split
      · set row : EgressCheckpoint := { plan.advanced with recordedAt := h.clock } with hrow
        have start : startedAt ≤ row.recordedAt := ordered.started _ inFlight
        obtain ⟨kept, newest⟩ := appended_ordered ordered inFlight start (le_refl _) planned.short
        exact ⟨kept, planned_forward ordered inFlight planned rfl newest⟩
      · exact ⟨ordered.ended, .same rfl⟩
    next => exact ⟨ordered, .refl _⟩
  | crash => exact ⟨ordered.ended, .same rfl⟩

/-! ## What stands behind a position -/

/-- Every step closed at or before a position is among the steps named. -/
def Behind (corpus : Corpus) (position : CursorKey) (steps : List StepKey) : Prop :=
  ∀ chunk, ∀ step ∈ identifySteps (stepFactsFor corpus chunk), ∀ close ∈ step.close,
    CursorKey.of step close ≤ position → step.key ∈ steps

theorem Behind.mono {corpus : Corpus} {position : CursorKey} {steps more : List StepKey}
    (behind : Behind corpus position steps) (subset : steps ⊆ more) :
    Behind corpus position more :=
  fun chunk step held close closed before => subset (behind chunk step held close closed before)

theorem step_fields {facts : StepFacts} {step : NodeStep} (held : step ∈ identifySteps facts) :
    step.epoch = step.key.epoch ∧ step.decisionId = step.key.decisionId := by
  rcases mem_identifySteps.mp held with attempt | gate
  · obtain ⟨epoch, owner, minted, _, _, _, rfl⟩ := mem_attemptSteps.mp attempt
    exact ⟨rfl, rfl⟩
  · obtain ⟨d, _, rfl⟩ := List.mem_map.mp gate
    exact ⟨rfl, rfl⟩

/-- A closed step of the corpus is an item of it, of a named chunk. -/
theorem closed_item {corpus : Corpus} {chunk : ChunkId} {step : NodeStep} {close : StepClose}
    (held : step ∈ identifySteps (stepFactsFor corpus chunk)) (closed : step.close = some close) :
    TraceItem.closedStep (CursorKey.of step close) step (stepFactsFor corpus chunk) ∈
      corpusItems corpus := by
  obtain ⟨fact, hfact, _⟩ := step_close held closed
  obtain ⟨row, hrow, _⟩ := List.mem_map.mp hfact
  obtain ⟨stored, mine⟩ := List.mem_filter.mp hrow
  rw [mem_corpusItems]
  refine ⟨row, stored, ?_⟩
  rw [of_decide_eq_true mine]
  exact List.mem_append_left _ (mem_closedSteps.mpr ⟨step, held, close, closed, rfl⟩)

/-- A key of a named chunk at or before the end of an instant is of that instant or earlier. -/
theorem at_le_of_le_past {key : CursorKey} {at_ : Instant} (named : key.chunkId ≠ "")
    (before : key ≤ CursorKey.past at_) : key.at_ ≤ at_ := by
  by_contra later
  have reached : at_ + microsecond ≤ key.at_ := not_le.mp later
  exact absurd (CursorKey.opening_lt named reached) (not_lt.mpr before)

theorem insert_rows {corpus after : Corpus} {row : FactRow}
    (inserted : Corpus.insert corpus row = some after) : after.rows = corpus.rows ++ [row] := by
  rw [Corpus.insert] at inserted
  split at inserted
  next => rw [← Option.some_inj.mp inserted]
  next => cases inserted

theorem stepFactsFor_insert {corpus after : Corpus} {row : FactRow}
    (inserted : Corpus.insert corpus row = some after) (chunk : ChunkId) :
    stepFactsFor after chunk = if chunk = row.chunkId then
      StepFacts.add (stepFactsFor corpus chunk) row.fact else stepFactsFor corpus chunk := by
  rw [stepFactsFor, insert_rows inserted, List.filter_append, List.map_append]
  split
  next same =>
    rw [StepFacts.add, stepFactsFor]
    simp [same]
  next differs =>
    rw [stepFactsFor]
    simp [Ne.symm differs]

/-- A prompt row committed in time leaves what stands behind a short position as it was. -/
theorem Behind.commit {corpus after : Corpus} {row : FactRow} {position : CursorKey}
    {steps : List StepKey} {bound : Instant} (behind : Behind corpus position steps)
    (inserted : Corpus.insert corpus row = some after)
    (prompt : Prompt (stepFactsFor corpus row.chunkId) row.fact)
    (short : position ≤ CursorKey.past bound) (late : bound < row.at_) :
    Behind after position steps := by
  intro chunk step held close closed before
  have item := closed_item held closed
  have named := (corpus_item_closedBy item).2.1
  have early : close.at_ ≤ bound := at_le_of_le_past named (before.trans short)
  rw [stepFactsFor_insert inserted] at held
  split at held
  next same =>
    subst same
    obtain ⟨was, hwas, key, first, hfirst, least⟩ :=
      prompt step held close closed (early.trans_lt late)
    rw [← key]
    apply behind row.chunkId was hwas first hfirst
    refine le_trans ?_ before
    obtain ⟨epoch, decision⟩ := step_fields held
    obtain ⟨epoch', decision'⟩ := step_fields hwas
    rcases lt_or_eq_of_le least with strictly | same
    · exact (CursorKey.lt_of_at strictly).le
    · apply le_of_eq
      rw [CursorKey.of, CursorKey.of, same, epoch, epoch', decision, decision', key]
  next => exact behind chunk step held close closed before

/-! ## What a plan tells -/

/-- The steps of a batch. -/
def named (batch : StepBatch) : List StepKey := batch.map (·.1)

theorem addStep_keys {batch : StepBatch} {key : StepKey} {cursor : CursorKey} :
    key ∈ named (addStep batch key cursor) ∧ named batch ⊆ named (addStep batch key cursor) := by
  rw [addStep]
  split
  next held =>
    refine ⟨?_, List.Subset.refl _⟩
    obtain ⟨entry, inside, same⟩ := List.any_eq_true.mp held
    exact List.mem_map.mpr ⟨entry, inside, of_decide_eq_true same⟩
  next => simp [named]

theorem foldl_subset {α : Type} (add : StepBatch → α → StepBatch)
    (grows : ∀ batch a, named batch ⊆ named (add batch a)) (entries : List α)
    (batch : StepBatch) : named batch ⊆ named (entries.foldl add batch) := by
  induction entries generalizing batch with
  | nil => exact List.Subset.refl _
  | cons a rest ih => exact List.Subset.trans (grows batch a) (ih _)

theorem windowStepRows_keys {window : TraceWindow} {key : CursorKey} {step : NodeStep}
    {facts : StepFacts} (held : .closedStep key step facts ∈ window.items) :
    step.key ∈ named (windowStepRows window) := by
  obtain ⟨front, back, parts⟩ := List.append_of_mem held
  rw [windowStepRows, parts, List.foldl_append, List.foldl_cons]
  refine foldl_subset _ ?_ back _ addStep_keys.1
  intro batch item
  cases item with
  | closedStep key step facts => exact addStep_keys.2
  | finishedChunk key facts completion => exact List.Subset.refl _

theorem addRetold_keys (facts : ChunkId → Option StepFacts) (position : CursorKey)
    (batch : StepBatch) (usage : AttributedUsage) :
    named batch ⊆ named (addRetold facts position batch usage) := by
  rw [addRetold]
  split
  · exact List.Subset.refl _
  · split
    · exact List.Subset.refl _
    · dsimp only
      split
      · exact addStep_keys.2
      · exact List.Subset.refl _

theorem mem_named_rows {cursor : EgressCheckpoint} {window : TraceWindow}
    {usage : List AttributedUsage} {facts : ChunkId → Option StepFacts} {now : Instant}
    {key : StepKey} : key ∈ named (planStepsPass cursor window usage facts now).rows ↔
      key ∈ named (usage.foldl (addRetold facts window.position) (windowStepRows window)) :=
  ((List.perm_insertionSort _ _).map _).mem_iff

theorem plan_keys {cursor : EgressCheckpoint} {window : TraceWindow}
    {usage : List AttributedUsage} {facts : ChunkId → Option StepFacts} {now : Instant}
    {key : CursorKey} {step : NodeStep} {chunk : StepFacts}
    (held : .closedStep key step chunk ∈ window.items) :
    step.key ∈ named (planStepsPass cursor window usage facts now).rows :=
  mem_named_rows.mpr (foldl_subset _ (addRetold_keys facts window.position) usage _
    (windowStepRows_keys held))

/-- A plan names every step closed past the cursor and up to its position. -/
theorem planned_keys {corpus : Corpus} {cursor : EgressCheckpoint} {chunk : ChunkId}
    {step : NodeStep} {close : StepClose} (usage : List AttributedUsage) (now : Instant)
    (held : step ∈ identifySteps (stepFactsFor corpus chunk)) (closed : step.close = some close)
    (after : cursor.step < CursorKey.of step close)
    (before : CursorKey.of step close ≤
      (ExportRuns.planned config corpus cursor usage now).advanced.step) :
    step.key ∈ named (ExportRuns.planned config corpus cursor usage now).rows := by
  obtain ⟨_, split, bound, _⟩ := readWindow_spec corpus cursor.step (now - config.settle)
    config.positive
  have position : (ExportRuns.planned config corpus cursor usage now).advanced.step =
      (readWindow corpus cursor.step (now - config.settle) config.batchLimit).position := rfl
  rw [position] at before
  have item := closed_item held closed
  have named := (corpus_item_closedBy item).2.1
  have low : close.at_ ≤ now - config.settle := by
    rcases bound with still | short
    · exact absurd (still ▸ before) (not_le.mpr after)
    · exact at_le_of_le_past named (before.trans short)
  have listed : TraceItem.closedStep (CursorKey.of step close) step (stepFactsFor corpus chunk) ∈
      owed corpus cursor.step (now - config.settle) :=
    List.mem_filter.mpr ⟨item, decide_eq_true ⟨after, low⟩⟩
  rw [split, List.mem_append] at listed
  rcases listed with told | left
  · exact plan_keys told
  · have beyond := (of_decide_eq_true (List.mem_filter.mp left).2).1
    exact absurd before (not_le.mpr beyond)

/-- A plan names every step closed up to its position that was not named before. -/
theorem planned_behind {corpus : Corpus} {cursor : EgressCheckpoint} {steps : List StepKey}
    (behind : Behind corpus cursor.step steps) (usage : List AttributedUsage) (now : Instant) :
    let plan := ExportRuns.planned config corpus cursor usage now
    Behind corpus plan.advanced.step (steps ++ named plan.rows) := by
  intro plan chunk step held close closed before
  rcases lt_or_ge cursor.step (CursorKey.of step close) with after | already
  · exact List.mem_append_right _ (planned_keys usage now held closed after before)
  · exact List.mem_append_left _ (behind chunk step held close closed already)

/-! ## Every run -/

/-- What the plan of a pass in flight leaves behind its position. -/
def StageCovered (h : Egress) : PassStage → Prop
  | .begun => True
  | .planned plan | .placed plan =>
    Behind h.corpus plan.advanced.step (h.told ++ h.waived ++ named plan.rows)
  | .listed plan => Behind h.corpus plan.advanced.step (h.told ++ h.waived)

/-- Every closed step behind the stored cursor is told or waived, and the pass in flight keeps it
so. -/
structure Covered (h : Egress) : Prop where
  stored : ∀ row ∈ newestCursor h.cursors, Behind h.corpus row.step (h.told ++ h.waived)
  stage : ∀ pass ∈ h.pass, StageCovered h pass.stage

/-- A row committed in time that identifies a step is prompt. -/
def PromptEvent (config : EgressConfig) (h : Egress) : Event → Prop
  | .commit row => h.clock < row.at_ + config.settle → identifies row.fact = true →
    Prompt (stepFactsFor h.corpus row.chunkId) row.fact
  | _ => True

/-- Every identifying row of a run is prompt where it is committed. -/
def PromptRun (config : EgressConfig) : Egress → List Event → Prop
  | _, [] => True
  | h, event :: rest => PromptEvent config h event ∧ PromptRun config (h.step config event) rest

theorem prompt_of_event {row : FactRow} (prompt : PromptEvent config h (.commit row))
    (timely : h.clock < row.at_ + config.settle) :
    Prompt (stepFactsFor h.corpus row.chunkId) row.fact := by
  cases identified : identifies row.fact with
  | true => exact prompt timely identified
  | false => exact prompt_of_other _ identified

/-- A prompt commit leaves what is covered as it was. -/
theorem Covered.commit (covered : Covered h) (ordered : Ordered config h) {row : FactRow}
    (timely : h.clock < row.at_ + config.settle)
    (prompt : Prompt (stepFactsFor h.corpus row.chunkId) row.fact) {corpus : Corpus}
    (inserted : Corpus.insert h.corpus row = some corpus) : Covered { h with corpus } := by
  have late : h.clock - config.settle < row.at_ := Int.sub_lt_iff.mpr timely
  constructor
  · intro stored newest
    exact (covered.stored stored newest).commit inserted prompt
      (ordered.short stored (newestCursor_mem newest)) late
  · intro pass flying
    have order := ordered.stage pass flying
    have stage := covered.stage pass flying
    revert order stage
    cases pass.stage with
    | begun => exact fun _ => id
    | planned plan => exact fun order stage => stage.commit inserted prompt order.short late
    | placed plan => exact fun order stage => stage.commit inserted prompt order.short late
    | listed plan => exact fun order stage => stage.commit inserted prompt order.short late

/-- A pass that ends with a row appended covers what stands behind that row. -/
theorem Covered.appended {row : EgressCheckpoint}
    (newest : newestCursor (h.appended row).cursors = some row)
    (behind : Behind h.corpus row.step (h.told ++ h.waived)) : Covered (h.appended row) := by
  constructor
  · intro stored held
    rw [newest] at held
    rw [← Option.some_inj.mp held]
    exact behind
  · intro pass held
    cases held

theorem Covered.ended (covered : Covered h) : Covered { h with pass := none } := by
  refine ⟨covered.stored, ?_⟩
  intro pass held
  cases held

theorem mem_closedBy {corpus : Corpus} {position : CursorKey} {key : StepKey} :
    key ∈ closedBy corpus position ↔ ∃ cursor step facts,
      TraceItem.closedStep cursor step facts ∈ corpusItems corpus ∧ cursor ≤ position ∧
        step.key = key := by
  rw [closedBy, List.mem_filterMap]
  constructor
  · rintro ⟨item, held, kept⟩
    cases item with
    | closedStep cursor step facts =>
      dsimp only at kept
      split at kept
      next before => exact ⟨cursor, step, facts, held, before, Option.some_inj.mp kept⟩
      next => cases kept
    | finishedChunk cursor facts completion => cases kept
  · rintro ⟨cursor, step, facts, held, before, same⟩
    exact ⟨_, held, by simp [before, same]⟩

theorem covered_step (covered : Covered h) (ordered : Ordered config h) {event : Event}
    (prompt : PromptEvent config h event) : Covered (h.step config event) := by
  cases event with
  | commit row =>
    rw [Egress.step]
    split
    next timely =>
      split
      next corpus inserted =>
        exact covered.commit ordered timely (prompt_of_event prompt timely) inserted
      next => exact covered
    next => exact covered
  | tick elapsed =>
    refine ⟨covered.stored, ?_⟩
    intro pass flying
    have stage := covered.stage pass flying
    revert stage
    cases pass.stage <;> exact id
  | begin =>
    rw [Egress.step]
    split
    · refine ⟨covered.stored, ?_⟩
      intro pass held
      cases held
      trivial
    · exact covered
  | anchor =>
    rw [Egress.step]
    split
    next startedAt flying =>
      have inFlight : (⟨startedAt, none, .begun⟩ : ExportPass) ∈ h.pass := flying
      have started := ordered.started _ inFlight
      have short : CursorKey.opening (startedAt - config.settle) ≤
          CursorKey.past (h.clock - config.settle) :=
        (CursorKey.lt_of_at (Int.lt_add_one_of_le (Int.sub_le_sub_right started _))).le
      have start : startedAt ≤ (anchorRow config startedAt).recordedAt := le_refl _
      obtain ⟨_, newest⟩ := appended_ordered ordered inFlight start started short
      constructor
      · intro row held
        have it : anchorRow config startedAt = row :=
          Option.some_inj.mp (newest.symm.trans held)
        subst it
        intro chunk step inside close closed before
        exact List.mem_append_right _
          (mem_closedBy.mpr ⟨_, _, _, closed_item inside closed, before, rfl⟩)
      · intro pass held
        cases held
    next => exact covered
  | read usage =>
    rw [Egress.step]
    split
    next startedAt cursor flying =>
      have inFlight : (⟨startedAt, some cursor, .begun⟩ : ExportPass) ∈ h.pass := flying
      have stored := covered.stored cursor (ordered.read _ inFlight).symm
      refine ⟨covered.stored, ?_⟩
      intro pass held
      cases held
      exact planned_behind stored usage startedAt
    next => exact covered
  | write ok =>
    rw [Egress.step]
    split
    next startedAt cursor plan flying =>
      have inFlight : (⟨startedAt, cursor, .planned plan⟩ : ExportPass) ∈ h.pass := flying
      have planned : PlanOrdered config h.clock _ plan := ordered.stage _ inFlight
      have behind : Behind h.corpus plan.advanced.step (h.told ++ h.waived ++ named plan.rows) :=
        covered.stage _ inFlight
      split
      next empty =>
        split
        · obtain ⟨_, newest⟩ := appended_ordered ordered inFlight planned.recorded.ge
            (planned.recorded.le.trans (ordered.started _ inFlight)) planned.short
          apply Covered.appended newest
          rw [empty, named, List.map_nil, List.append_nil] at behind
          exact behind
        · exact covered.ended
      next =>
        split
        · refine ⟨covered.stored, ?_⟩
          intro pass held
          cases held
          exact behind
        · exact covered.ended
    next => exact covered
  | list_ ok =>
    rw [Egress.step]
    split
    next startedAt cursor plan flying =>
      have inFlight : (⟨startedAt, cursor, .placed plan⟩ : ExportPass) ∈ h.pass := flying
      have behind : Behind h.corpus plan.advanced.step (h.told ++ h.waived ++ named plan.rows) :=
        covered.stage _ inFlight
      split
      · constructor
        · intro row newest
          apply (covered.stored row newest).mono
          intro key inside
          simp only [List.mem_append] at inside ⊢
          tauto
        · intro pass held
          cases held
          apply behind.mono
          intro key inside
          simp only [List.mem_append] at inside ⊢
          tauto
      · exact covered.ended
    next => exact covered
  | append ok =>
    rw [Egress.step]
    split
    next startedAt cursor plan flying =>
      have inFlight : (⟨startedAt, cursor, .listed plan⟩ : ExportPass) ∈ h.pass := flying
      have planned : PlanOrdered config h.clock _ plan := ordered.stage _ inFlight
      have behind : Behind h.corpus plan.advanced.step (h.told ++ h.waived) :=
        covered.stage _ inFlight
      split
      · set row : EgressCheckpoint := { plan.advanced with recordedAt := h.clock } with hrow
        have start : startedAt ≤ row.recordedAt := ordered.started _ inFlight
        obtain ⟨_, newest⟩ := appended_ordered ordered inFlight start (le_refl _) planned.short
        exact Covered.appended newest behind
      · exact covered.ended
    next => exact covered
  | crash => exact covered.ended

/-- An export that has not begun. -/
def Egress.start (corpus : Corpus) (clock : Instant) : Egress := { corpus, clock }

theorem ordered_start (corpus : Corpus) (clock : Instant) :
    Ordered config (Egress.start corpus clock) := by
  constructor <;>
  · intro row held
    cases held

theorem covered_start (corpus : Corpus) (clock : Instant) :
    Covered (Egress.start corpus clock) := by
  constructor <;>
  · intro row held
    cases held

theorem ordered_run (ordered : Ordered config h) (events : List Event) :
    Ordered config (h.run config events) ∧ Forward h (h.run config events) := by
  induction events generalizing h with
  | nil => exact ⟨ordered, .refl h⟩
  | cons event rest ih =>
    obtain ⟨kept, forward⟩ := ordered_step ordered event
    obtain ⟨kept', forward'⟩ := ih kept
    refine ⟨kept', ?_⟩
    intro row newest
    obtain ⟨next, newest', first⟩ := forward row newest
    obtain ⟨last, newest'', second⟩ := forward' next newest'
    exact ⟨last, newest'', first.trans second⟩

theorem covered_run (covered : Covered h) (ordered : Ordered config h) {events : List Event}
    (prompt : PromptRun config h events) : Covered (h.run config events) := by
  induction events generalizing h with
  | nil => exact covered
  | cons event rest ih =>
    exact ih (covered_step covered ordered prompt.1) (ordered_step ordered event).1 prompt.2

/-- Draining ends, and tells every item after the key up to the instant once, in key order. In a
run of passes, each free to fail or stop anywhere, the stored cursor never moves back, and where
every identifying row came promptly each closed step behind it is told by a committed manifest or
was closed behind the anchor the export began at. -/
theorem window_export_tells (config : EgressConfig) (corpus : Corpus) :
    (∀ since until_, ∃ n, ∀ fuel ≥ n, ∃ items,
      drain corpus until_ config.batchLimit fuel since = some items ∧
        items.Pairwise (fun a b => a.key < b.key) ∧
        ∀ item, item ∈ items ↔ (∃ row ∈ corpus.rows,
          item ∈ itemsOf (stepFactsFor corpus row.chunkId)) ∧
          since < item.key ∧ item.key.at_ ≤ until_) ∧
    ∀ clock events, let h := (Egress.start corpus clock).run config events
      (∀ more, Forward h (h.run config more)) ∧
      (PromptRun config (Egress.start corpus clock) events →
        ∀ row ∈ newestCursor h.cursors, Behind h.corpus row.step (h.told ++ h.waived)) := by
  constructor
  · intro since until_
    refine ⟨ahead corpus since until_ + 1, ?_⟩
    intro fuel enough
    refine ⟨owed corpus since until_, ?_, owed_sorted corpus since until_, ?_⟩
    · exact drain_eq corpus until_ config.positive fuel since enough
    · intro item
      rw [owed, List.mem_filter, mem_corpusItems, decide_eq_true_iff]
  · intro clock events h
    have start : Ordered config (Egress.start corpus clock) := ordered_start corpus clock
    have order := (ordered_run start events).1
    refine ⟨fun more => (ordered_run order more).2, ?_⟩
    intro prompt row newest
    exact (covered_run (covered_start corpus clock) start prompt).stored row newest

instance (config : EgressConfig) (h : Egress) (event : Event) :
    Decidable (PromptEvent config h event) :=
  match event with
  | .commit _ => inferInstanceAs (Decidable (_ → _ → _))
  | .tick _ | .begin | .anchor | .read _ | .write _ | .list_ _ | .append _ | .crash =>
    inferInstanceAs (Decidable True)

instance decidablePromptRun (config : EgressConfig) :
    ∀ h events, Decidable (PromptRun config h events)
  | _, [] => inferInstanceAs (Decidable True)
  | h, event :: rest =>
    have := decidablePromptRun config (h.step config event) rest
    inferInstanceAs (Decidable (_ ∧ _))

/-- A read of a hundred rows, ten microseconds behind the clock. -/
def shortSettle : EgressConfig := ⟨10, 100, by decide⟩

def noRows : Corpus := ⟨[], List.nodup_nil, List.nodup_nil⟩

def ch1Row (rowId : ℕ) (fact : Fact) : FactRow := ⟨rowId, "ch_1", by decide, fact⟩

def ch1Owner : Event := .commit (ch1Row 1 (.owner ⟨1, some "rn_1", 1⟩))
def ch1Escalation : Event := .commit (ch1Row 1 (.escalation ⟨1, 2, none⟩))
def ch1Lease (mintedAt : Instant) : Event := .commit (ch1Row 1 (.lease ⟨1, mintedAt⟩))

/-- An attempt that is minted, closed and told. -/
def promptLease : List Event :=
  [.begin, .anchor, ch1Owner, ch1Lease 1, ch1Escalation, .tick 20, .begin, .read [], .write true,
    .list_ true, .append true]

theorem prompt_lease_told :
    let h := (Egress.start noRows 0).run shortSettle promptLease
    h.told = [⟨"ch_1", 1, none⟩] ∧ h.cursors.length = 2 ∧
      ∀ row ∈ newestCursor h.cursors, Behind h.corpus row.step (h.told ++ h.waived) :=
  ⟨by decide +kernel, by decide +kernel,
    ((window_export_tells shortSettle noRows).2 0 promptLease).2 (by decide +kernel)⟩

/-- A pass moves past an escalation at an epoch with no lease; the lease comes in time after it. -/
def lateLease : List Event :=
  [.begin, .anchor, ch1Owner, ch1Escalation, .tick 20, .begin, .read [], .write true, .tick 2,
    ch1Lease 22]

theorem late_lease_untold :
    let h := (Egress.start noRows 0).run shortSettle lateLease
    h.corpus.rows.length = 3 ∧
      ∃ row ∈ newestCursor h.cursors, ¬Behind h.corpus row.step (h.told ++ h.waived) := by
  have stored : ((Egress.start noRows 0).run shortSettle lateLease).corpus.rows.length = 3 ∧
      ∃ row ∈ newestCursor ((Egress.start noRows 0).run shortSettle lateLease).cursors,
        ∃ step ∈ identifySteps (stepFactsFor
            ((Egress.start noRows 0).run shortSettle lateLease).corpus "ch_1"),
          ∃ close ∈ step.close, CursorKey.of step close ≤ row.step ∧
            step.key ∉ ((Egress.start noRows 0).run shortSettle lateLease).told ++
              ((Egress.start noRows 0).run shortSettle lateLease).waived := by
    decide +kernel
  obtain ⟨committed, row, newest, step, held, close, closed, before, untold⟩ := stored
  exact ⟨committed, row, newest, fun behind => untold (behind _ step held close closed before)⟩

end Blizzard.ExportCoverage
