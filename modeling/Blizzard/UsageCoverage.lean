import Blizzard.LateUsage

/-! # Late usage is told

A usage row behind the usage cursor, of a runner step closed behind the step cursor, is in an exported
row of that step: a step told before the row came is told again when the row is read, and a step
told after carries it. -/
namespace Blizzard.UsageCoverage
open HubTables TraceSteps ExportWindows WindowDrain LateFacts SortedRanks ExportRuns ExportCoverage
  LateUsage

variable {config : EgressConfig} {h : UsageExport} {corpus : Corpus} {row : AttributedUsage}
  {usage : List AttributedUsage} {step : NodeStep} {close : StepClose}

/-! ## The usage read -/

theorem position_lt_of_recorded {a b : ExportRuns.UsagePosition}
    (earlier : a.recordedAt < b.recordedAt) : a < b :=
  Prod.Lex.toLex_lt_toLex.mpr (.inl earlier)

theorem recorded_le {a b : ExportRuns.UsagePosition} (before : a ≤ b) :
    a.recordedAt ≤ b.recordedAt := by
  by_contra later
  exact absurd (position_lt_of_recorded (not_le.mp later)) (not_lt.mpr before)

theorem mem_usageAfter {position : ExportRuns.UsagePosition} {until_ : Instant} {limit : ℕ}
    (held : row ∈ usageAfter usage position until_ limit) :
    row ∈ usage ∧ position < usagePosition row ∧ row.recordedAt ≤ until_ := by
  have inside := mem_ranked.mp (List.mem_of_mem_take held)
  obtain ⟨stored, test⟩ := List.mem_filter.mp inside
  rw [Bool.and_eq_true, decide_eq_true_eq, decide_eq_true_eq] at test
  exact ⟨stored, test⟩

/-- A row recorded after the read's end leaves the read as it was. -/
theorem usageAfter_append {until_ : Instant} (late : until_ < row.recordedAt)
    (position : ExportRuns.UsagePosition) (limit : ℕ) :
    usageAfter (usage ++ [row]) position until_ limit = usageAfter usage position until_ limit := by
  rw [usageAfter, usageAfter, List.filter_append, List.filter_cons_of_neg (by simp [late]),
    List.filter_nil, List.append_nil]

/-- A read holds every row up to its last. -/
theorem usageAfter_covers (ids : (usage.map (·.usageId)).Nodup)
    {position : ExportRuns.UsagePosition} {until_ : Instant} {limit : ℕ} {last : AttributedUsage}
    (isLast : (usageAfter usage position until_ limit).getLast? = some last) (held : row ∈ usage)
    (past : position < usagePosition row) (upTo : usagePosition row ≤ usagePosition last) :
    row ∈ usageAfter usage position until_ limit := by
  obtain ⟨_, _, low⟩ := mem_usageAfter (List.mem_of_getLast? isLast)
  have inside : row ∈ ranked usagePosition (usage.filter fun row =>
      decide (position < usagePosition row) && decide (row.recordedAt ≤ until_)) := by
    rw [mem_ranked, List.mem_filter, Bool.and_eq_true, decide_eq_true_eq, decide_eq_true_eq]
    exact ⟨held, past, (recorded_le upTo).trans low⟩
  have keys : ((usage.filter fun row =>
      decide (position < usagePosition row) && decide (row.recordedAt ≤ until_)).map
        usagePosition).Nodup := by
    refine List.pairwise_map.mpr
      (((List.pairwise_map.mp ids).sublist List.filter_sublist).imp ?_)
    intro a b differ same
    exact differ (congrArg (·.usageId) same)
  have sorted := ranked_strict keys
  rw [usageAfter] at isLast ⊢
  rw [← List.take_append_drop limit (ranked usagePosition _)] at inside sorted
  rcases List.mem_append.mp inside with front | back
  · exact front
  · have less := (List.pairwise_append.mp sorted).2.2 last (List.mem_of_getLast? isLast) row back
    exact absurd upTo (not_le.mpr less)

theorem mem_usageOf {key : StepKey} (attempt : key.decisionId = none) :
    row ∈ usageOf usage key ↔ row ∈ usage ∧ row.chunkId = key.chunkId ∧ row.epoch = key.epoch := by
  rw [usageOf, attempt, if_neg (by simp), List.mem_insertionSort, List.mem_filter,
    decide_eq_true_eq]

/-! ## The step of a usage row -/

/-- An epoch of a chunk has one owner row. -/
def OwnedOnce (corpus : Corpus) : Prop :=
  ∀ chunk, ((stepFactsFor corpus chunk).epochOwners.map (·.epoch)).Nodup

/-- A fold that takes each row or keeps what it had ends on a row, or where it began. -/
theorem foldl_mem {α : Type} {step : Option α → α → Option α} {last : α}
    (keeps : ∀ best row, step best row = some row ∨ step best row = best) (rows : List α)
    (best : Option α) (folded : rows.foldl step best = some last) :
    last ∈ rows ∨ best = some last := by
  induction rows generalizing best with
  | nil => exact .inr folded
  | cons row rest ih =>
    rcases ih _ folded with later | now
    · exact .inl (List.mem_cons_of_mem _ later)
    · rcases keeps best row with took | kept
      · rw [took] at now
        exact .inl (Option.some_inj.mp now ▸ List.mem_cons_self)
      · exact .inr (kept.symm.trans now)

theorem ownerOf_mem {facts : StepFacts} {epoch : ℕ} {owner : TracedEpochOwner}
    (owned : ownerOf facts epoch = some owner) :
    owner ∈ facts.epochOwners ∧ owner.epoch = epoch := by
  rw [ownerOf] at owned
  have inside := (foldl_mem (fun best row => ?_) _ _ owned).resolve_right (Option.some_ne_none owner).symm
  · obtain ⟨held, same⟩ := List.mem_filter.mp inside
    exact ⟨held, of_decide_eq_true same⟩
  · cases best with
    | none => exact .inl rfl
    | some held =>
      by_cases newer : row.recordedAt ≤ held.recordedAt
      · exact .inl (if_pos newer)
      · exact .inr (if_neg newer)

/-- A runner step is an attempt of its epoch, owned by a runner. -/
theorem runner_attempt {facts : StepFacts} (held : step ∈ identifySteps facts)
    (runner : step.kind = .runner) : step ∈ attemptSteps facts ∧ step.key.decisionId = none ∧
      step.key.epoch = step.epoch ∧ step.key.chunkId = facts.chunkId ∧
      ∃ owner, ownerOf facts step.epoch = some owner ∧ owner.runnerId.isNone = false := by
  rcases mem_identifySteps.mp held with attempt | gate
  · refine ⟨attempt, ?_⟩
    obtain ⟨epoch, owner, minted, _, owned, _, rfl⟩ := mem_attemptSteps.mp attempt
    refine ⟨rfl, rfl, rfl, owner, owned, ?_⟩
    cases none_ : owner.runnerId.isNone with
    | false => rfl
    | true => simp [none_] at runner
  · obtain ⟨d, _, rfl⟩ := List.mem_map.mp gate
    cases runner

theorem attempt_unique {facts : StepFacts} {a b : NodeStep} (ofA : a ∈ attemptSteps facts)
    (ofB : b ∈ attemptSteps facts) (same : a.epoch = b.epoch) : a = b := by
  obtain ⟨epoch, owner, minted, _, owned, least, rfl⟩ := mem_attemptSteps.mp ofA
  obtain ⟨epoch', owner', minted', _, owned', least', rfl⟩ := mem_attemptSteps.mp ofB
  have epochs : epoch = epoch' := same
  subst epochs
  obtain rfl := Option.some_inj.mp (owned.symm.trans owned')
  obtain rfl := Option.some_inj.mp (least.symm.trans least')
  rfl

theorem mem_attributedStep : step ∈ attributedStep corpus row ↔
    step ∈ identifySteps (stepFactsFor corpus row.chunkId) ∧ step.kind = .runner ∧
      step.epoch = row.epoch := by
  rw [Option.mem_def, attributedStep, runnerStep]
  constructor
  · intro found
    have test := List.find?_some found
    rw [decide_eq_true_eq] at test
    exact ⟨List.mem_of_find?_eq_some found, test⟩
  · rintro ⟨held, runner, epoch⟩
    cases found : (identifySteps (stepFactsFor corpus row.chunkId)).find? fun step =>
        step.kind = .runner ∧ step.epoch = row.epoch with
    | none =>
      have outside := List.find?_eq_none.mp found step held
      simp [runner, epoch] at outside
    | some other =>
      have test := List.find?_some found
      rw [decide_eq_true_eq] at test
      have inside := List.mem_of_find?_eq_some found
      rw [attempt_unique (runner_attempt inside test.1).1 (runner_attempt held runner).1
        (test.2.trans epoch.symm)]

/-- A prompt row committed in time finds each early attributed step attributed and closed as early
before. -/
theorem attributed_commit {after : Corpus} {fact : FactRow}
    (inserted : Corpus.insert corpus fact = some after) (once : OwnedOnce after)
    (prompt : Prompt (stepFactsFor corpus fact.chunkId) fact.fact)
    (held : step ∈ attributedStep after row) (closed : step.close = some close)
    (early : close.at_ < fact.at_) : ∃ was ∈ attributedStep corpus row, was.key = step.key ∧
      ∃ first, was.close = some first ∧ CursorKey.of was first ≤ CursorKey.of step close := by
  obtain ⟨inside, runner, epoch⟩ := mem_attributedStep.mp held
  have attempt := runner_attempt inside runner
  rw [stepFactsFor_insert inserted] at inside attempt
  split at inside
  next same =>
    rw [if_pos same] at attempt
    have prompt' := prompt
    rw [← same] at prompt'
    obtain ⟨was, hwas, key, first, hfirst, least⟩ := prompt' step inside close closed early
    obtain ⟨epoch', decision'⟩ := step_fields hwas
    obtain ⟨epochOf, decisionOf⟩ := step_fields inside
    have sameEpoch : was.epoch = step.epoch := by rw [epoch', key, ← epochOf]
    have wasRunner : was.kind = .runner := by
      rcases mem_identifySteps.mp hwas with attempt' | gate
      · obtain ⟨e, owner, minted, _, owned, _, rfl⟩ := mem_attemptSteps.mp attempt'
        obtain ⟨_, _, _, _, owner', owned', some_⟩ := attempt
        obtain ⟨mem, is⟩ := ownerOf_mem owned
        obtain ⟨mem', is'⟩ := ownerOf_mem owned'
        have whole : owner ∈ (stepFactsFor after row.chunkId).epochOwners := by
          rw [stepFactsFor_insert inserted, if_pos same, mem_epochOwners]
          exact mem_add.mpr (.inl (mem_epochOwners.mp mem))
        have whole' : owner' ∈ (stepFactsFor after row.chunkId).epochOwners := by
          rw [stepFactsFor_insert inserted, if_pos same]
          exact mem'
        have epochs : owner.epoch = owner'.epoch := by
          rw [is, is', ← sameEpoch]
        obtain rfl := List.inj_on_of_nodup_map (once row.chunkId) whole whole' epochs
        simp [some_]
      · obtain ⟨d, _, rfl⟩ := List.mem_map.mp gate
        have gated := congrArg StepKey.decisionId key
        rw [attempt.2.1] at gated
        cases gated
    refine ⟨was, mem_attributedStep.mpr ⟨hwas, wasRunner, sameEpoch.trans epoch⟩, key, first,
      hfirst, ?_⟩
    rcases lt_or_eq_of_le least with strictly | same
    · exact (CursorKey.lt_of_at strictly).le
    · apply le_of_eq
      rw [CursorKey.of, CursorKey.of, same, sameEpoch, decision', decisionOf, key]
  next differs =>
    exact ⟨step, mem_attributedStep.mpr ⟨inside, runner, epoch⟩, rfl, close, closed, le_refl _⟩

/-! ## What is accounted for -/

/-- An exported row of the step carries the usage row. -/
def Included (exported : List ExportedStep) (key : StepKey) (row : AttributedUsage) : Prop :=
  ∃ told ∈ exported, told.stepKey = key ∧ row ∈ told.usage

/-- The step was closed behind the anchor the export began at, and the usage recorded by then. -/
def Excused (h : UsageExport) (key : StepKey) (row : AttributedUsage) : Prop :=
  key ∈ h.egress.waived ∧ ∃ anchor ∈ h.egress.cursors.head?, usagePosition row ≤ anchor.usage

/-- Each usage row up to a usage position of a step closed up to a step position is exported with
its step or excused, or is among the rows about to be. -/
def Accounted (h : UsageExport) (rows : StepBatch) (position : CursorKey)
    (upTo : ExportRuns.UsagePosition) : Prop :=
  ∀ row ∈ h.usage, usagePosition row ≤ upTo → ∀ step ∈ attributedStep h.egress.corpus row,
    ∀ close, step.close = some close → CursorKey.of step close ≤ position →
      Included h.exported step.key row ∨ Excused h step.key row ∨
        (step.key ∈ named rows ∧ row ∈ h.seen)

theorem Included.mono {exported more : List ExportedStep} {key : StepKey}
    (included : Included exported key row) (subset : exported ⊆ more) : Included more key row := by
  obtain ⟨told, held, is⟩ := included
  exact ⟨told, subset held, is⟩

/-- A row in the plan's snapshot is in its step's exported row. -/
theorem included_planned {seen : List AttributedUsage} {rows : StepBatch}
    (attributed : step ∈ attributedStep corpus row) (listed : step.key ∈ named rows)
    (held : row ∈ seen) : Included (exportedSteps seen rows) step.key row := by
  obtain ⟨inside, runner, epoch⟩ := mem_attributedStep.mp attributed
  obtain ⟨_, attempt, epochOf, chunkOf, _⟩ := runner_attempt inside runner
  obtain ⟨entry, entered, same⟩ := List.mem_map.mp listed
  refine ⟨_, List.mem_map.mpr ⟨entry, entered, rfl⟩, same, ?_⟩
  dsimp only
  rw [same, mem_usageOf attempt]
  exact ⟨held, chunkOf.symm, by rw [epochOf, epoch]⟩

/-- What the plan of a pass in flight has accounted for. -/
def StageAccounted (config : EgressConfig) (h : UsageExport) : PassStage → Prop
  | .begun => True
  | .planned plan | .placed plan =>
    plan.advanced.usage.recordedAt ≤ h.egress.clock - config.settle ∧
      Accounted h plan.rows plan.advanced.step plan.advanced.usage
  | .listed plan =>
    plan.advanced.usage.recordedAt ≤ h.egress.clock - config.settle ∧
      Accounted h [] plan.advanced.step plan.advanced.usage

/-- What holds between any two events of the export. -/
structure UsageKept (config : EgressConfig) (h : UsageExport) : Prop where
  ordered : Ordered config h.egress
  once : OwnedOnce h.egress.corpus
  ids : (h.usage.map (·.usageId)).Nodup
  short : ∀ row ∈ h.egress.cursors, row.usage.recordedAt ≤ h.egress.clock - config.settle
  fetched : ∀ read ∈ h.fetched, ∃ startedAt cursor,
    h.egress.pass = some ⟨startedAt, some cursor, .begun⟩ ∧
      read = usageAfter h.usage cursor.usage (startedAt - config.settle) config.batchLimit
  stored : ∀ row ∈ newestCursor h.egress.cursors, Accounted h [] row.step row.usage
  stage : ∀ pass ∈ h.egress.pass, StageAccounted config h pass.stage

variable {rows : StepBatch} {position : CursorKey} {upTo : ExportRuns.UsagePosition}

theorem Accounted.mono {later : UsageExport} (accounted : Accounted h rows position upTo)
    (sameUsage : later.usage = h.usage) (sameCorpus : later.egress.corpus = h.egress.corpus)
    (more : h.exported ⊆ later.exported)
    (excused : ∀ key row, Excused h key row → Excused later key row)
    (sameSeen : rows = [] ∨ later.seen = h.seen) : Accounted later rows position upTo := by
  intro row held behind step attributed close closed before
  rw [sameUsage] at held
  rw [sameCorpus] at attributed
  rcases accounted row held behind step attributed close closed before with
    told | waived | ⟨listed, inside⟩
  · exact .inl (told.mono more)
  · exact .inr (.inl (excused _ _ waived))
  · rcases sameSeen with none_ | same
    · rw [none_] at listed
      cases listed
    · exact .inr (.inr ⟨listed, same ▸ inside⟩)

/-- A pass that has read no usage holds none. -/
theorem UsageKept.unfetched (kept : UsageKept config h)
    (other : ∀ startedAt cursor, h.egress.pass ≠ some ⟨startedAt, some cursor, .begun⟩) :
    h.fetched = none := by
  cases fetched : h.fetched with
  | none => rfl
  | some read =>
    obtain ⟨startedAt, cursor, flying, _⟩ := kept.fetched read fetched
    exact absurd flying (other startedAt cursor)

/-- A pass that ends without a cursor row leaves the rest as it was. -/
theorem UsageKept.ended (kept : UsageKept config h) {fetched : Option (List AttributedUsage)}
    (none_ : fetched = none) :
    UsageKept config { h with egress := { h.egress with pass := none }, fetched } := by
  refine ⟨kept.ordered.ended, kept.once, kept.ids, kept.short, ?_, ?_, ?_⟩
  · intro read held
    rw [none_] at held
    cases held
  · intro row newest
    exact (kept.stored row newest).mono rfl rfl (List.Subset.refl _) (fun _ _ => id) (.inl rfl)
  · intro pass held
    cases held

/-- A pass that ends with a cursor row that accounts for its usage. -/
theorem UsageKept.appended (kept : UsageKept config h) {pass : ExportPass}
    (flying : pass ∈ h.egress.pass) {row : EgressCheckpoint}
    (from_ : pass.startedAt ≤ row.recordedAt) (upTo : row.recordedAt ≤ h.egress.clock)
    (short : row.step ≤ CursorKey.past (h.egress.clock - config.settle))
    (shortUsage : row.usage.recordedAt ≤ h.egress.clock - config.settle)
    (none_ : h.fetched = none) (accounted : Accounted h [] row.step row.usage) :
    UsageKept config { h with egress := h.egress.appended row } := by
  obtain ⟨ordered, newest⟩ := appended_ordered kept.ordered flying from_ upTo short
  refine ⟨ordered, kept.once, kept.ids, ?_, ?_, ?_, ?_⟩
  · intro other held
    rcases List.mem_append.mp held with old | new
    · exact kept.short other old
    · rw [List.mem_singleton.mp new]
      exact shortUsage
  · intro read held
    rw [none_] at held
    cases held
  · intro stored held
    obtain rfl := Option.some_inj.mp (newest.symm.trans held)
    refine accounted.mono rfl rfl (List.Subset.refl _) ?_ (.inl rfl)
    rintro key used ⟨waived, anchor, first, behind⟩
    refine ⟨waived, anchor, ?_, behind⟩
    obtain ⟨rest, is⟩ := List.head?_eq_some_iff.mp first
    rw [Egress.appended, is]
    rfl
  · intro other held
    cases held

/-- A pass moves on to a stage that accounts for its usage. -/
theorem UsageKept.moved (kept : UsageKept config h) {pass : ExportPass}
    (flying : pass ∈ h.egress.pass) {stage : PassStage} {told : List StepKey}
    (ordered : StageOrdered config h.egress.clock pass stage) (none_ : h.fetched = none)
    {exported : List ExportedStep} (more : h.exported ⊆ exported)
    (accounted : StageAccounted config { h with exported } stage) :
    UsageKept config { h with
      egress := { h.egress with pass := some { pass with stage }, told }, exported } := by
  refine ⟨kept.ordered.moved flying ordered, kept.once, kept.ids, kept.short, ?_, ?_, ?_⟩
  · intro read held
    rw [none_] at held
    cases held
  · intro row newest
    exact (kept.stored row newest).mono rfl rfl more (fun _ _ => id) (.inl rfl)
  · intro other held
    cases held
    revert accounted
    cases stage with
    | begun => exact id
    | planned plan | placed plan | listed plan =>
      exact fun a => ⟨a.1, a.2.mono rfl rfl (List.Subset.refl _) (fun _ _ => id) (.inr rfl)⟩

/-! ## What an event keeps -/

theorem epochOwners_insert {after : Corpus} {fact : FactRow}
    (inserted : Corpus.insert corpus fact = some after) (free : ownerFree corpus fact = true)
    (once : OwnedOnce corpus) : OwnedOnce after := by
  intro chunk
  rw [stepFactsFor_insert inserted]
  split
  next same =>
    subst same
    have kept := once fact.chunkId
    rw [ownerFree] at free
    split at free
    next owner isOwner =>
      have parts : (StepFacts.add (stepFactsFor corpus fact.chunkId) fact.fact).epochOwners =
          (stepFactsFor corpus fact.chunkId).epochOwners ++ [owner] := by
        simp [StepFacts.add, StepFacts.epochOwners, isOwner]
      rw [parts, List.map_append, List.nodup_append]
      refine ⟨kept, by simp, ?_⟩
      intro epoch taken other added same
      obtain ⟨row, held, rfl⟩ := List.mem_map.mp taken
      rw [List.map_singleton, List.mem_singleton] at added
      rw [Bool.not_eq_true', List.any_eq_false] at free
      exact free row held (decide_eq_true (same.trans added))
    next other =>
      have parts : (StepFacts.add (stepFactsFor corpus fact.chunkId) fact.fact).epochOwners =
          (stepFactsFor corpus fact.chunkId).epochOwners := by
        rw [StepFacts.epochOwners, StepFacts.add, List.filterMap_append]
        cases is : fact.fact with
        | owner owner => exact absurd is (other owner)
        | _ => simp [StepFacts.epochOwners]
      rw [parts]
      exact kept
  next => exact once chunk

/-- A prompt row committed in time leaves what is accounted for as it was. -/
theorem Accounted.commit (accounted : Accounted h rows position upTo) {after : Corpus}
    {fact : FactRow} {bound : Instant} (inserted : Corpus.insert h.egress.corpus fact = some after)
    (once : OwnedOnce after)
    (prompt : Prompt (stepFactsFor h.egress.corpus fact.chunkId) fact.fact)
    (short : position ≤ CursorKey.past bound) (late : bound < fact.at_) :
    Accounted { h with egress := { h.egress with corpus := after } } rows position upTo := by
  intro row held behind step attributed close closed before
  obtain ⟨inside, _, _⟩ := mem_attributedStep.mp attributed
  have named := (corpus_item_closedBy (closed_item inside closed)).2.1
  have early : close.at_ ≤ bound := at_le_of_le_past named (before.trans short)
  obtain ⟨was, wasAttributed, key, first, wasClosed, least⟩ :=
    attributed_commit inserted once prompt attributed closed (early.trans_lt late)
  rw [← key]
  exact accounted row held behind was wasAttributed first wasClosed (least.trans before)

theorem kept_commit (kept : UsageKept config h) {fact : FactRow}
    (prompt : PromptEvent config h.egress (.commit fact)) :
    UsageKept config (h.step config (.commit fact)) := by
  rw [UsageExport.step]
  split
  next free =>
    have ordered := (ordered_step kept.ordered (.commit fact)).1
    rw [UsageExport.lift]
    rw [Egress.step] at ordered ⊢
    split
    next timely =>
      rw [if_pos timely] at ordered
      split
      next after inserted =>
        rw [inserted] at ordered
        have once := epochOwners_insert inserted free kept.once
        have isPrompt := prompt_of_event prompt timely
        have late : h.egress.clock - config.settle < fact.at_ := Int.sub_lt_iff.mpr timely
        refine ⟨ordered, once, kept.ids, kept.short, kept.fetched, ?_, ?_⟩
        · intro row newest
          exact (kept.stored row newest).commit inserted once isPrompt
            (kept.ordered.short row (newestCursor_mem newest)) late
        · intro pass flying
          have order := kept.ordered.stage pass flying
          have stage := kept.stage pass flying
          revert order stage
          cases pass.stage with
          | begun => exact fun _ => id
          | planned plan | placed plan | listed plan =>
            exact fun order stage =>
              ⟨stage.1, stage.2.commit inserted once isPrompt order.short late⟩
      next => exact kept
    next => exact kept
  next => exact kept

/-- A row recorded after every position is behind none. -/
theorem Accounted.arrive (accounted : Accounted h rows position upTo) {row : AttributedUsage}
    {bound : Instant} (short : upTo.recordedAt ≤ bound) (late : bound < row.recordedAt) :
    Accounted { h with usage := h.usage ++ [row] } rows position upTo := by
  intro other held behind
  rcases List.mem_append.mp held with old | new
  · exact accounted other old behind
  · rw [List.mem_singleton.mp new] at behind
    have reached : row.recordedAt ≤ bound := (recorded_le behind).trans short
    exact absurd late (not_lt.mpr reached)

theorem kept_usage (kept : UsageKept config h) (row : AttributedUsage) :
    UsageKept config (h.step config (.usage row)) := by
  rw [UsageExport.step]
  split
  next arrives =>
    obtain ⟨timely, _, fresh⟩ := arrives
    have late : h.egress.clock - config.settle < row.recordedAt := Int.sub_lt_iff.mpr timely
    refine ⟨kept.ordered, kept.once, ?_, kept.short, ?_, ?_, ?_⟩
    · rw [List.map_append, List.map_singleton]
      exact List.nodup_append.mpr ⟨kept.ids, by simp, fun id taken other added same =>
        fresh (List.mem_singleton.mp added ▸ same ▸ taken)⟩
    · intro read held
      obtain ⟨startedAt, cursor, flying, is⟩ := kept.fetched read held
      have started := kept.ordered.started _ flying
      refine ⟨startedAt, cursor, flying, ?_⟩
      rw [is, usageAfter_append ((Int.sub_le_sub_right started _).trans_lt late)]
    · intro stored newest
      exact (kept.stored stored newest).arrive (kept.short stored (newestCursor_mem newest)) late
    · intro pass flying
      have stage := kept.stage pass flying
      revert stage
      cases pass.stage with
      | begun => exact id
      | planned plan | placed plan | listed plan =>
        exact fun stage => ⟨stage.1, stage.2.arrive stage.1 late⟩
  next => exact kept

theorem kept_tick (kept : UsageKept config h) (elapsed : ℕ) :
    UsageKept config (h.step config (.tick elapsed)) := by
  have ordered := (ordered_step kept.ordered (.tick elapsed)).1
  have later : h.egress.clock - config.settle ≤ h.egress.clock + elapsed - config.settle :=
    Int.sub_le_sub_right (Int.le_add_of_nonneg_right (Int.natCast_nonneg _)) _
  refine ⟨ordered, kept.once, kept.ids, fun row held => (kept.short row held).trans later,
    kept.fetched, ?_, ?_⟩
  · intro row newest
    exact (kept.stored row newest).mono rfl rfl (List.Subset.refl _) (fun _ _ => id) (.inl rfl)
  · intro pass flying
    have stage := kept.stage pass flying
    revert stage
    cases pass.stage with
    | begun => exact id
    | planned plan | placed plan | listed plan =>
      exact fun a => ⟨a.1.trans later,
        a.2.mono rfl rfl (List.Subset.refl _) (fun _ _ => id) (.inr rfl)⟩

theorem kept_begin (kept : UsageKept config h) : UsageKept config (h.step config .begin) := by
  have ordered := (ordered_step kept.ordered .begin).1
  rw [UsageExport.step, UsageExport.lift]
  rw [Egress.step] at ordered ⊢
  split
  next idle =>
    rw [idle] at ordered
    have none_ := kept.unfetched fun startedAt cursor => by
      rw [idle]
      exact Option.some_ne_none _ ∘ Eq.symm
    refine ⟨ordered, kept.once, kept.ids, kept.short, ?_, ?_, ?_⟩
    · intro read held
      rw [none_] at held
      cases held
    · intro row newest
      exact (kept.stored row newest).mono rfl rfl (List.Subset.refl _) (fun _ _ => id) (.inl rfl)
    · intro pass held
      cases held
      trivial
  next => exact kept

theorem newestCursor_none {cursors : List EgressCheckpoint} (none_ : newestCursor cursors = none) :
    cursors = [] := by
  cases cursors using List.reverseRecOn with
  | nil => rfl
  | append_singleton front last =>
    rw [newestCursor, List.foldl_append, ← newestCursor, List.foldl_cons, List.foldl_nil] at none_
    split at none_
    · split at none_
      · cases none_
      · rename_i held some_ _
        rw [some_] at none_
        cases none_
    · cases none_

/-- The anchor excuses what was closed and recorded by it. -/
theorem kept_anchor (kept : UsageKept config h) : UsageKept config (h.step config .anchor) := by
  have ordered := (ordered_step kept.ordered .anchor).1
  rw [UsageExport.step, UsageExport.lift]
  rw [Egress.step] at ordered ⊢
  split
  next startedAt flying =>
    rw [flying] at ordered
    have inFlight : (⟨startedAt, none, .begun⟩ : ExportPass) ∈ h.egress.pass := flying
    have started := kept.ordered.started _ inFlight
    have opened := newestCursor_none (kept.ordered.read _ inFlight).symm
    have alone : (h.egress.appended (anchorRow config startedAt)).cursors =
        [anchorRow config startedAt] := by
      rw [Egress.appended, opened]
      rfl
    have none_ := kept.unfetched fun startedAt cursor => by
      rw [flying]
      intro same
      cases same
    refine ⟨ordered, kept.once, kept.ids, ?_, ?_, ?_, ?_⟩
    · intro row held
      rcases List.mem_append.mp held with old | new
      · exact kept.short row old
      · rw [List.mem_singleton.mp new]
        exact Int.sub_le_sub_right started _
    · intro read held
      rw [none_] at held
      cases held
    · intro row newest used held behind step attributed close closed before
      have it : row = anchorRow config startedAt := by
        have mem := newestCursor_mem newest
        exact List.mem_singleton.mp (alone ▸ mem)
      subst it
      refine .inr (.inl ⟨mem_closedBy.mpr ⟨_, _, _,
        closed_item (mem_attributedStep.mp attributed).1 closed, before, rfl⟩, ?_⟩)
      exact ⟨anchorRow config startedAt, congrArg List.head? alone, behind⟩
    · intro pass held
      cases held
  next => exact kept

theorem kept_fetch (kept : UsageKept config h) : UsageKept config (h.step config .fetch) := by
  rw [UsageExport.step]
  split
  next startedAt cursor flying none_ =>
    refine ⟨kept.ordered, kept.once, kept.ids, kept.short, ?_, ?_, ?_⟩
    · intro read held
      exact ⟨startedAt, cursor, flying, (Option.some_inj.mp held).symm⟩
    · intro row newest
      exact (kept.stored row newest).mono rfl rfl (List.Subset.refl _) (fun _ _ => id) (.inl rfl)
    · intro pass held
      have it := held.symm.trans flying
      cases it
      trivial
  next => exact kept

/-- A usage row a plan has read names its step, where that is closed up to the plan's position. -/
theorem retold_keys {cursor : EgressCheckpoint} {now : Instant} (read : row ∈ usage)
    (attributed : step ∈ attributedStep corpus row) (closed : step.close = some close)
    (before : CursorKey.of step close ≤
      (ExportRuns.planned config corpus cursor usage now).advanced.step) :
    step.key ∈ named (ExportRuns.planned config corpus cursor usage now).rows := by
  obtain ⟨front, back, rfl⟩ := List.append_of_mem read
  refine mem_named_rows.mpr ?_
  rw [List.foldl_append, List.foldl_cons]
  refine foldl_subset _ (addRetold_keys _ _) back _ ?_
  obtain ⟨inside, _, _⟩ := mem_attributedStep.mp attributed
  obtain ⟨fact, mem, _⟩ := step_close inside closed
  obtain ⟨source, stored, _⟩ := List.mem_map.mp mem
  have known : corpus.rows.any (·.chunkId = row.chunkId) = true :=
    List.any_eq_true.mpr ⟨source, List.mem_filter.mp stored⟩
  have found : (snapshotFacts corpus row.chunkId).bind
      (fun chunk => runnerStep (identifySteps chunk) row.epoch) = some step := by
    rw [snapshotFacts, if_pos known]
    exact attributed
  rw [addRetold, found]
  dsimp only
  rw [closed]
  dsimp only
  rw [if_pos (by exact before)]
  exact addStep_keys.1

theorem kept_read (kept : UsageKept config h) : UsageKept config (h.step config .read) := by
  rw [UsageExport.step]
  split
  next read fetched =>
    obtain ⟨startedAt, cursor, flying, is⟩ := kept.fetched read fetched
    have inFlight : (⟨startedAt, some cursor, .begun⟩ : ExportPass) ∈ h.egress.pass := flying
    have started := kept.ordered.started _ inFlight
    have newest : newestCursor h.egress.cursors = some cursor :=
      (kept.ordered.read _ inFlight).symm
    have low : ∀ row ∈ read, row.recordedAt ≤ h.egress.clock - config.settle := by
      intro row held
      exact (mem_usageAfter (is ▸ held)).2.2.trans (Int.sub_le_sub_right started _)
    have ordered := (ordered_step kept.ordered (.read read)).1
    rw [UsageExport.lift]
    rw [Egress.step, flying] at ordered ⊢
    refine ⟨ordered, kept.once, kept.ids, kept.short, ?_, ?_, ?_⟩
    · intro other held
      cases held
    · intro row held
      exact (kept.stored row held).mono rfl rfl (List.Subset.refl _) (fun _ _ => id) (.inl rfl)
    · intro pass held
      cases held
      constructor
      · cases last : read.getLast? with
        | none =>
          simp only [ExportRuns.planned, planStepsPass, last, Option.map_none, Option.getD_none]
          exact kept.short cursor (newestCursor_mem newest)
        | some row =>
          simp only [ExportRuns.planned, planStepsPass, last, Option.map_some, Option.getD_some]
          exact low row (List.mem_of_getLast? last)
      · intro row held behind step attributed close closed before
        rcases lt_or_ge cursor.step (CursorKey.of step close) with ahead | already
        · exact .inr (.inr ⟨planned_keys read startedAt (mem_attributedStep.mp attributed).1 closed
            ahead before, held⟩)
        · rcases le_or_gt (usagePosition row) cursor.usage with old | past
          · rcases kept.stored cursor newest row held old step attributed close closed already with
              told | waived | ⟨listed, _⟩
            · exact .inl told
            · exact .inr (.inl waived)
            · cases listed
          · have inRead : row ∈ read := by
              cases last : read.getLast? with
              | none =>
                simp only [ExportRuns.planned, planStepsPass, last, Option.map_none,
                  Option.getD_none] at behind
                exact absurd past (not_lt.mpr behind)
              | some final =>
                simp only [ExportRuns.planned, planStepsPass, last, Option.map_some,
                  Option.getD_some] at behind
                rw [is] at last ⊢
                exact usageAfter_covers kept.ids last held past behind
            exact .inr (.inr ⟨retold_keys inRead attributed closed before, held⟩)
  next => exact kept

/-- A pass whose usage is planned with holds none to read. -/
theorem UsageKept.unread (kept : UsageKept config h) {pass : ExportPass}
    (flying : h.egress.pass = some pass) (further : pass.stage ≠ .begun) : h.fetched = none := by
  refine kept.unfetched fun startedAt cursor begun => further ?_
  obtain rfl := Option.some_inj.mp (flying.symm.trans begun)
  rfl

theorem kept_write (kept : UsageKept config h) (ok : Bool) :
    UsageKept config (h.step config (.write ok)) := by
  rw [UsageExport.step, UsageExport.lift, Egress.step]
  split
  next startedAt cursor plan flying =>
    have inFlight : (⟨startedAt, cursor, .planned plan⟩ : ExportPass) ∈ h.egress.pass := flying
    have none_ := kept.unread flying fun same => by cases same
    have planned : PlanOrdered config h.egress.clock _ plan := kept.ordered.stage _ inFlight
    have stage : StageAccounted config h (.planned plan) := kept.stage _ inFlight
    split
    next empty =>
      split
      · have accounted := stage.2
        rw [empty] at accounted
        exact kept.appended inFlight planned.recorded.ge
          (planned.recorded.le.trans (kept.ordered.started _ inFlight)) planned.short stage.1 none_
          accounted
      · exact kept.ended none_
    next =>
      split
      · have placed : StageOrdered config h.egress.clock _ (.placed plan) := planned
        exact kept.moved inFlight placed none_ (List.Subset.refl _) stage
      · exact kept.ended none_
  next => exact kept

theorem kept_list (kept : UsageKept config h) (ok : Bool) :
    UsageKept config (h.step config (.list_ ok)) := by
  rw [UsageExport.step]
  split
  next startedAt cursor plan flying =>
    have inFlight : (⟨startedAt, cursor, .placed plan⟩ : ExportPass) ∈ h.egress.pass := flying
    have none_ := kept.unread flying fun same => by cases same
    have planned : PlanOrdered config h.egress.clock _ plan := kept.ordered.stage _ inFlight
    have stage : StageAccounted config h (.placed plan) := kept.stage _ inFlight
    rw [UsageExport.lift, Egress.step, flying]
    dsimp only
    split
    · have listed : StageOrdered config h.egress.clock _ (.listed plan) := planned
      refine kept.moved inFlight listed none_ (List.subset_append_left _ _) ⟨stage.1, ?_⟩
      -- what the plan was about to tell is now told
      intro row held behind step attributed close closed before
      rcases stage.2 row held behind step attributed close closed before with
        told | waived | ⟨named, inside⟩
      · exact .inl (told.mono (List.subset_append_left _ _))
      · exact .inr (.inl waived)
      · exact .inl ((included_planned attributed named inside).mono (List.subset_append_right _ _))
    · exact kept.ended none_
  next => exact kept

theorem kept_append (kept : UsageKept config h) (ok : Bool) :
    UsageKept config (h.step config (.append ok)) := by
  rw [UsageExport.step, UsageExport.lift, Egress.step]
  split
  next startedAt cursor plan flying =>
    have inFlight : (⟨startedAt, cursor, .listed plan⟩ : ExportPass) ∈ h.egress.pass := flying
    have none_ := kept.unread flying fun same => by cases same
    have planned : PlanOrdered config h.egress.clock _ plan := kept.ordered.stage _ inFlight
    have stage : StageAccounted config h (.listed plan) := kept.stage _ inFlight
    split
    · have start := kept.ordered.started _ inFlight
      exact kept.appended inFlight start (le_refl _) planned.short stage.1 none_ stage.2
    · exact kept.ended none_
  next => exact kept

/-! ## Every run -/

/-- A row that is committed and identifies a step is prompt. -/
def PromptUsage (config : EgressConfig) (h : UsageExport) : UsageEvent → Prop
  | .commit row => ownerFree h.egress.corpus row = true → PromptEvent config h.egress (.commit row)
  | _ => True

/-- Every identifying row of a run is prompt where it is committed. -/
def PromptUsageRun (config : EgressConfig) : UsageExport → List UsageEvent → Prop
  | _, [] => True
  | h, event :: rest => PromptUsage config h event ∧ PromptUsageRun config (h.step config event) rest

theorem kept_step (kept : UsageKept config h) {event : UsageEvent}
    (prompt : PromptUsage config h event) : UsageKept config (h.step config event) := by
  cases event with
  | commit row =>
    cases free : ownerFree h.egress.corpus row with
    | true => exact kept_commit kept (prompt free)
    | false =>
      rw [UsageExport.step, free]
      exact kept
  | usage row => exact kept_usage kept row
  | tick elapsed => exact kept_tick kept elapsed
  | begin => exact kept_begin kept
  | anchor => exact kept_anchor kept
  | fetch => exact kept_fetch kept
  | read => exact kept_read kept
  | write ok => exact kept_write kept ok
  | list_ ok => exact kept_list kept ok
  | append ok => exact kept_append kept ok
  | crash => exact kept.ended rfl

theorem kept_run (kept : UsageKept config h) {events : List UsageEvent}
    (prompt : PromptUsageRun config h events) : UsageKept config (h.run config events) := by
  induction events generalizing h with
  | nil => exact kept
  | cons event rest ih => exact ih (kept_step kept prompt.1) prompt.2

theorem kept_start (once : OwnedOnce corpus) (clock : Instant) :
    UsageKept config (UsageExport.start corpus clock) := by
  refine ⟨ordered_start corpus clock, once, List.nodup_nil, ?_, ?_, ?_, ?_⟩ <;>
  · intro held mem
    cases mem

end Blizzard.UsageCoverage
