import Blizzard.StatusCounts

/-! # The SQL predicates and the fold agree

Each terminal-fact predicate is compared with the status the chunk's loaded
facts derive. Both sides are brought to the same statement about the chunk's
stop, completion and movement instants. -/
namespace Blizzard.TerminalAgreement
open HubTables StatusLadder FactLoading TerminalPredicates StatusCounts

section Movements
variable {facts : ChunkFacts}

theorem orderKey_le_iff {kind kind' : MovementKind} {recordedAt recordedAt' epoch epoch' : ℤ} :
    kind.orderKey recordedAt epoch ≤ kind'.orderKey recordedAt' epoch' ↔
      recordedAt < recordedAt' ∨ (recordedAt = recordedAt' ∧
        (epoch < epoch' ∨ (epoch = epoch' ∧ kind.rank ≤ kind'.rank))) := by
  simp only [MovementKind.orderKey, Prod.Lex.toLex_le_toLex]

theorem key_lt_iff {recordedAt recordedAt' epoch epoch' : ℤ} :
    (toLex (recordedAt, epoch) : ℤ ×ₗ ℤ) < toLex (recordedAt', epoch') ↔
      recordedAt < recordedAt' ∨ (recordedAt = recordedAt' ∧ epoch < epoch') := by
  simp only [Prod.Lex.toLex_lt_toLex]

theorem recordedAt_le_of_key_le {recordedAt recordedAt' epoch epoch' : ℤ}
    (h : (toLex (recordedAt, epoch) : ℤ ×ₗ ℤ) ≤ toLex (recordedAt', epoch')) :
    recordedAt ≤ recordedAt' := by
  rcases Prod.Lex.toLex_le_toLex.mp h with earlier | ⟨same, -⟩
  · exact earlier.le
  · exact same.le

/-- Every migration and restart is older than the transition. -/
def NewerThanMoves (facts : ChunkFacts) (t : TransitionFact) : Prop :=
  (∀ m ∈ facts.migrations, ChunkFacts.migrationKey m < ChunkFacts.transitionKey t) ∧
    ∀ r ∈ facts.restarts, ChunkFacts.restartKey r < ChunkFacts.transitionKey t

/-- The family newest of one kind, as the ranking lists it. -/
theorem mem_rankedMovements {key : MovementKey} {movement : Movement} :
    (key, movement) ∈ facts.rankedMovements none ↔
      (∃ t, facts.transitions.argmax ChunkFacts.transitionKey = some t ∧
        MovementKind.orderKey .transition t.recordedAt t.epoch = key ∧
        ⟨.transition, some t.toNodeId, t.toNodeExecutor, t.graphId⟩ = movement) ∨
      (∃ m, facts.migrations.argmax ChunkFacts.migrationKey = some m ∧
        MovementKind.orderKey .migration m.recordedAt m.epoch = key ∧
        ⟨.migration, m.landedNodeId, m.landedNodeExecutor, m.toGraphId⟩ = movement) ∨
      ∃ r, facts.restarts.argmax ChunkFacts.restartKey = some r ∧
        MovementKind.orderKey .restart r.recordedAt r.epoch = key ∧
        ⟨.restart, some r.toNodeId, r.toNodeExecutor, r.graphId⟩ = movement := by
  simp only [ChunkFacts.rankedMovements, Option.all_none, List.filter_true, List.mem_append,
    Option.mem_toList, Option.map_eq_some_iff, Prod.mk.injEq, or_assoc]

/-- The newest movement is a terminal transition exactly when the newest transition is terminal
and newer than every migration and restart. -/
theorem newestTransitionIsTerminal_iff :
    facts.newestTransitionIsTerminal = true ↔ ∃ t, facts.newestTransition = some t ∧
      t.toNodeId = reservedTerminal ∧ NewerThanMoves facts t := by
  unfold ChunkFacts.newestTransitionIsTerminal ChunkFacts.latestMovement
  cases best : (facts.rankedMovements none).argmax Prod.fst with
  | none =>
    simp only [Option.map_none, Bool.false_eq_true, false_iff]
    rintro ⟨t, newest, -, -⟩
    have listed := mem_rankedMovements.mpr (.inl ⟨t, newest, rfl, rfl⟩)
    rw [List.argmax_eq_none.mp best] at listed
    exact List.not_mem_nil listed
  | some entry =>
    obtain ⟨key, movement⟩ := entry
    have unbeaten : ∀ other ∈ facts.rankedMovements none, other.1 ≤ key := fun other hother =>
      List.le_of_mem_argmax hother best
    simp only [Option.map_some, Bool.and_eq_true, decide_eq_true_eq]
    constructor
    · rintro ⟨isTransition, terminal⟩
      rcases mem_rankedMovements.mp (List.argmax_mem best) with ⟨t, newest, rfl, rfl⟩ | ⟨_, -, -, rfl⟩ |
        ⟨_, -, -, rfl⟩
      · refine ⟨t, newest, Option.some.inj terminal, fun m hm => ?_, fun r hr => ?_⟩
        · cases top : facts.migrations.argmax ChunkFacts.migrationKey with
          | none => simp [List.argmax_eq_none.mp top] at hm
          | some m' =>
            have outranked := unbeaten _ (mem_rankedMovements.mpr (.inr (.inl ⟨m', top, rfl, rfl⟩)))
            refine (List.le_of_mem_argmax hm top).trans_lt (key_lt_iff.mpr ?_)
            rcases orderKey_le_iff.mp outranked with earlier | ⟨same, lower | ⟨-, rank⟩⟩
            · exact .inl earlier
            · exact .inr ⟨same, lower⟩
            · exact absurd rank (by decide)
        · cases top : facts.restarts.argmax ChunkFacts.restartKey with
          | none => simp [List.argmax_eq_none.mp top] at hr
          | some r' =>
            have outranked := unbeaten _ (mem_rankedMovements.mpr (.inr (.inr ⟨r', top, rfl, rfl⟩)))
            refine (List.le_of_mem_argmax hr top).trans_lt (key_lt_iff.mpr ?_)
            rcases orderKey_le_iff.mp outranked with earlier | ⟨same, lower | ⟨-, rank⟩⟩
            · exact .inl earlier
            · exact .inr ⟨same, lower⟩
            · exact absurd rank (by decide)
      · cases isTransition
      · cases isTransition
    · rintro ⟨t, newest, terminal, migrations, restarts⟩
      have outranks := unbeaten _ (mem_rankedMovements.mpr (.inl ⟨t, newest, rfl, rfl⟩))
      rcases mem_rankedMovements.mp (List.argmax_mem best) with ⟨t', newest', rfl, rfl⟩ |
        ⟨m, top, rfl, rfl⟩ | ⟨r, top, rfl, rfl⟩
      · obtain rfl := Option.some.inj (newest.symm.trans newest')
        exact ⟨rfl, congrArg some terminal⟩
      · have older := key_lt_iff.mp (migrations m (List.argmax_mem top))
        have := orderKey_le_iff.mp outranks
        omega
      · have older := key_lt_iff.mp (restarts r (List.argmax_mem top))
        have := orderKey_le_iff.mp outranks
        omega

end Movements

variable {tables : Tables} {chunkId : ChunkId}

/-- No terminal and non-terminal transition of one chunk share a `(recorded_at, epoch)`. -/
def Untied (tables : Tables) : Prop :=
  ∀ t ∈ tables.transitions, ∀ o ∈ tables.transitions, t.chunkId = o.chunkId →
    t.recordedAt = o.recordedAt → t.epoch = o.epoch → t.toNodeId = reservedTerminal →
      o.toNodeId = reservedTerminal

theorem notOlder_iff {recordedAt epoch : ℤ} {terminal : TransitionRow} :
    notOlder recordedAt epoch terminal = true ↔
      ¬ (toLex (recordedAt, epoch) : ℤ ×ₗ ℤ) < toLex (terminal.recordedAt, terminal.epoch) := by
  rw [key_lt_iff]
  simp only [notOlder, Bool.or_eq_true, Bool.and_eq_true, decide_eq_true_eq]
  rcases lt_trichotomy terminal.recordedAt recordedAt with later | same | earlier
  · simp [later, later.not_gt, later.ne']
  · simp [same]
  · simp [earlier, earlier.not_gt, earlier.ne]

/-- What leaves a transition unsuperseded. -/
theorem unsupersededTerminal_iff {terminal : TransitionRow} :
    unsupersededTerminal tables terminal = true ↔ terminal.toNodeId = reservedTerminal ∧
      (∀ other ∈ tables.transitions, other.chunkId = terminal.chunkId →
        notOlder other.recordedAt other.epoch terminal = true →
          other.toNodeId = reservedTerminal ∧ other.recordedAt ≤ terminal.recordedAt) ∧
      (∀ m ∈ tables.chunkMigrations, m.chunkId = terminal.chunkId →
        (toLex (m.recordedAt, m.epoch) : ℤ ×ₗ ℤ) < toLex (terminal.recordedAt, terminal.epoch)) ∧
      ∀ r ∈ tables.chunkRestarts, r.chunkId = terminal.chunkId →
        (toLex (r.recordedAt, r.epoch) : ℤ ×ₗ ℤ) < toLex (terminal.recordedAt, terminal.epoch) := by
  simp only [unsupersededTerminal, Bool.and_eq_true, decide_eq_true_eq, Bool.not_eq_true',
    Bool.or_eq_false_iff, List.any_eq_false, notOlder_iff, Bool.or_eq_true, not_and, not_or, not_not,
    not_lt, not_le, and_assoc]

theorem transitions_chunkFacts : (chunkFacts tables allFamilies chunkId).transitions =
    (tables.transitions.filter (·.chunkId = chunkId)).map (transitionFact tables) := rfl

theorem migrations_chunkFacts : (chunkFacts tables allFamilies chunkId).migrations =
    (tables.chunkMigrations.filter (·.chunkId = chunkId)).map (migrationFact tables) := rfl

theorem restarts_chunkFacts : (chunkFacts tables allFamilies chunkId).restarts =
    (tables.chunkRestarts.filter (·.chunkId = chunkId)).map (restartFact tables) := rfl

/-- An unsuperseded terminal transition is as new as the chunk's newest transition, which is
terminal and newer than its other movements. -/
theorem newest_of_unsuperseded {terminal : TransitionRow} (mem : terminal ∈ tables.transitions)
    (unsuperseded : unsupersededTerminal tables terminal = true) :
    ∃ t, (chunkFacts tables allFamilies terminal.chunkId).newestTransition = some t ∧
      t.toNodeId = reservedTerminal ∧ t.recordedAt = terminal.recordedAt ∧
      NewerThanMoves (chunkFacts tables allFamilies terminal.chunkId) t := by
  obtain ⟨reserved, transitions, migrations, restarts⟩ := unsupersededTerminal_iff.mp unsuperseded
  have listed : transitionFact tables terminal ∈
      (chunkFacts tables allFamilies terminal.chunkId).transitions := by
    rw [transitions_chunkFacts]
    exact List.mem_map_of_mem (List.mem_filter.mpr ⟨mem, decide_eq_true rfl⟩)
  cases newest : (chunkFacts tables allFamilies terminal.chunkId).newestTransition with
  | none => simp [List.argmax_eq_none.mp newest] at listed
  | some t =>
    have above := List.le_of_mem_argmax listed newest
    have hfact := List.argmax_mem newest
    rw [transitions_chunkFacts] at hfact
    obtain ⟨row, hrow, rfl⟩ := List.mem_map.mp hfact
    obtain ⟨hrow, same⟩ := List.mem_filter.mp hrow
    obtain ⟨terminates, notLater⟩ := transitions row hrow (of_decide_eq_true same)
      (notOlder_iff.mpr (not_lt.mpr above))
    have stamped : row.recordedAt = terminal.recordedAt :=
      le_antisymm notLater (recordedAt_le_of_key_le above)
    refine ⟨_, rfl, terminates, stamped, fun m hm => ?_, fun r hr => ?_⟩
    · rw [migrations_chunkFacts] at hm
      obtain ⟨mrow, hmrow, rfl⟩ := List.mem_map.mp hm
      obtain ⟨hmrow, on⟩ := List.mem_filter.mp hmrow
      exact (migrations mrow hmrow (of_decide_eq_true on)).trans_le above
    · rw [restarts_chunkFacts] at hr
      obtain ⟨rrow, hrrow, rfl⟩ := List.mem_map.mp hr
      obtain ⟨hrrow, on⟩ := List.mem_filter.mp hrrow
      exact (restarts rrow hrrow (of_decide_eq_true on)).trans_le above

/-- With no tie, a newest movement that is a terminal transition is unsuperseded. -/
theorem unsuperseded_of_newest (untied : Untied tables) {t : TransitionFact}
    (newest : (chunkFacts tables allFamilies chunkId).newestTransition = some t)
    (reserved : t.toNodeId = reservedTerminal)
    (newer : NewerThanMoves (chunkFacts tables allFamilies chunkId) t) :
    ∃ terminal ∈ tables.transitions, terminal.chunkId = chunkId ∧
      unsupersededTerminal tables terminal = true ∧ terminal.recordedAt = t.recordedAt := by
  have hfact := List.argmax_mem newest
  rw [transitions_chunkFacts] at hfact
  obtain ⟨row, hfiltered, rfl⟩ := List.mem_map.mp hfact
  obtain ⟨hrow, same⟩ := List.mem_filter.mp hfiltered
  obtain rfl := of_decide_eq_true same
  refine ⟨row, hrow, rfl, unsupersededTerminal_iff.mpr ⟨reserved, ?_, ?_, ?_⟩, rfl⟩
  · intro other hother on notOlder
    have listed : transitionFact tables other ∈
        (chunkFacts tables allFamilies row.chunkId).transitions := by
      rw [transitions_chunkFacts]
      exact List.mem_map_of_mem (List.mem_filter.mpr ⟨hother, decide_eq_true on⟩)
    have below := List.le_of_mem_argmax listed newest
    have tied : (toLex (other.recordedAt, other.epoch) : ℤ ×ₗ ℤ) =
        toLex (row.recordedAt, row.epoch) :=
      le_antisymm below (not_lt.mp (notOlder_iff.mp notOlder))
    obtain ⟨atOnce, atEpoch⟩ := Prod.mk.inj (toLex.injective tied)
    exact ⟨untied row hrow other hother on.symm atOnce.symm atEpoch.symm reserved, atOnce.le⟩
  · intro m hm on
    refine newer.1 (migrationFact tables m) ?_
    rw [migrations_chunkFacts]
    exact List.mem_map_of_mem (List.mem_filter.mpr ⟨hm, decide_eq_true on⟩)
  · intro r hr on
    refine newer.2 (restartFact tables r) ?_
    rw [restarts_chunkFacts]
    exact List.mem_map_of_mem (List.mem_filter.mpr ⟨hr, decide_eq_true on⟩)

theorem doneByTransition_iff_exists {finishedBefore : Option Instant} :
    doneByTransition tables chunkId finishedBefore = true ↔ ∃ terminal ∈ tables.transitions,
      terminal.chunkId = chunkId ∧ unsupersededTerminal tables terminal = true ∧
        ∀ instant, finishedBefore = some instant → terminal.recordedAt < instant := by
  simp only [doneByTransition, List.any_eq_true, Bool.and_eq_true, decide_eq_true_eq, and_assoc]
  cases finishedBefore <;> simp

/-- The transition predicate is the fold's, with the newest transition's instant. -/
theorem doneByTransition_iff (untied : Untied tables) {finishedBefore : Option Instant} :
    doneByTransition tables chunkId finishedBefore = true ↔
      (chunkFacts tables allFamilies chunkId).newestTransitionIsTerminal = true ∧
        ∀ instant, finishedBefore = some instant →
          ∃ t, (chunkFacts tables allFamilies chunkId).newestTransition = some t ∧
            t.recordedAt < instant := by
  rw [doneByTransition_iff_exists, newestTransitionIsTerminal_iff]
  constructor
  · rintro ⟨terminal, mem, rfl, unsuperseded, before⟩
    obtain ⟨t, newest, reserved, stamped, newer⟩ := newest_of_unsuperseded mem unsuperseded
    exact ⟨⟨t, newest, reserved, newer⟩, fun instant given =>
      ⟨t, newest, stamped ▸ before instant given⟩⟩
  · rintro ⟨⟨t, newest, reserved, newer⟩, before⟩
    obtain ⟨terminal, mem, on, unsuperseded, stamped⟩ :=
      unsuperseded_of_newest untied newest reserved newer
    refine ⟨terminal, mem, on, unsuperseded, fun instant given => ?_⟩
    obtain ⟨t', newest', earlier⟩ := before instant given
    obtain rfl := Option.some.inj (newest.symm.trans newest')
    rw [stamped]
    exact earlier

/-- The instants of a chunk's stops and of its operator completions. -/
def stops (tables : Tables) (chunkId : ChunkId) : List Instant :=
  (tables.chunkStopped.filter (·.chunkId = chunkId)).map (·.stoppedAt)

def completions (tables : Tables) (chunkId : ChunkId) : List Instant :=
  (tables.chunkCompleted.filter (·.chunkId = chunkId)).map (·.completedAt)

theorem stoppedAt_chunkFacts (tables : Tables) (chunkId : ChunkId) :
    (chunkFacts tables allFamilies chunkId).stoppedAt = (stops tables chunkId).max? := rfl

theorem operatorCompletedAt_chunkFacts (tables : Tables) (chunkId : ChunkId) :
    (chunkFacts tables allFamilies chunkId).operatorCompletedAt =
      (completions tables chunkId).max? := rfl

theorem mem_stops {instant : Instant} : instant ∈ stops tables chunkId ↔
    ∃ row ∈ tables.chunkStopped, row.chunkId = chunkId ∧ row.stoppedAt = instant := by
  simp [stops, and_assoc]

theorem mem_completions {instant : Instant} : instant ∈ completions tables chunkId ↔
    ∃ row ∈ tables.chunkCompleted, row.chunkId = chunkId ∧ row.completedAt = instant := by
  simp [completions, and_assoc]

/-- A stop stands unless a completion at or after the newest stop outranks it. -/
theorem stands_iff {facts : ChunkFacts} {stops completions : List Instant}
    (stopped : facts.stoppedAt = stops.max?) (completed : facts.operatorCompletedAt = completions.max?) :
    (facts.stopped && !facts.operatorCompletionOutranksStop) = true ↔
      ∃ stop ∈ stops, ∀ completion ∈ completions, completion < stop := by
  unfold ChunkFacts.stopped ChunkFacts.operatorCompletionOutranksStop
  rw [stopped, completed]
  cases hs : stops.max? with
  | none =>
    rw [List.max?_eq_none_iff.mp hs]
    simp
  | some stop =>
    obtain ⟨mem, newest⟩ := List.max?_eq_some_iff.mp hs
    cases hc : completions.max? with
    | none =>
      rw [List.max?_eq_none_iff.mp hc]
      simpa using ⟨stop, mem⟩
    | some completion =>
      obtain ⟨cmem, last⟩ := List.max?_eq_some_iff.mp hc
      simp only [Option.isSome_some, Bool.true_and, Bool.not_eq_true', decide_eq_false_iff_not, not_le]
      constructor
      · exact fun outlives => ⟨stop, mem, fun other hother => (last other hother).trans_lt outlives⟩
      · rintro ⟨other, hother, above⟩
        exact (above completion cmem).trans_le (newest other hother)

theorem settledStopped_iff_exists : settledStopped tables chunkId = true ↔
    ∃ stop ∈ stops tables chunkId, ∀ completion ∈ completions tables chunkId, completion < stop := by
  simp only [settledStopped, List.any_eq_true, Bool.and_eq_true, decide_eq_true_eq,
    Bool.not_eq_true', List.any_eq_false, mem_stops, mem_completions, not_and, not_le]
  constructor
  · rintro ⟨stop, mem, on, last⟩
    refine ⟨_, ⟨stop, mem, on, rfl⟩, ?_⟩
    rintro _ ⟨completion, cmem, con, rfl⟩
    exact last completion cmem (con.trans on.symm)
  · rintro ⟨_, ⟨stop, mem, on, rfl⟩, last⟩
    exact ⟨stop, mem, on, fun completion cmem con => last _ ⟨completion, cmem, con.trans on, rfl⟩⟩

theorem settledStopped_iff : settledStopped tables chunkId = true ↔
    (chunkFacts tables allFamilies chunkId).status = .stopped := by
  rw [status_eq_stopped_iff, stands_iff (stoppedAt_chunkFacts tables chunkId)
    (operatorCompletedAt_chunkFacts tables chunkId),
    settledStopped_iff_exists]

/-- Some completion no stop is later than. -/
theorem byCompletion_iff : (tables.chunkCompleted.any fun completion =>
      decide (completion.chunkId = chunkId) &&
        !(tables.chunkStopped.any fun stop =>
          decide (stop.chunkId = completion.chunkId) &&
            decide (completion.completedAt < stop.stoppedAt))) = true ↔
    ∃ completion ∈ completions tables chunkId, ∀ stop ∈ stops tables chunkId, stop ≤ completion := by
  simp only [List.any_eq_true, Bool.and_eq_true, decide_eq_true_eq, Bool.not_eq_true',
    List.any_eq_false, mem_stops, mem_completions, not_and, not_lt]
  constructor
  · rintro ⟨completion, mem, on, last⟩
    refine ⟨_, ⟨completion, mem, on, rfl⟩, ?_⟩
    rintro _ ⟨stop, smem, son, rfl⟩
    exact last stop smem (son.trans on.symm)
  · rintro ⟨_, ⟨completion, mem, on, rfl⟩, last⟩
    exact ⟨completion, mem, on, fun stop smem son => last _ ⟨stop, smem, son.trans on, rfl⟩⟩

theorem noStop_iff : (tables.chunkStopped.any fun stop => decide (stop.chunkId = chunkId)) = false ↔
    stops tables chunkId = [] := by
  simp [stops, List.filter_eq_nil_iff]

theorem noCompletion_iff :
    (tables.chunkCompleted.any fun row => decide (row.chunkId = chunkId)) = false ↔
      completions tables chunkId = [] := by
  simp [completions, List.filter_eq_nil_iff]

theorem completionsBefore_iff {instant : Instant} :
    (tables.chunkCompleted.any fun row =>
        decide (row.chunkId = chunkId) && decide (instant ≤ row.completedAt)) = false ↔
      ∀ completion ∈ completions tables chunkId, completion < instant := by
  simp only [List.any_eq_false, Bool.and_eq_true, decide_eq_true_eq, mem_completions, not_and, not_le]
  constructor
  · rintro before _ ⟨row, mem, on, rfl⟩
    exact before row mem on
  · exact fun before row mem on => before _ ⟨row, mem, on, rfl⟩

/-- The completion arm and the transition arm of `settled_done`. -/
theorem settledDone_iff_exists {finishedBefore : Option Instant} :
    settledDone tables chunkId finishedBefore = true ↔
      ((∃ completion ∈ completions tables chunkId,
          ∀ stop ∈ stops tables chunkId, stop ≤ completion) ∧
        ∀ instant, finishedBefore = some instant →
          ∀ completion ∈ completions tables chunkId, completion < instant) ∨
      (stops tables chunkId = [] ∧ completions tables chunkId = [] ∧
        doneByTransition tables chunkId finishedBefore = true) := by
  simp only [settledDone, Bool.or_eq_true, Bool.and_eq_true, byCompletion_iff, Bool.not_eq_true',
    noStop_iff, noCompletion_iff, and_assoc]
  cases finishedBefore with
  | none => simp
  | some instant =>
    simp only [Option.all_some, Bool.not_eq_true', completionsBefore_iff, Option.some.injEq, forall_eq']

/-- A completion no stop is later than, where the newest completion is. -/
theorem exists_completion_iff {stops completions : List Instant} :
    (∃ completion ∈ completions, ∀ stop ∈ stops, stop ≤ completion) ↔
      completions ≠ [] ∧ ¬ ∃ stop ∈ stops, ∀ completion ∈ completions, completion < stop := by
  constructor
  · rintro ⟨completion, mem, last⟩
    refine ⟨List.ne_nil_of_mem mem, ?_⟩
    rintro ⟨stop, smem, above⟩
    exact absurd (above completion mem) (last stop smem).not_gt
  · rintro ⟨some_, none_⟩
    obtain ⟨newest, hmax⟩ := Option.ne_none_iff_exists'.mp (mt List.max?_eq_none_iff.mp some_)
    obtain ⟨mem, last⟩ := List.max?_eq_some_iff.mp hmax
    refine ⟨newest, mem, fun stop smem => not_lt.mp fun above => none_ ⟨stop, smem, ?_⟩⟩
    exact fun completion cmem => (last completion cmem).trans_lt above

/-- The `done` predicate is the fold's, its instant the fold's `completed_at`. -/
theorem settledDone_iff (untied : Untied tables) (chunkId : ChunkId)
    (finishedBefore : Option Instant) :
    settledDone tables chunkId finishedBefore = true ↔
      (chunkFacts tables allFamilies chunkId).status = .done ∧
        ∀ instant, finishedBefore = some instant →
          ∃ finished, (chunkFacts tables allFamilies chunkId).completedAt = some finished ∧
            finished < instant := by
  have stands := stands_iff (stoppedAt_chunkFacts tables chunkId)
    (operatorCompletedAt_chunkFacts tables chunkId)
  have completed : (chunkFacts tables allFamilies chunkId).operatorCompleted =
      ((completions tables chunkId).max?).isSome := rfl
  rw [settledDone_iff_exists, exists_completion_iff, ← stands, status_eq_done_iff,
    doneByTransition_iff untied]
  generalize facts_eq : chunkFacts tables allFamilies chunkId = facts at stands completed ⊢
  cases stood : facts.stopped && !facts.operatorCompletionOutranksStop with
  | true =>
    -- a standing stop leaves neither arm and no `done`
    obtain ⟨stop, mem, -⟩ := stands.mp stood
    simp [List.ne_nil_of_mem mem]
  | false =>
    cases newest : (completions tables chunkId).max? with
    | none =>
      have none_ := List.max?_eq_none_iff.mp newest
      have noStops : stops tables chunkId = [] := by
        refine List.eq_nil_iff_forall_not_mem.mpr fun stop mem => ?_
        have := stands.mpr ⟨stop, mem, by simp [none_]⟩
        rw [stood] at this
        cases this
      have finished : facts.completedAt = if facts.newestTransitionIsTerminal = true then
          facts.newestTransition.map (·.recordedAt) else none := by
        rw [ChunkFacts.completedAt, stood, completed, newest]
        rfl
      rw [completed, newest, finished]
      simp only [none_, noStops]
      cases facts.newestTransitionIsTerminal <;> simp
    | some completion =>
      obtain ⟨mem, last⟩ := List.max?_eq_some_iff.mp newest
      have finished : facts.completedAt = some completion := by
        rw [ChunkFacts.completedAt, stood, completed, newest, ← facts_eq,
          operatorCompletedAt_chunkFacts, newest]
        rfl
      rw [completed, newest, finished]
      have some_ := List.ne_nil_of_mem mem
      have before (instant : Instant) : (∀ c ∈ completions tables chunkId, c < instant) ↔
          completion < instant :=
        ⟨fun all => all completion mem, fun below c hc => (last c hc).trans_lt below⟩
      simp [some_, before]

theorem chunkIsTerminal_iff_exists : chunkIsTerminal tables chunkId = true ↔
    stops tables chunkId ≠ [] ∨ completions tables chunkId ≠ [] ∨
      doneByTransition tables chunkId none = true := by
  simp only [chunkIsTerminal, Bool.or_eq_true, or_assoc, ne_eq, ← noStop_iff, ← noCompletion_iff,
    Bool.not_eq_false]

/-- A terminal chunk is settled stopped or settled done, and never both. -/
theorem chunkIsTerminal_iff_settled : chunkIsTerminal tables chunkId = true ↔
    settledStopped tables chunkId = true ∨ settledDone tables chunkId none = true := by
  rw [chunkIsTerminal_iff_exists, settledStopped_iff_exists, settledDone_iff_exists,
    exists_completion_iff]
  by_cases stood : ∃ stop ∈ stops tables chunkId,
      ∀ completion ∈ completions tables chunkId, completion < stop
  · obtain ⟨stop, mem, -⟩ := id stood
    simp [stood, List.ne_nil_of_mem mem]
  · by_cases completed : completions tables chunkId = []
    · have noStops : stops tables chunkId = [] := by
        refine List.eq_nil_iff_forall_not_mem.mpr fun stop mem => stood ⟨stop, mem, ?_⟩
        simp [completed]
      simp [completed, noStops]
    · simp [completed, stood]

theorem not_settledDone_of_settledStopped {finishedBefore : Option Instant}
    (stopped : settledStopped tables chunkId = true) :
    settledDone tables chunkId finishedBefore = false := by
  refine Bool.eq_false_iff.mpr fun done => ?_
  have stands := settledStopped_iff_exists.mp stopped
  rcases settledDone_iff_exists.mp done with ⟨completed, -⟩ | ⟨noStops, -, -⟩
  · exact (exists_completion_iff.mp completed).2 stands
  · obtain ⟨stop, mem, -⟩ := stands
    rw [noStops] at mem
    exact List.not_mem_nil mem

theorem chunkIsTerminal_iff (untied : Untied tables) : chunkIsTerminal tables chunkId = true ↔
    (chunkFacts tables allFamilies chunkId).status ∈ terminalStatuses := by
  rw [chunkIsTerminal_iff_settled, settledStopped_iff, settledDone_iff untied]
  simp [terminalStatuses]

theorem loadFacts_eq_some {facts : ChunkFacts} (h : loadFacts tables chunkId = some facts) :
    facts = chunkFacts tables allFamilies chunkId := by
  unfold loadFacts loadChunkFacts at h
  split at h
  · exact (Option.some.inj h).symm
  · cases h

theorem countP_add_of_split {α : Type*} {rows : List α} {p a b : α → Bool}
    (split : ∀ row ∈ rows, p row = (a row || b row))
    (apart : ∀ row ∈ rows, a row = true → b row = false) :
    rows.countP a + rows.countP b = rows.countP p := by
  induction rows with
  | nil => rfl
  | cons row rows ih =>
    have rest := ih (fun r hr => split r (List.mem_cons_of_mem _ hr))
      (fun r hr => apart r (List.mem_cons_of_mem _ hr))
    have here := split row List.mem_cons_self
    have exclusive := apart row List.mem_cons_self
    rw [List.countP_cons, List.countP_cons, List.countP_cons, here, ← rest]
    cases ha : a row <;> cases hb : b row <;> simp_all <;> omega

theorem isLoadable_of_mem {row : ChunkRow} (mem : row ∈ tables.chunks.rows) :
    isLoadable tables row.chunkId = !isEphemeralId tables row.chunkId := by
  have present : (tables.chunks.rows.any fun other => decide (other.chunkId = row.chunkId)) = true :=
    List.any_eq_true.mpr ⟨row, mem, decide_eq_true rfl⟩
  rw [isLoadable, present, Bool.true_and]

theorem derivedCount_eq (project : Option String) (status : ChunkStatus) :
    derivedCount tables project status = (countedRows tables project).countP fun row =>
      decide ((chunkFacts tables allFamilies row.chunkId).status = status) := by
  rw [derivedCount, countedRows, List.countP_filter]
  refine List.countP_congr fun row mem => ?_
  rw [loadFacts, loadChunkFacts, isLoadable_of_mem mem]
  cases isEphemeralId tables row.chunkId <;> simp [and_comm]

/-- The candidates' derived statuses, counted over the rows the prefilter keeps. -/
theorem maybeLiveStatuses_countP (project : Option String) (status : ChunkStatus) :
    ((maybeLiveStatuses tables project).countP fun entry => decide (entry.2 = status)) =
      (countedRows tables project).countP fun row => maybeLive tables row.chunkId &&
        decide ((chunkFacts tables allFamilies row.chunkId).status = status) := by
  rw [maybeLiveStatuses, List.countP_filterMap, List.countP_filter]
  refine List.countP_congr fun row mem => ?_
  obtain ⟨mem, counted⟩ := List.mem_filter.mp mem
  obtain ⟨-, kept⟩ := Bool.and_eq_true_iff.mp counted
  rw [loadChunkFacts, isLoadable_of_mem mem, if_pos kept]
  simp [status_chunkFacts_statusFamilies, and_comm]

/-- The SQL predicates settle exactly the chunks the fold derives terminal, and the count by
status is the fold's count. -/
theorem predicates_agree_with_fold (untied : Untied tables) :
    (∀ chunkId facts, loadFacts tables chunkId = some facts →
      (chunkIsTerminal tables chunkId = true ↔ facts.status ∈ terminalStatuses) ∧
      (settledStopped tables chunkId = true ↔ facts.status = .stopped) ∧
      (settledDone tables chunkId none = true ↔ facts.status = .done) ∧
      ∀ instant, settledDone tables chunkId (some instant) = true ↔
        facts.status = .done ∧ ∃ finished, facts.completedAt = some finished ∧ finished < instant) ∧
    ∀ project status, statusCounts tables project status = derivedCount tables project status := by
  constructor
  · intro chunkId facts loaded
    obtain rfl := loadFacts_eq_some loaded
    refine ⟨chunkIsTerminal_iff untied, settledStopped_iff, ?_, fun instant => ?_⟩
    · simpa using settledDone_iff untied chunkId none
    · simpa using settledDone_iff untied chunkId (some instant)
  · intro project status
    have live (row : ChunkRow) : maybeLive tables row.chunkId =
        decide ((chunkFacts tables allFamilies row.chunkId).status ∉ terminalStatuses) := by
      rw [maybeLive, Bool.eq_iff_iff, Bool.not_eq_true', ← Bool.not_eq_true, chunkIsTerminal_iff untied,
        decide_eq_true_eq]
    have stopped (row : ChunkRow) : settledStopped tables row.chunkId =
        decide ((chunkFacts tables allFamilies row.chunkId).status = .stopped) := by
      rw [Bool.eq_iff_iff, settledStopped_iff, decide_eq_true_eq]
    have done (row : ChunkRow) : settledDone tables row.chunkId none =
        decide ((chunkFacts tables allFamilies row.chunkId).status = .done) := by
      rw [Bool.eq_iff_iff, settledDone_iff untied, decide_eq_true_eq]
      simp
    rw [derivedCount_eq]
    simp only [statusCounts, maybeLiveStatuses_countP, live, stopped, done]
    split
    · refine countP_add_of_split (fun row _ => ?_) (fun row _ => ?_) <;>
        cases (chunkFacts tables allFamilies row.chunkId).status <;> decide
    · refine countP_add_of_split (fun row _ => ?_) (fun row _ => ?_) <;>
        cases (chunkFacts tables allFamilies row.chunkId).status <;> decide
    · rename_i notStopped notDone
      refine List.countP_congr fun row _ => ?_
      cases (chunkFacts tables allFamilies row.chunkId).status <;> cases status <;>
        simp_all [terminalStatuses]

/-- One chunk done by a transition at 5, one stopped: both predicates and the count see it. -/
theorem predicates_agree_with_fold_settled : ∃ tables facts,
    loadFacts tables "a" = some facts ∧ facts.status = .done ∧
    settledDone tables "a" (some 6) = true ∧ settledStopped tables "b" = true ∧
    statusCounts tables none .done = 1 ∧ statusCounts tables none .stopped = 1 := by
  let tables : Tables :=
    { Tables.minted ⟨[⟨"a", "pj", "gr", none⟩, ⟨"b", "pj", "gr", none⟩], by decide⟩ [] with
      transitions := [⟨"tr", "a", "gr", some "nd", "done", some "ship", none, 1, "r1", 5⟩]
      chunkStopped := [⟨"b", 7, none⟩] }
  have untied : Untied tables := by
    unfold Untied
    decide
  have agree := predicates_agree_with_fold untied
  obtain ⟨facts, loaded⟩ : ∃ facts, loadFacts tables "a" = some facts := ⟨_, rfl⟩
  have judged := agree.1 "a" facts loaded
  refine ⟨tables, facts, loaded, judged.2.2.1.mp ?_, ?_, ?_, ?_, ?_⟩
  · decide +kernel
  · decide +kernel
  · decide +kernel
  · rw [agree.2 none .done]
    decide +kernel
  · rw [agree.2 none .stopped]
    decide +kernel

end Blizzard.TerminalAgreement
