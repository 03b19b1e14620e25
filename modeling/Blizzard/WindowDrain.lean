import Mathlib
import Blizzard.ExportWindows
import Blizzard.SortedRanks

/-! # A drained window tells every item once

Every item's instant is that of a closing fact of its chunk, and no two items share a key. So the
candidates a window reads hold every item up to its frontier, and its position stops where the first
untold item starts. -/
namespace Blizzard.WindowDrain
open HubTables TraceSteps ExportWindows KeysetPaging
open SortedRanks (countP_lt)

/-! ## Facts behind candidates -/

section Rows
variable {facts : StepFacts}

/-- A kind's rows, read back from the facts they stand among. -/
theorem mem_read {α : Type} {read : Fact → Option α} {build : α → Fact}
    (reads : ∀ fact a, read fact = some a ↔ fact = build a) (rows : List Fact) (a : α) :
    a ∈ rows.filterMap read ↔ build a ∈ rows := by
  simp [List.mem_filterMap, reads]

@[simp] theorem mem_leaseFacts {row : TracedLease} :
    row ∈ facts.leaseFacts ↔ Fact.lease row ∈ facts.rows :=
  mem_read (by intro fact a; cases fact <;> simp) _ _

@[simp] theorem mem_epochOwners {row : TracedEpochOwner} :
    row ∈ facts.epochOwners ↔ Fact.owner row ∈ facts.rows :=
  mem_read (by intro fact a; cases fact <;> simp) _ _

@[simp] theorem mem_transitions {row : TracedTransition} :
    row ∈ facts.transitions ↔ Fact.transition row ∈ facts.rows :=
  mem_read (by intro fact a; cases fact <;> simp) _ _

@[simp] theorem mem_migrations {row : TracedMigration} :
    row ∈ facts.migrations ↔ Fact.migration row ∈ facts.rows :=
  mem_read (by intro fact a; cases fact <;> simp) _ _

@[simp] theorem mem_restarts {row : TracedTurn} :
    row ∈ facts.restarts ↔ Fact.restart row ∈ facts.rows :=
  mem_read (by intro fact a; cases fact <;> simp) _ _

@[simp] theorem mem_escalations {row : TracedTurn} :
    row ∈ facts.escalations ↔ Fact.escalation row ∈ facts.rows :=
  mem_read (by intro fact a; cases fact <;> simp) _ _

@[simp] theorem mem_decisions {row : TracedDecision} :
    row ∈ facts.decisions ↔ Fact.decision row ∈ facts.rows :=
  mem_read (by intro fact a; cases fact <;> simp) _ _

@[simp] theorem mem_requeues {row : Instant} :
    row ∈ facts.requeues ↔ Fact.requeue row ∈ facts.rows :=
  mem_read (by intro fact a; cases fact <;> simp) _ _

@[simp] theorem mem_routeReleased {row : Instant} :
    row ∈ facts.routeReleased ↔ Fact.released row ∈ facts.rows :=
  mem_read (by intro fact a; cases fact <;> simp) _ _

@[simp] theorem mem_chunkStopped {row : Instant} :
    row ∈ facts.chunkStopped ↔ Fact.stopped row ∈ facts.rows :=
  mem_read (by intro fact a; cases fact <;> simp) _ _

@[simp] theorem mem_chunkCompleted {row : Instant} :
    row ∈ facts.chunkCompleted ↔ Fact.completed row ∈ facts.rows :=
  mem_read (by intro fact a; cases fact <;> simp) _ _

theorem leastCandidate_mem {candidates : List Candidate} {best : Candidate}
    (h : leastCandidate candidates = some best) : best ∈ candidates := by
  induction candidates generalizing best with
  | nil => cases h
  | cons c rest ih =>
    rw [leastCandidate] at h
    split at h
    next => simp [← Option.some_inj.mp h]
    next held later =>
      split at h
      · rw [Option.some_inj] at h
        exact List.mem_cons_of_mem _ (h ▸ ih later)
      · simp [← Option.some_inj.mp h]

theorem leastCandidate_le {candidates : List Candidate} {best : Candidate}
    (h : leastCandidate candidates = some best) : ∀ c ∈ candidates, best.at_ ≤ c.at_ := by
  induction candidates generalizing best with
  | nil => cases h
  | cons c rest ih =>
    rw [leastCandidate] at h
    intro other held
    split at h
    next nothing =>
      have none_ : rest = [] := by
        rcases rest with _ | ⟨d, rest⟩
        · rfl
        · rw [leastCandidate] at nothing
          split at nothing
          · cases nothing
          · split at nothing <;> cases nothing
      rw [none_, List.mem_singleton] at held
      rw [held, ← Option.some_inj.mp h]
    next least later =>
      have below := ih later
      split at h <;> rw [Option.some_inj] at h <;> subst h
      next earlier =>
        rcases List.mem_cons.mp held with rfl | inside
        · rcases earlier with before | ⟨same, _⟩
          · exact before.le
          · exact same.le
        · exact below other inside
      next notEarlier =>
        rcases List.mem_cons.mp held with rfl | inside
        · exact le_refl _
        · have bound := below other inside
          have : ¬ least.at_ < c.at_ := fun before => notEarlier (.inl before)
          exact (not_lt.mp this).trans bound

theorem leastCandidate_isSome {candidates : List Candidate} {c : Candidate}
    (held : c ∈ candidates) : ∃ best, leastCandidate candidates = some best := by
  rcases candidates with _ | ⟨d, rest⟩
  · cases held
  · rw [leastCandidate]
    split
    · exact ⟨_, rfl⟩
    · split <;> exact ⟨_, rfl⟩

/-- Behind a candidate instant stands a fact of a closing table. -/
def ClosedBy (facts : StepFacts) (at_ : Instant) : Prop :=
  ∃ fact ∈ facts.rows, tableOf fact ∈ closingTables ∧ fact.at_ = at_

theorem terminalCandidates_closedBy {start : Instant} {epoch : ℕ} {c : Candidate}
    (held : c ∈ terminalCandidates facts start epoch) : ClosedBy facts c.at_ := by
  simp only [terminalCandidates, List.mem_append, List.mem_map, List.mem_filter,
    mem_chunkStopped, mem_chunkCompleted, Option.mem_toList] at held
  rcases held with (⟨at_, ⟨row, _⟩, rfl⟩ | ⟨at_, ⟨row, _⟩, rfl⟩) | ⟨at_, first, rfl⟩
  · exact ⟨_, row, by simp [tableOf, closingTables], rfl⟩
  · exact ⟨_, row, by simp [tableOf, closingTables], rfl⟩
  · obtain ⟨o, owner, rfl⟩ := List.mem_map.mp (List.min?_mem first)
    exact ⟨_, mem_epochOwners.mp (List.mem_filter.mp owner).1, by simp [tableOf, closingTables],
      rfl⟩

theorem runnerCandidates_closedBy {epoch : ℕ} {start : Instant} {c : Candidate}
    (held : c ∈ runnerCandidates facts epoch start) : ClosedBy facts c.at_ := by
  simp only [runnerCandidates, List.mem_append, List.mem_map, List.mem_filter, mem_transitions,
    mem_decisions, mem_migrations, mem_escalations, mem_routeReleased] at held
  rcases held with ((((⟨t, ⟨row, _⟩, rfl⟩ | ⟨d, ⟨row, _⟩, rfl⟩) | ⟨m, ⟨row, _⟩, rfl⟩) |
    ⟨e, ⟨row, _⟩, rfl⟩) | ⟨at_, ⟨row, _⟩, rfl⟩) | terminal
  all_goals first
    | exact terminalCandidates_closedBy terminal
    | exact ⟨_, row, by simp [tableOf, closingTables], rfl⟩

theorem gateCandidates_closedBy {decision : TracedDecision} {c : Candidate}
    (held : c ∈ gateCandidates facts decision) : ClosedBy facts c.at_ := by
  simp only [gateCandidates, List.mem_append, List.mem_map, List.mem_filter, mem_transitions,
    mem_restarts, mem_migrations, mem_escalations] at held
  rcases held with (((⟨t, ⟨row, _⟩, rfl⟩ | ⟨m, ⟨row, _⟩, rfl⟩) | ⟨e, ⟨row, _⟩, rfl⟩) |
    ⟨r, ⟨row, _⟩, rfl⟩) | terminal
  all_goals first
    | exact terminalCandidates_closedBy terminal
    | exact ⟨_, row, by simp [tableOf, closingTables], rfl⟩

theorem earliest_closedBy {candidates : List Candidate} {close : StepClose}
    (each : ∀ c ∈ candidates, ClosedBy facts c.at_) (h : earliest candidates = some close) :
    ClosedBy facts close.at_ := by
  obtain ⟨best, least, rfl⟩ := Option.map_eq_some_iff.mp h
  exact each best (leastCandidate_mem least)

/-- What an attempt step is made of. -/
theorem mem_attemptSteps {step : NodeStep} : step ∈ attemptSteps facts ↔
    ∃ epoch owner minted, (∃ lease ∈ facts.leaseFacts, lease.epoch = epoch) ∧
      ownerOf facts epoch = some owner ∧
      ((facts.leaseFacts.filter (·.epoch = epoch)).map (·.mintedAt)).min? = some minted ∧
      step = let start := if owner.runnerId.isNone then hubStart facts minted else minted
        { kind := if owner.runnerId.isNone then .hub else .runner
          key := { chunkId := facts.chunkId, epoch }
          epoch, runnerId := owner.runnerId, start, close := runnerClose facts epoch start } := by
  rw [attemptSteps, List.mem_filterMap]
  constructor
  · rintro ⟨epoch, listed, built⟩
    simp only [Option.bind_eq_bind, Option.bind_eq_some_iff, Option.some_inj] at built
    obtain ⟨owner, owned, minted, least, rfl⟩ := built
    rw [List.mem_insertionSort, List.mem_dedup, List.mem_map] at listed
    exact ⟨epoch, owner, minted, listed, owned, least, rfl⟩
  · rintro ⟨epoch, owner, minted, listed, owned, least, rfl⟩
    refine ⟨epoch, ?_, ?_⟩
    · rw [List.mem_insertionSort, List.mem_dedup, List.mem_map]
      exact listed
    · simp only [Option.bind_eq_bind, owned, Option.bind_some, least]

theorem mem_identifySteps {step : NodeStep} :
    step ∈ identifySteps facts ↔ step ∈ attemptSteps facts ∨ step ∈ gateSteps facts := by
  rw [identifySteps, List.mem_insertionSort, List.mem_append]

theorem step_close {step : NodeStep} {close : StepClose} (held : step ∈ identifySteps facts)
    (closed : step.close = some close) : ClosedBy facts close.at_ := by
  rcases mem_identifySteps.mp held with attempt | gate
  · obtain ⟨epoch, owner, minted, _, _, _, rfl⟩ := mem_attemptSteps.mp attempt
    exact earliest_closedBy (fun c => runnerCandidates_closedBy) closed
  · obtain ⟨d, _, rfl⟩ := List.mem_map.mp gate
    exact earliest_closedBy (fun c => gateCandidates_closedBy) closed

theorem step_chunk {step : NodeStep} (held : step ∈ identifySteps facts) :
    step.key.chunkId = facts.chunkId := by
  rcases mem_identifySteps.mp held with attempt | gate
  · obtain ⟨epoch, owner, minted, _, _, _, rfl⟩ := mem_attemptSteps.mp attempt
    rfl
  · obtain ⟨d, _, rfl⟩ := List.mem_map.mp gate
    rfl

theorem chunkEnd_closedBy {finish : ChunkEnd} (h : chunkEnd facts = some finish) :
    ClosedBy facts finish.at_ := by
  have done {at_ : Instant} (first : ((facts.transitions.filter
      (·.toNodeId = reservedTerminal)).map (·.recordedAt) ++ facts.chunkCompleted).min? =
        some at_) : ClosedBy facts at_ := by
    rcases List.mem_append.mp (List.min?_mem first) with moved | completed
    · obtain ⟨t, held, rfl⟩ := List.mem_map.mp moved
      exact ⟨_, mem_transitions.mp (List.mem_filter.mp held).1, by simp [tableOf, closingTables],
        rfl⟩
    · exact ⟨_, mem_chunkCompleted.mp completed, by simp [tableOf, closingTables], rfl⟩
  have stopped {at_ : Instant} (first : facts.chunkStopped.min? = some at_) :
      ClosedBy facts at_ :=
    ⟨_, mem_chunkStopped.mp (List.min?_mem first), by simp [tableOf, closingTables], rfl⟩
  rw [chunkEnd] at h
  split at h
  next => cases h
  next first _ =>
    obtain rfl := Option.some_inj.mp h
    exact done first
  next _ first =>
    obtain rfl := Option.some_inj.mp h
    exact stopped first
  next first second =>
    split at h <;> obtain rfl := Option.some_inj.mp h
    · exact done first
    · exact stopped second

/-- What a chunk's own items are. -/
theorem mem_chunkItems {item : TraceItem} (held : item ∈ chunkItems facts) :
    ClosedBy facts item.key.at_ ∧ item.key.chunkId = facts.chunkId := by
  rw [chunkItems] at held
  split at held
  next finish _ ended _ =>
    rcases List.mem_cons.mp held with rfl | later
    · exact ⟨chunkEnd_closedBy ended, rfl⟩
    · simp only [List.mem_map, Option.mem_toList] at later
      obtain ⟨completed, at_, rfl⟩ := later
      rw [completionInstant] at at_
      split at at_
      next =>
        have held := (List.mem_filter.mp (List.min?_mem at_)).1
        exact ⟨⟨_, mem_chunkCompleted.mp held, by simp [tableOf, closingTables], rfl⟩, rfl⟩
      next => cases at_
  next => cases held

theorem mem_closedSteps {item : TraceItem} : item ∈ closedSteps facts ↔
    ∃ step ∈ identifySteps facts, ∃ close, step.close = some close ∧
      item = .closedStep (CursorKey.of step close) step facts := by
  rw [closedSteps, List.mem_filterMap]
  constructor
  · rintro ⟨step, held, built⟩
    obtain ⟨close, closed, rfl⟩ := Option.map_eq_some_iff.mp built
    exact ⟨step, held, close, closed, rfl⟩
  · rintro ⟨step, held, close, closed, rfl⟩
    exact ⟨step, held, by rw [closed]; rfl⟩

/-- Every item's instant is a closing fact's, and its key names its chunk. -/
theorem item_closedBy {item : TraceItem} (held : item ∈ itemsOf facts) :
    ClosedBy facts item.key.at_ ∧ item.key.chunkId = facts.chunkId := by
  rcases List.mem_append.mp held with step | chunk
  · obtain ⟨step, inside, close, closed, rfl⟩ := mem_closedSteps.mp step
    exact ⟨step_close inside closed, step_chunk inside⟩
  · exact mem_chunkItems chunk

/-! ## Distinct keys -/

theorem filterMap_map_sublist {α β γ : Type} {pick : α → Option β} {label : β → γ} {mark : α → γ}
    (same : ∀ a b, pick a = some b → label b = mark a) (rows : List α) :
    ((rows.filterMap pick).map label).Sublist (rows.map mark) := by
  induction rows with
  | nil => exact List.Sublist.refl _
  | cons a rest ih =>
    rw [List.filterMap_cons, List.map_cons]
    split
    next => exact ih.cons _
    next b picked =>
      rw [List.map_cons, same a b picked]
      exact ih.cons_cons _

/-- What tells a chunk's steps apart. -/
def stepLabel (step : NodeStep) : ℤ × String := (step.epoch, step.decisionId.getD "")

theorem attempt_labels : ((attemptSteps facts).map stepLabel).Sublist
    (((facts.leaseFacts.map (·.epoch)).dedup.insertionSort (· ≤ ·)).map
      fun epoch : ℕ => ((epoch : ℤ), "")) := by
  apply filterMap_map_sublist
  intro epoch step built
  simp only [Option.bind_eq_bind, Option.bind_eq_some_iff, Option.some_inj] at built
  obtain ⟨owner, _, minted, _, rfl⟩ := built
  rfl

theorem step_labels_nodup (decided : (facts.decisions.map (·.decisionId)).Nodup) :
    ((identifySteps facts).map stepLabel).Nodup := by
  have attempts : ((attemptSteps facts).map stepLabel).Nodup := by
    apply attempt_labels.nodup
    apply List.Nodup.map
    · intro a b same
      exact_mod_cast (Prod.mk.inj same).1
    · exact (List.perm_insertionSort _ _).nodup_iff.mpr (List.nodup_dedup _)
  have gates : ((gateSteps facts).map stepLabel).Nodup := by
    rw [gateSteps, List.map_map]
    have marked := decided
    rw [List.nodup_map_iff_inj_on (List.Nodup.of_map _ decided)] at marked ⊢
    intro a ha b hb same
    apply marked a ha b hb
    simpa [stepLabel] using (Prod.mk.injEq .. ▸ same).2
  rw [identifySteps, ((List.perm_insertionSort _ _).map stepLabel).nodup_iff, List.map_append,
    List.nodup_append]
  refine ⟨attempts, gates, ?_⟩
  rintro label attempt other gate rfl
  obtain ⟨epoch, _, rfl⟩ := List.mem_map.mp (attempt_labels.subset attempt)
  obtain ⟨step, held, labelled⟩ := List.mem_map.mp gate
  obtain ⟨d, _, rfl⟩ := List.mem_map.mp held
  exact d.named (Prod.mk.injEq .. ▸ labelled).2

theorem item_keys_nodup (decided : (facts.decisions.map (·.decisionId)).Nodup) :
    ((itemsOf facts).map TraceItem.key).Nodup := by
  have steps : ((closedSteps facts).map fun item =>
      (item.key.epoch, item.key.decisionId)).Nodup := by
    have inside : ((closedSteps facts).map fun item =>
        (item.key.epoch, item.key.decisionId)).Sublist ((identifySteps facts).map stepLabel) := by
      apply filterMap_map_sublist
      intro step item built
      obtain ⟨close, _, rfl⟩ := Option.map_eq_some_iff.mp built
      rfl
    exact inside.nodup (step_labels_nodup decided)
  have chunk : ((chunkItems facts).map fun item =>
      (item.key.epoch, item.key.decisionId)).Nodup := by
    rw [chunkItems]
    split
    next => cases completionInstant facts <;> simp [TraceItem.key, CursorKey.chunkFinished,
        CursorKey.chunkCompleted]
    next => exact List.nodup_nil
  have apart : ((itemsOf facts).map fun item =>
      (item.key.epoch, item.key.decisionId)).Nodup := by
    rw [itemsOf, List.map_append, List.nodup_append]
    refine ⟨steps, chunk, ?_⟩
    rintro label step other finish rfl
    obtain ⟨item, held, labelled⟩ := List.mem_map.mp step
    obtain ⟨s, _, close, _, rfl⟩ := mem_closedSteps.mp held
    obtain ⟨own, hown, again⟩ := List.mem_map.mp finish
    have early : own.key.epoch = -1 := by
      rw [chunkItems] at hown
      split at hown
      next =>
        rcases List.mem_cons.mp hown with rfl | later
        · rfl
        · obtain ⟨_, _, rfl⟩ := List.mem_map.mp later
          rfl
      next => cases hown
    have same : own.key.epoch = (s.epoch : ℤ) :=
      (congrArg Prod.fst (labelled.trans again.symm)).symm
    omega
  have through : ((itemsOf facts).map fun item => (item.key.epoch, item.key.decisionId)) =
      ((itemsOf facts).map TraceItem.key).map fun key => (key.epoch, key.decisionId) := by
    rw [List.map_map]
    rfl
  rw [through] at apart
  exact List.Nodup.of_map _ apart

end Rows

/-! ## The corpus in key order -/

variable {corpus : Corpus}

theorem decisions_nodup (corpus : Corpus) (chunk : ChunkId) :
    ((stepFactsFor corpus chunk).decisions.map (·.decisionId)).Nodup := by
  have inside : ((stepFactsFor corpus chunk).decisions.map (·.decisionId)).Sublist
      (corpus.rows.filterMap (·.decisionId?)) := by
    have through : (stepFactsFor corpus chunk).decisions.map (·.decisionId) =
        (corpus.rows.filter (·.chunkId = chunk)).filterMap (·.decisionId?) := by
      rw [StepFacts.decisions, stepFactsFor, List.filterMap_map, List.map_filterMap]
      apply List.filterMap_congr
      intro row _
      rw [FactRow.decisionId?, Function.comp_apply]
      cases row.fact <;> rfl
    rw [through]
    exact List.filter_sublist.filterMap _
  exact inside.nodup corpus.decided

theorem chunk_item_keys_nodup (corpus : Corpus) {chunks : List ChunkId} (distinct : chunks.Nodup) :
    ((chunks.flatMap fun chunk => itemsOf (stepFactsFor corpus chunk)).map
      TraceItem.key).Nodup := by
  rw [List.map_flatMap, List.nodup_flatMap]
  refine ⟨fun chunk _ => item_keys_nodup (decisions_nodup corpus chunk), ?_⟩
  apply distinct.imp
  intro a b differs key inA inB
  obtain ⟨x, hx, rfl⟩ := List.mem_map.mp inA
  obtain ⟨y, hy, same⟩ := List.mem_map.mp inB
  apply differs
  have ofX := (item_closedBy hx).2
  have ofY := (item_closedBy hy).2
  rw [same] at ofY
  exact ofX.symm.trans ofY

theorem mem_corpusItems {item : TraceItem} : item ∈ corpusItems corpus ↔
    ∃ row ∈ corpus.rows, item ∈ itemsOf (stepFactsFor corpus row.chunkId) := by
  simp [corpusItems, List.mem_insertionSort, List.mem_flatMap, List.mem_dedup]

theorem corpusItems_keys_nodup (corpus : Corpus) :
    ((corpusItems corpus).map TraceItem.key).Nodup := by
  rw [corpusItems, ((List.perm_insertionSort _ _).map TraceItem.key).nodup_iff]
  exact chunk_item_keys_nodup corpus (List.nodup_dedup _)

/-- Sorted by keys that are all different is sorted strictly. -/
theorem strictly_sorted {items : List TraceItem} (distinct : (items.map TraceItem.key).Nodup)
    (sorted : items.Pairwise fun a b => a.key ≤ b.key) :
    items.Pairwise fun a b => a.key < b.key := by
  rw [List.Nodup, List.pairwise_map] at distinct
  exact (sorted.and distinct).imp fun h => lt_of_le_of_ne h.1 h.2

theorem sorted_by_key (items : List TraceItem) :
    (items.insertionSort fun a b => a.key ≤ b.key).Pairwise fun a b => a.key ≤ b.key := by
  have total : Std.Total fun a b : TraceItem => a.key ≤ b.key := ⟨fun a b => le_total _ _⟩
  have trans : IsTrans TraceItem fun a b => a.key ≤ b.key := ⟨fun _ _ _ => le_trans⟩
  exact List.pairwise_insertionSort _ _

theorem corpusItems_sorted (corpus : Corpus) :
    (corpusItems corpus).Pairwise fun a b => a.key < b.key :=
  strictly_sorted (corpusItems_keys_nodup corpus) (sorted_by_key _)

/-- A fact of a closing table stands behind every item of the corpus. -/
theorem corpus_item_closedBy {item : TraceItem} (held : item ∈ corpusItems corpus) :
    item ∈ itemsOf (stepFactsFor corpus item.key.chunkId) ∧ item.key.chunkId ≠ "" ∧
      ∃ row ∈ corpus.rows, row.table ∈ closingTables ∧ row.at_ = item.key.at_ ∧
        row.chunkId = item.key.chunkId := by
  obtain ⟨row, inside, mine⟩ := mem_corpusItems.mp held
  obtain ⟨⟨fact, hfact, table, at_⟩, chunk⟩ := item_closedBy mine
  have named : item.key.chunkId = row.chunkId := chunk
  refine ⟨by rwa [named], by rw [named]; exact row.named, ?_⟩
  obtain ⟨source, hsource, rfl⟩ := List.mem_map.mp hfact
  obtain ⟨stored, same⟩ := List.mem_filter.mp hsource
  exact ⟨source, stored, table, at_, (of_decide_eq_true same).trans named.symm⟩

/-! ## One table's pages -/

theorem tableRows_sorted (corpus : Corpus) (table : FactTable) (until_ : Instant) :
    (tableRows corpus table until_).Pairwise fun a b => a.pageKey < b.pageKey := by
  have total : Std.Total fun a b : FactRow => a.pageKey ≤ b.pageKey := ⟨fun a b => le_total _ _⟩
  have trans : IsTrans FactRow fun a b => a.pageKey ≤ b.pageKey := ⟨fun _ _ _ => le_trans⟩
  have sorted := List.pairwise_insertionSort (fun a b : FactRow => a.pageKey ≤ b.pageKey)
    (corpus.rows.filter fun row => row.table = table ∧ row.at_ ≤ until_)
  have keyed : ((tableRows corpus table until_).map fun row => (row.table, row.rowId)).Nodup := by
    rw [tableRows, ((List.perm_insertionSort _ _).map _).nodup_iff]
    exact (List.filter_sublist.map _).nodup corpus.keyed
  have ofTable : ∀ row ∈ tableRows corpus table until_, row.table = table := by
    intro row held
    rw [tableRows, List.mem_insertionSort] at held
    exact (of_decide_eq_true (List.mem_filter.mp held).2).1
  rw [List.Nodup, List.pairwise_map] at keyed
  have both := List.Pairwise.and sorted keyed
  refine both.imp_of_mem ?_
  intro a b ha hb h
  apply lt_of_le_of_ne h.1
  intro same
  have ids := (Prod.mk.inj (toLex.injective same)).2
  exact h.2 (Prod.ext ((ofTable a ha).trans (ofTable b hb).symm) ids)

/-- The page after a row is the rows after its key. -/
theorem pageAfter_eq (window : List FactRow) (last : FactRow) (limit : ℕ) :
    pageAfter window last limit =
      (rowsAfter FactRow.pageKey window (some last.pageKey)).take limit := by
  rw [pageAfter, rowsAfter]
  congr 1
  apply List.filter_congr
  intro row _
  rw [Option.all_some, decide_eq_decide]
  rw [FactRow.pageKey, FactRow.pageKey, Prod.Lex.toLex_lt_toLex]
  constructor
  · rintro ⟨reached, notBefore⟩
    rcases lt_or_eq_of_le reached with later | same
    · exact .inl later
    · exact .inr ⟨same, not_le.mp fun low => notBefore ⟨same.symm, low⟩⟩
  · rintro (later | ⟨same, higher⟩)
    · exact ⟨later.le, fun h => absurd h.1 (ne_of_gt later)⟩
    · exact ⟨same.le, fun h => absurd higher (not_lt.mpr h.2)⟩

/-- Pages from `since` on: a prefix of the rows, all of them where the last page was short, and one
that left `since` where it was full. -/
theorem pageOn_spec {window all : List FactRow} {since : Instant} {limit : ℕ}
    (some_ : 0 < limit) (sorted : all.Pairwise fun a b => a.pageKey < b.pageKey)
    (ofWindow : all = window.filter (since ≤ ·.at_)) (fuel k : ℕ) {rows page : List FactRow}
    (prefix_ : rows = all.take (k + limit)) (last_ : page = (all.drop k).take limit)
    (enough : all.length - k < fuel) :
    let result := pageOn window since limit fuel rows page
    (∃ n, result.1 = all.take n) ∧ (result.2 = false → result.1 = all) ∧
      (result.2 = true → ∃ last, result.1.getLast? = some last ∧ last.at_ ≠ since) := by
  have short (partial_ : page.length ≠ limit) : rows = all := by
    rw [prefix_]
    apply List.take_of_length_le
    have : page.length = min limit (all.length - k) := by
      rw [last_, List.length_take, List.length_drop]
    omega
  induction fuel generalizing k rows page with
  | zero => omega
  | succ fuel ih =>
    rw [pageOn]
    split
    next last hlast =>
      split
      next again =>
        obtain ⟨full, dense⟩ := again
        have inside : last ∈ all := by
          have := List.mem_of_getLast? hlast
          rw [prefix_] at this
          exact List.mem_of_mem_take this
        have rest : rowsAfter FactRow.pageKey window (some last.pageKey) =
            all.drop (k + limit) := by
          have next : rowsAfter FactRow.pageKey all (some last.pageKey) =
              (rowsAfter FactRow.pageKey all none).drop (k + limit) :=
            rowsAfter_next sorted (by simpa [rowsAfter, ← prefix_] using hlast)
          have everything : rowsAfter FactRow.pageKey all none = all := by simp [rowsAfter]
          rw [everything] at next
          rw [← next, rowsAfter, rowsAfter, ofWindow, List.filter_filter]
          apply List.filter_congr
          intro row _
          simp only [Option.all_some]
          rw [Bool.eq_iff_iff, Bool.and_eq_true, decide_eq_true_eq, decide_eq_true_eq]
          constructor
          · intro after
            refine ⟨after, dense ▸ ?_⟩
            rcases Prod.Lex.toLex_lt_toLex.mp after with later | ⟨same, _⟩
            · exact later.le
            · exact same.le
          · exact fun h => h.1
        rw [pageAfter_eq, rest]
        have length : page.length = min limit (all.length - k) := by
          rw [last_, List.length_take, List.length_drop]
        apply ih (k + limit)
        · rw [prefix_, ← List.take_append_drop (k + limit) (all.take (k + limit + limit)),
            List.take_take, List.drop_take]
          congr 1
          · congr 1
            omega
          · congr 1
            omega
        · rfl
        · omega
        · intro partial_
          rw [prefix_]
          have taken : ((all.drop (k + limit)).take limit).length =
              min limit (all.length - (k + limit)) := by
            rw [List.length_take, List.length_drop]
          rw [List.take_of_length_le (l := all.drop (k + limit)) (by
            rw [List.length_drop]; omega)]
          exact List.take_append_drop _ _
      next done =>
        refine ⟨⟨_, prefix_⟩, fun partial_ => short (of_decide_eq_false partial_), ?_⟩
        intro full
        exact ⟨last, hlast, fun dense => done ⟨of_decide_eq_true full, dense⟩⟩
    next nothing =>
      have empty : rows = [] := List.getLast?_eq_none_iff.mp nothing
      have none_ : page.length ≠ limit := by
        have bound : all.length = 0 := by
          have := congrArg List.length (prefix_.symm.trans empty)
          rw [List.length_take, List.length_nil] at this
          omega
        rw [last_, List.length_take, List.length_drop]
        omega
      exact ⟨⟨_, prefix_⟩, fun _ => short none_, fun full => absurd (of_decide_eq_true full) none_⟩

/-- A closing row between the bounds of a read. -/
def InRange (corpus : Corpus) (since until_ : Instant) (row : FactRow) : Prop :=
  row ∈ corpus.rows ∧ since ≤ row.at_ ∧ row.at_ ≤ until_

theorem mem_all {table : FactTable} {since until_ : Instant} {row : FactRow} :
    row ∈ (tableRows corpus table until_).filter (since ≤ ·.at_) ↔
      InRange corpus since until_ row ∧ row.table = table := by
  simp only [List.mem_filter, tableRows, List.mem_insertionSort, InRange, Bool.decide_and,
    Bool.and_eq_true, decide_eq_true_eq]
  constructor
  · rintro ⟨⟨stored, ofTable, low⟩, high⟩
    exact ⟨⟨stored, high, low⟩, ofTable⟩
  · rintro ⟨⟨stored, high, low⟩, ofTable⟩
    exact ⟨⟨stored, ofTable, low⟩, high⟩

/-- What one table's read holds: rows in range, all of them where it is short, and every one before
the last instant it reached where it is full, which is past `since`. -/
theorem closingRows_spec (corpus : Corpus) (table : FactTable) (since until_ : Instant)
    {limit : ℕ} (some_ : 0 < limit) :
    let read := closingRows corpus table since until_ limit
    (∀ row ∈ read.1, InRange corpus since until_ row ∧ row.table = table) ∧
      (read.2 = false → ∀ row, InRange corpus since until_ row → row.table = table →
        row ∈ read.1) ∧
      (read.2 = true → ∃ last ∈ read.1, read.1.getLast? = some last ∧ since < last.at_ ∧
        ∀ row, InRange corpus since until_ row → row.table = table → row.at_ < last.at_ →
          row ∈ read.1) ∧
      (∀ row ∈ read.1, ∃ last, read.1.getLast? = some last ∧ row.at_ ≤ last.at_) := by
  set all := (tableRows corpus table until_).filter (since ≤ ·.at_) with hall
  have sorted : all.Pairwise fun a b => a.pageKey < b.pageKey :=
    (tableRows_sorted corpus table until_).filter _
  have first : all.take limit = all.take (0 + limit) := by rw [Nat.zero_add]
  have page : all.take limit = (all.drop 0).take limit := by rw [List.drop_zero]
  obtain ⟨⟨n, prefix_⟩, short, full⟩ := pageOn_spec some_ sorted hall
    ((tableRows corpus table until_).length + 1) 0 first page
    (by
      have : all.length ≤ (tableRows corpus table until_).length := List.length_filter_le _ _
      omega)
  have read : closingRows corpus table since until_ limit = pageOn (tableRows corpus table until_)
      since limit ((tableRows corpus table until_).length + 1) (all.take limit)
        (all.take limit) := rfl
  rw [read]
  refine ⟨?_, ?_, ?_, ?_⟩
  · intro row held
    rw [prefix_] at held
    exact mem_all.mp (List.mem_of_mem_take held)
  · intro partial_ row inside ofTable
    rw [short partial_]
    exact mem_all.mpr ⟨inside, ofTable⟩
  · intro saturated
    obtain ⟨last, hlast, left⟩ := full saturated
    have held := List.mem_of_getLast? hlast
    have inAll := held
    rw [prefix_] at inAll
    have reached := (mem_all.mp (List.mem_of_mem_take inAll)).1.2.1
    refine ⟨last, held, hlast, lt_of_le_of_ne reached (Ne.symm left), ?_⟩
    intro row inside ofTable before
    have whole : row ∈ all := mem_all.mpr ⟨inside, ofTable⟩
    rw [prefix_]
    rw [← List.take_append_drop n all, List.mem_append] at whole
    rcases whole with early | late
    · exact early
    · exfalso
      rw [← List.take_append_drop n all, List.pairwise_append] at sorted
      have after := sorted.2.2 last inAll row late
      rcases Prod.Lex.toLex_lt_toLex.mp after with later | ⟨same, _⟩
      · exact absurd later (not_lt.mpr before.le)
      · exact absurd same (ne_of_gt before)
  · intro row held
    rw [prefix_] at held ⊢
    have nonempty : all.take n ≠ [] := List.ne_nil_of_mem held
    refine ⟨(all.take n).getLast nonempty, List.getLast?_eq_some_getLast nonempty, ?_⟩
    have ordered : (all.take n).Pairwise fun a b => a.pageKey < b.pageKey :=
      sorted.sublist (List.take_sublist _ _)
    rw [← List.dropLast_append_getLast nonempty, List.mem_append, List.mem_singleton] at held
    rcases held with early | rfl
    · rw [← List.dropLast_append_getLast nonempty, List.pairwise_append] at ordered
      have after := ordered.2.2 row early _ (List.mem_singleton_self _)
      rcases Prod.Lex.toLex_lt_toLex.mp after with later | ⟨same, _⟩
      · exact later.le
      · exact same.le
    · exact le_refl _

/-! ## The candidates of a window -/

section Candidates
variable {since until_ : Instant} {limit : ℕ}

/-- The frontier is no later than the last instant of any table still full. -/
theorem frontier_le {table : FactTable} {last : FactRow} (closing : table ∈ closingTables)
    (full : (closingRows corpus table since until_ limit).2 = true)
    (reached : (closingRows corpus table since until_ limit).1.getLast? = some last) :
    ∃ f, (closingCandidates corpus since until_ limit).frontier = some f ∧ f ≤ last.at_ := by
  have listed : last.at_ ∈ ((closingTables.map fun table =>
      closingRows corpus table since until_ limit).filter (·.2)).filterMap
        fun r => r.1.getLast?.map (·.at_) := by
    refine List.mem_filterMap.mpr ⟨_, List.mem_filter.mpr
      ⟨List.mem_map.mpr ⟨table, closing, rfl⟩, full⟩, ?_⟩
    rw [reached]
    rfl
  rcases frontier : (closingCandidates corpus since until_ limit).frontier with _ | f
  · exact absurd (List.min?_eq_none_iff.mp frontier) (List.ne_nil_of_mem listed)
  · exact ⟨f, rfl, (List.min?_eq_some_iff.mp frontier).2 _ listed⟩

/-- The newest is no earlier than the last instant of any table. -/
theorem le_newest {table : FactTable} {last : FactRow} (closing : table ∈ closingTables)
    (reached : (closingRows corpus table since until_ limit).1.getLast? = some last) :
    ∃ n, (closingCandidates corpus since until_ limit).newest = some n ∧ last.at_ ≤ n := by
  have listed : last.at_ ∈ (closingTables.map fun table =>
      closingRows corpus table since until_ limit).filterMap
        fun r => r.1.getLast?.map (·.at_) := by
    refine List.mem_filterMap.mpr ⟨_, List.mem_map.mpr ⟨table, closing, rfl⟩, ?_⟩
    rw [reached]
    rfl
  rcases newest : (closingCandidates corpus since until_ limit).newest with _ | n
  · exact absurd (List.max?_eq_none_iff.mp newest) (List.ne_nil_of_mem listed)
  · exact ⟨n, rfl, (List.max?_eq_some_iff.mp newest).2 _ listed⟩

/-- Every closing row short of the frontier has its chunk among the candidates. -/
theorem candidates_cover (some_ : 0 < limit) {row : FactRow}
    (inside : InRange corpus since until_ row) (closing : row.table ∈ closingTables)
    (short : ∀ f ∈ (closingCandidates corpus since until_ limit).frontier, row.at_ < f) :
    row.chunkId ∈ (closingCandidates corpus since until_ limit).chunkIds := by
  obtain ⟨_, partial_, full, _⟩ := closingRows_spec corpus row.table since until_ some_
  have held : row ∈ (closingRows corpus row.table since until_ limit).1 := by
    rcases saturated : (closingRows corpus row.table since until_ limit).2 with _ | _
    · exact partial_ saturated row inside rfl
    · obtain ⟨last, hlast, reached, _, before⟩ := full saturated
      obtain ⟨f, frontier, least⟩ := frontier_le closing saturated reached
      exact before row inside rfl (lt_of_lt_of_le (short f frontier) least)
  exact List.mem_dedup.mpr (List.mem_flatMap.mpr ⟨_, List.mem_map.mpr ⟨row.table, closing, rfl⟩,
    List.mem_map_of_mem held⟩)

theorem frontier_spec {f : Instant} (some_ : 0 < limit)
    (frontier : (closingCandidates corpus since until_ limit).frontier = some f) :
    ∃ row, InRange corpus since until_ row ∧ row.table ∈ closingTables ∧ row.at_ = f ∧
      since < f := by
  obtain ⟨r, saturated, mapped⟩ := List.mem_filterMap.mp (List.min?_mem frontier)
  obtain ⟨listed, full⟩ := List.mem_filter.mp saturated
  obtain ⟨table, closing, rfl⟩ := List.mem_map.mp listed
  obtain ⟨each, _, whenFull, _⟩ := closingRows_spec corpus table since until_ some_
  obtain ⟨last, held, reached, later, _⟩ := whenFull full
  rw [reached, Option.map_some, Option.some_inj] at mapped
  subst mapped
  exact ⟨last, (each last held).1, (each last held).2 ▸ closing, rfl, later⟩

theorem newest_spec {n : Instant} (some_ : 0 < limit)
    (newest : (closingCandidates corpus since until_ limit).newest = some n) :
    ∃ row, InRange corpus since until_ row ∧ row.table ∈ closingTables ∧ row.at_ = n := by
  obtain ⟨r, listed, mapped⟩ := List.mem_filterMap.mp (List.max?_mem newest)
  obtain ⟨table, closing, rfl⟩ := List.mem_map.mp listed
  obtain ⟨each, _⟩ := closingRows_spec corpus table since until_ some_
  obtain ⟨last, reached, rfl⟩ := Option.map_eq_some_iff.mp mapped
  have held := List.mem_of_getLast? reached
  exact ⟨last, (each last held).1, (each last held).2 ▸ closing, rfl⟩

/-- Without a frontier every closing row in range was read, none of them later than the newest. -/
theorem unsaturated_spec (some_ : 0 < limit)
    (frontier : (closingCandidates corpus since until_ limit).frontier = none) {row : FactRow}
    (inside : InRange corpus since until_ row) (closing : row.table ∈ closingTables) :
    ∃ n, (closingCandidates corpus since until_ limit).newest = some n ∧ row.at_ ≤ n := by
  obtain ⟨_, partial_, full, below⟩ := closingRows_spec corpus row.table since until_ some_
  have unsaturated : (closingRows corpus row.table since until_ limit).2 = false := by
    rcases saturated : (closingRows corpus row.table since until_ limit).2 with _ | _
    · rfl
    · obtain ⟨last, _, reached, _⟩ := full saturated
      obtain ⟨f, some_, _⟩ := frontier_le closing saturated reached
      rw [frontier] at some_
      cases some_
  obtain ⟨last, reached, bound⟩ := below row (partial_ unsaturated row inside rfl)
  obtain ⟨n, newest, later⟩ := le_newest closing reached
  exact ⟨n, newest, bound.trans later⟩

end Candidates

/-! ## One window -/

/-- A list in strict key order splits where a test that earlier keys inherit first fails. -/
theorem filter_split {items : List TraceItem} {test : TraceItem → Bool}
    (sorted : items.Pairwise fun a b => a.key < b.key)
    (earlier : ∀ a b, a.key < b.key → test b = true → test a = true) :
    items = items.filter test ++ items.filter fun item => !test item := by
  induction items with
  | nil => rfl
  | cons item rest ih =>
    obtain ⟨first, sortedRest⟩ := List.pairwise_cons.mp sorted
    by_cases passes : test item = true
    · rw [List.filter_cons_of_pos passes, List.filter_cons_of_neg (by simp [passes]),
        List.cons_append, ← ih sortedRest]
    · have none_ : rest.filter test = [] := by
        rw [List.filter_eq_nil_iff]
        intro later held hit
        exact passes (earlier item later (first later held) hit)
      have all : rest.filter (fun item => !test item) = rest := by
        rw [List.filter_eq_self]
        intro later held
        rw [Bool.not_eq_true']
        by_contra hit
        exact passes (earlier item later (first later held) (by simpa using hit))
      rw [List.filter_cons_of_neg passes, none_, List.filter_cons_of_pos (by simpa using passes),
        all, List.nil_append]

theorem owed_sorted (corpus : Corpus) (since : CursorKey) (until_ : Instant) :
    (owed corpus since until_).Pairwise fun a b => a.key < b.key :=
  (corpusItems_sorted corpus).filter _

/-- Two items of the corpus with one key are one item. -/
theorem corpus_key_inj {a b : TraceItem} (ha : a ∈ corpusItems corpus)
    (hb : b ∈ corpusItems corpus) (same : a.key = b.key) : a = b :=
  List.inj_on_of_nodup_map (corpusItems_keys_nodup corpus) ha hb same

/-- What is owed after a later key is what comes after it of what is owed. -/
theorem owed_later {since position : CursorKey} {until_ : Instant} (reached : since ≤ position) :
    owed corpus position until_ = (owed corpus since until_).filter (position < ·.key) := by
  rw [owed, owed, List.filter_filter]
  apply List.filter_congr
  intro item _
  rw [← Bool.decide_and, decide_eq_decide]
  constructor
  · rintro ⟨after, low⟩
    exact ⟨after, reached.trans_lt after, low⟩
  · rintro ⟨after, _, low⟩
    exact ⟨after, low⟩

/-- The items a window finds are those owed short of its frontier. -/
theorem selected_eq (corpus : Corpus) (since : CursorKey) (until_ : Instant) {limit : ℕ}
    (some_ : 0 < limit) :
    let candidates := closingCandidates corpus since.at_ until_ limit
    (((candidates.chunkIds.map (stepFactsFor corpus)).flatMap fun chunk =>
      (itemsOf chunk).filter fun item => item.key.at_ ≤ until_ ∧
        (∀ f ∈ candidates.frontier, item.key.at_ < f) ∧ since < item.key)
      |>.insertionSort fun a b => a.key ≤ b.key) =
      (owed corpus since until_).filter fun item =>
        ∀ f ∈ candidates.frontier, item.key.at_ < f := by
  intro candidates
  have ids : candidates.chunkIds.Nodup := List.nodup_dedup _
  rw [List.flatMap_map]
  have flat : (candidates.chunkIds.flatMap fun chunk => (itemsOf (stepFactsFor corpus chunk)).filter
      fun item => item.key.at_ ≤ until_ ∧ (∀ f ∈ candidates.frontier, item.key.at_ < f) ∧
        since < item.key) =
      (candidates.chunkIds.flatMap fun chunk => itemsOf (stepFactsFor corpus chunk)).filter
        fun item => item.key.at_ ≤ until_ ∧ (∀ f ∈ candidates.frontier, item.key.at_ < f) ∧
          since < item.key := by
    rw [List.filter_flatMap]
  rw [flat]
  set found := (candidates.chunkIds.flatMap fun chunk =>
    itemsOf (stepFactsFor corpus chunk)).filter fun item => item.key.at_ ≤ until_ ∧
      (∀ f ∈ candidates.frontier, item.key.at_ < f) ∧ since < item.key with hfound
  set wanted := (owed corpus since until_).filter fun item =>
    ∀ f ∈ candidates.frontier, item.key.at_ < f with hwanted
  have foundNodup : found.Nodup :=
    (List.Nodup.of_map _ (chunk_item_keys_nodup corpus ids)).filter _
  have wantedNodup : wanted.Nodup :=
    ((List.Nodup.of_map _ (corpusItems_keys_nodup corpus)).filter _).filter _
  have same (item : TraceItem) : item ∈ found ↔ item ∈ wanted := by
    simp only [hfound, hwanted, owed, List.mem_filter, List.mem_flatMap, decide_eq_true_eq]
    constructor
    · rintro ⟨⟨chunk, listed, held⟩, low, short, after⟩
      refine ⟨⟨?_, after, low⟩, short⟩
      obtain ⟨⟨fact, hfact, _⟩, _⟩ := item_closedBy held
      obtain ⟨source, hsource, _⟩ := List.mem_map.mp hfact
      obtain ⟨stored, mine⟩ := List.mem_filter.mp hsource
      exact mem_corpusItems.mpr ⟨source, stored, by rwa [of_decide_eq_true mine]⟩
    · rintro ⟨⟨held, after, low⟩, short⟩
      obtain ⟨mine, _, row, stored, closing, at_, chunk⟩ := corpus_item_closedBy held
      refine ⟨⟨item.key.chunkId, ?_, mine⟩, low, short, after⟩
      rw [← chunk]
      have ranged : InRange corpus since.at_ until_ row := by
        refine ⟨stored, ?_, ?_⟩
        · rw [at_]
          exact CursorKey.at_le after.le
        · rw [at_]
          exact low
      apply candidates_cover some_ ranged closing
      rw [at_]
      exact short
  have perm : found.Perm wanted := (List.perm_ext_iff_of_nodup foundNodup wantedNodup).mpr same
  have sortedWanted : wanted.Pairwise fun a b => a.key ≤ b.key :=
    ((owed_sorted corpus since until_).filter _).imp le_of_lt
  refine List.Perm.eq_of_pairwise ?_ (sorted_by_key found) sortedWanted
    ((List.perm_insertionSort _ _).trans perm)
  intro a b ha hb ab ba
  rw [List.mem_insertionSort] at ha
  have inCorpus {x : TraceItem} (hx : x ∈ wanted) : x ∈ corpusItems corpus :=
    (List.mem_filter.mp (List.mem_filter.mp hx).1).1
  exact corpus_key_inj (inCorpus ((same a).mp ha)) (inCorpus hb) (le_antisymm ab ba)

/-- The rule of one window: it tells what is owed up to its position and leaves what is owed after
it; it stands still only where nothing is owed. -/
theorem readWindow_spec (corpus : Corpus) (since : CursorKey) (until_ : Instant) {limit : ℕ}
    (some_ : 0 < limit) :
    let window := readWindow corpus since until_ limit
    since ≤ window.position ∧
      owed corpus since until_ = window.items ++ owed corpus window.position until_ ∧
      (window.position = since ∨ window.position ≤ CursorKey.past until_) ∧
      (window.position = since ∧ owed corpus since until_ = [] ∨ window.items ≠ [] ∨
        ∃ row ∈ corpus.rows, row.table ∈ closingTables ∧ since.at_ ≤ row.at_ ∧ row.at_ ≤ until_ ∧
          (since.at_ < row.at_ ∧ row.at_ = window.position.at_ ∨
            row.at_ < window.position.at_)) := by
  have selected := selected_eq corpus since until_ some_
  unfold readWindow selectWindow
  dsimp only at selected ⊢
  rw [selected]
  set candidates := closingCandidates corpus since.at_ until_ limit with hcandidates
  set whole := owed corpus since until_ with hwhole
  set test := fun item : TraceItem => decide (∀ f ∈ candidates.frontier, item.key.at_ < f)
    with htest
  have sorted : whole.Pairwise fun a b => a.key < b.key := owed_sorted corpus since until_
  have split : whole = whole.filter test ++ whole.filter fun item => !test item := by
    apply filter_split sorted
    intro a b before hit
    rw [htest, decide_eq_true_eq] at hit ⊢
    exact fun f hf => (CursorKey.at_le before.le).trans_lt (hit f hf)
  have inWhole {item : TraceItem} (held : item ∈ whole) :
      item ∈ corpusItems corpus ∧ since < item.key ∧ item.key.at_ ≤ until_ := by
    obtain ⟨stored, admitted⟩ := List.mem_filter.mp held
    exact ⟨stored, of_decide_eq_true admitted⟩
  split
  next more =>
    -- more was found than the limit: the position is the last item told
    have toldNonempty : (whole.filter test).take limit ≠ [] := by
      intro nothing
      have := congrArg List.length nothing
      rw [List.length_take, List.length_nil] at this
      omega
    have last := List.getLast?_eq_some_getLast toldNonempty
    set final := ((whole.filter test).take limit).getLast toldNonempty with hfinal
    rw [last, Option.map_some, Option.getD_some]
    have prefix_ : whole.take limit = (whole.filter test).take limit := by
      conv_lhs => rw [split]
      rw [List.take_append_of_le_length more.le]
    have held : final ∈ whole := by
      have inside := List.mem_of_getLast? last
      exact (List.mem_filter.mp (List.mem_of_mem_take inside)).1
    obtain ⟨_, after, low⟩ := inWhole held
    refine ⟨after.le, ?_, .inr (CursorKey.lt_of_at ?_).le, .inr (.inl toldNonempty)⟩
    · rw [owed_later after.le, ← prefix_, ← hwhole]
      have rest : rowsAfter TraceItem.key whole (some final.key) =
          (rowsAfter TraceItem.key whole none).drop limit :=
        rowsAfter_next sorted (by simpa [rowsAfter, prefix_] using last)
      have everything : rowsAfter TraceItem.key whole none = whole := by simp [rowsAfter]
      rw [everything] at rest
      have filtered : rowsAfter TraceItem.key whole (some final.key) =
          whole.filter (final.key < ·.key) := by simp [rowsAfter]
      rw [← filtered, rest]
      exact (List.take_append_drop limit whole).symm
    · exact lt_of_le_of_lt low (Int.lt_succ until_)
  next fits =>
    have told : (whole.filter test).take limit = whole.filter test :=
      List.take_of_length_le (not_lt.mp fits)
    rw [told]
    rcases frontier : candidates.frontier with _ | f
    · have everything : whole.filter test = whole := by
        rw [List.filter_eq_self]
        intro item _
        rw [htest, decide_eq_true_eq, frontier]
        intro f hf
        cases hf
      rcases newest : candidates.newest with _ | n
      · have nothing : whole = [] := by
          rw [List.eq_nil_iff_forall_not_mem]
          intro item held
          obtain ⟨stored, after, low⟩ := inWhole held
          obtain ⟨_, _, row, hrow, closing, at_, _⟩ := corpus_item_closedBy stored
          obtain ⟨n, some_, _⟩ := unsaturated_spec some_ frontier
            ⟨hrow, at_ ▸ CursorKey.at_le after.le, at_ ▸ low⟩ closing
          rw [← hcandidates, newest] at some_
          cases some_
        rw [nothing]
        dsimp only [List.filter_nil, List.getLast?_nil, Option.map_none, Option.getD_none]
        rw [← hwhole, nothing]
        exact ⟨le_refl _, rfl, .inl rfl, .inl ⟨rfl, rfl⟩⟩
      · obtain ⟨row, ⟨hrow, reached, low⟩, closing, rfl⟩ := newest_spec some_ newest
        dsimp only
        have moved : since < CursorKey.past row.at_ :=
          CursorKey.lt_of_at (lt_of_le_of_lt reached (Int.lt_succ row.at_))
        rw [max_eq_left moved.le, everything]
        refine ⟨moved.le, ?_, .inr ?_, .inr (.inr ⟨row, hrow, closing, reached, low,
          .inr (Int.lt_succ row.at_)⟩)⟩
        · have rest : owed corpus (CursorKey.past row.at_) until_ = [] := by
            rw [owed_later moved.le, List.filter_eq_nil_iff]
            intro item held after
            obtain ⟨stored, later, short⟩ := inWhole held
            obtain ⟨_, _, source, hsource, closes, at_, _⟩ := corpus_item_closedBy stored
            obtain ⟨n, some_, bound⟩ := unsaturated_spec some_ frontier
              ⟨hsource, at_ ▸ CursorKey.at_le later.le, at_ ▸ short⟩ closes
            rw [← hcandidates, newest, Option.some_inj] at some_
            subst some_
            have passed : row.at_ + microsecond ≤ item.key.at_ :=
              CursorKey.at_le (of_decide_eq_true after).le
            rw [at_] at bound
            exact absurd (Int.lt_of_lt_of_le (Int.lt_succ row.at_) passed) (not_lt.mpr bound)
          rw [rest, List.append_nil]
        · rcases lt_or_eq_of_le low with before | same
          · exact (CursorKey.lt_of_at (Int.add_lt_add_right before _)).le
          · rw [same]
    · dsimp only
      obtain ⟨row, ⟨hrow, reached, low⟩, closing, rfl, later⟩ := frontier_spec some_ frontier
      have moved : since < CursorKey.opening row.at_ := CursorKey.lt_of_at later
      refine ⟨moved.le, ?_, .inr (CursorKey.lt_of_at ?_).le, .inr (.inr ⟨row, hrow, closing,
        reached, low, .inl ⟨later, rfl⟩⟩)⟩
      · rw [owed_later moved.le, ← hwhole]
        have rest : whole.filter (CursorKey.opening row.at_ < ·.key) =
            whole.filter fun item => !test item := by
          apply List.filter_congr
          intro item held
          obtain ⟨stored, _⟩ := inWhole held
          obtain ⟨_, named, _⟩ := corpus_item_closedBy stored
          rw [htest, ← decide_not, decide_eq_decide, frontier]
          constructor
          · intro after short
            have before : item.key < CursorKey.opening row.at_ :=
              CursorKey.lt_of_at (short row.at_ rfl)
            exact absurd before (not_lt.mpr after.le)
          · intro notShort
            apply CursorKey.opening_lt named
            by_contra before
            apply notShort
            intro f hf
            cases hf
            exact not_le.mp before
        rw [rest]
        exact split
      · exact lt_of_le_of_lt low (Int.lt_succ until_)

/-! ## Draining -/

/-- The closing rows and items still ahead of a key. -/
def ahead (corpus : Corpus) (since : CursorKey) (until_ : Instant) : ℕ :=
  corpus.rows.countP (fun row => row.table ∈ closingTables ∧ since.at_ ≤ row.at_ ∧
      row.at_ ≤ until_) +
    corpus.rows.countP (fun row => row.table ∈ closingTables ∧ since.at_ < row.at_ ∧
      row.at_ ≤ until_) +
    (owed corpus since until_).length

/-- A window that moves leaves less ahead. -/
theorem ahead_lt (corpus : Corpus) (since : CursorKey) (until_ : Instant) {limit : ℕ}
    (some_ : 0 < limit) (moved : (readWindow corpus since until_ limit).position ≠ since) :
    ahead corpus (readWindow corpus since until_ limit).position until_ <
      ahead corpus since until_ := by
  obtain ⟨forward, split, _, progress⟩ := readWindow_spec corpus since until_ some_
  set window := readWindow corpus since until_ limit
  have times : since.at_ ≤ window.position.at_ := CursorKey.at_le forward
  have atLeast : corpus.rows.countP (fun row => row.table ∈ closingTables ∧
      window.position.at_ ≤ row.at_ ∧ row.at_ ≤ until_) ≤
        corpus.rows.countP fun row => row.table ∈ closingTables ∧ since.at_ ≤ row.at_ ∧
          row.at_ ≤ until_ := by
    apply List.countP_mono_left
    intro row _ h
    rw [decide_eq_true_eq] at h ⊢
    exact ⟨h.1, times.trans h.2.1, h.2.2⟩
  have after : corpus.rows.countP (fun row => row.table ∈ closingTables ∧
      window.position.at_ < row.at_ ∧ row.at_ ≤ until_) ≤
        corpus.rows.countP fun row => row.table ∈ closingTables ∧ since.at_ < row.at_ ∧
          row.at_ ≤ until_ := by
    apply List.countP_mono_left
    intro row _ h
    rw [decide_eq_true_eq] at h ⊢
    exact ⟨h.1, times.trans_lt h.2.1, h.2.2⟩
  have lengths := congrArg List.length split
  rw [List.length_append] at lengths
  rw [ahead, ahead]
  rcases progress with ⟨still, _⟩ | told | ⟨row, stored, closing, reached, low, passed⟩
  · exact absurd still moved
  · have some_ := List.length_pos_of_ne_nil told
    omega
  · rcases passed with ⟨later, same⟩ | later
    · have fewer : corpus.rows.countP (fun row => row.table ∈ closingTables ∧
          window.position.at_ < row.at_ ∧ row.at_ ≤ until_) <
            corpus.rows.countP fun row => row.table ∈ closingTables ∧ since.at_ < row.at_ ∧
              row.at_ ≤ until_ := by
        refine countP_lt ?_ stored ?_ ?_
        · intro r h
          rw [decide_eq_true_eq] at h ⊢
          exact ⟨h.1, times.trans_lt h.2.1, h.2.2⟩
        · rw [decide_eq_true_eq]
          exact ⟨closing, later, low⟩
        · rw [decide_eq_false_iff_not]
          exact fun h => absurd h.2.1 (not_lt.mpr same.le)
      omega
    · have fewer : corpus.rows.countP (fun row => row.table ∈ closingTables ∧
          window.position.at_ ≤ row.at_ ∧ row.at_ ≤ until_) <
            corpus.rows.countP fun row => row.table ∈ closingTables ∧ since.at_ ≤ row.at_ ∧
              row.at_ ≤ until_ := by
        refine countP_lt ?_ stored ?_ ?_
        · intro r h
          rw [decide_eq_true_eq] at h ⊢
          exact ⟨h.1, times.trans h.2.1, h.2.2⟩
        · rw [decide_eq_true_eq]
          exact ⟨closing, reached, low⟩
        · rw [decide_eq_false_iff_not]
          exact fun h => absurd h.2.1 (not_le.mpr later)
      omega

/-- A window that stands still leaves nothing owed. -/
theorem window_still (corpus : Corpus) (since : CursorKey) (until_ : Instant) {limit : ℕ}
    (some_ : 0 < limit) (still : (readWindow corpus since until_ limit).position = since) :
    (readWindow corpus since until_ limit).items = [] ∧ owed corpus since until_ = [] := by
  obtain ⟨_, split, _, progress⟩ := readWindow_spec corpus since until_ some_
  rw [still] at split
  have none_ : (readWindow corpus since until_ limit).items = [] := by
    have lengths := congrArg List.length split
    rw [List.length_append] at lengths
    exact List.eq_nil_of_length_eq_zero (by omega)
  refine ⟨none_, ?_⟩
  rcases progress with ⟨_, nothing⟩ | told | ⟨row, _, _, reached, _, passed⟩
  · exact nothing
  · exact absurd none_ told
  · rw [still] at passed
    rcases passed with ⟨later, same⟩ | later
    · exact absurd same (ne_of_gt later)
    · exact absurd reached (not_le.mpr later)

/-- A drain with one pass more than there is ahead tells exactly what is owed, in key order. -/
theorem drain_eq (corpus : Corpus) (until_ : Instant) {limit : ℕ} (some_ : 0 < limit) (fuel : ℕ)
    (since : CursorKey) (enough : ahead corpus since until_ < fuel) :
    drain corpus until_ limit fuel since = some (owed corpus since until_) := by
  induction fuel generalizing since with
  | zero => omega
  | succ fuel ih =>
    obtain ⟨_, split, _⟩ := readWindow_spec corpus since until_ some_
    rw [drain]
    split
    next still =>
      obtain ⟨none_, nothing⟩ := window_still corpus since until_ some_ still
      rw [none_, nothing]
    next moved =>
      have shorter : ahead corpus (readWindow corpus since until_ limit).position until_ < fuel := by
        have less := ahead_lt corpus since until_ some_ moved
        omega
      rw [ih _ shorter, Option.map_some, ← split]

end Blizzard.WindowDrain
