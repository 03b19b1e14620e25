import Blizzard.WindowDrain

/-! # Facts that come late

A row added to a chunk's facts closes steps at its own instant or later. Only a row that identifies
a step, a lease, an epoch's owner or a decision, can find that step closed before the row's
instant. -/
namespace Blizzard.LateFacts
open HubTables TraceSteps ExportWindows WindowDrain

/-- A chunk's facts with one row more. -/
def StepFacts.add (facts : StepFacts) (fact : Fact) : StepFacts :=
  { facts with rows := facts.rows ++ [fact] }

/-- Whether a row names a step that its facts may already close. -/
def identifies : Fact → Bool
  | .lease _ | .owner _ | .decision _ => true
  | _ => false

/-- A row is prompt where no step is closed before the row's instant that was not closed by then
without it. -/
def Prompt (facts : StepFacts) (fact : Fact) : Prop :=
  ∀ step ∈ identifySteps (StepFacts.add facts fact), ∀ close ∈ step.close,
    close.at_ < fact.at_ → ∃ was ∈ identifySteps facts, was.key = step.key ∧
      ∃ before ∈ was.close, before.at_ ≤ close.at_

instance (facts : StepFacts) (fact : Fact) : Decidable (Prompt facts fact) :=
  inferInstanceAs (Decidable (∀ _ ∈ _, ∀ _ ∈ _, _ → ∃ _ ∈ _, _ ∧ ∃ _ ∈ _, _))

variable {facts : StepFacts} {fact : Fact}

theorem mem_add {other : Fact} :
    other ∈ (StepFacts.add facts fact).rows ↔ other ∈ facts.rows ∨ other = fact := by
  rw [StepFacts.add, List.mem_append, List.mem_singleton]

/-- A row of another instant was there before. -/
theorem mem_of_ne {other : Fact} (held : other ∈ (StepFacts.add facts fact).rows)
    (earlier : other.at_ < fact.at_) : other ∈ facts.rows := by
  rcases mem_add.mp held with old | rfl
  · exact old
  · exact absurd earlier (lt_irrefl _)

theorem leaseFacts_add (other : identifies fact = false) :
    (StepFacts.add facts fact).leaseFacts = facts.leaseFacts := by
  cases fact <;> simp_all [identifies, StepFacts.add, StepFacts.leaseFacts]

theorem epochOwners_add (other : identifies fact = false) :
    (StepFacts.add facts fact).epochOwners = facts.epochOwners := by
  cases fact <;> simp_all [identifies, StepFacts.add, StepFacts.epochOwners]

theorem decisions_add (other : identifies fact = false) :
    (StepFacts.add facts fact).decisions = facts.decisions := by
  cases fact <;> simp_all [identifies, StepFacts.add, StepFacts.decisions]

/-! ## Starts -/

theorem le_foldl_max (start : Instant) (times : List Instant) :
    start ≤ times.foldl max start ∧ ∀ at_ ∈ times, at_ ≤ times.foldl max start := by
  induction times generalizing start with
  | nil => simp
  | cons first rest ih =>
    obtain ⟨base, each⟩ := ih (max start first)
    rw [List.foldl_cons]
    refine ⟨(le_max_left _ _).trans base, ?_⟩
    intro at_ held
    rcases List.mem_cons.mp held with rfl | later
    · exact (le_max_right _ _).trans base
    · exact each at_ later

/-- A movement's instant, where it arrives on its own. -/
def Fact.arrival : Fact → Option Instant
  | .transition t => some t.recordedAt
  | .migration m => if m.source ≠ some .restart then some m.recordedAt else none
  | .restart r => some r.recordedAt
  | _ => none

theorem mem_movementArrivals {at_ : Instant} :
    at_ ∈ movementArrivals facts ↔ ∃ other ∈ facts.rows, Fact.arrival other = some at_ := by
  simp only [movementArrivals, List.mem_append, List.mem_map, List.mem_filter, mem_transitions,
    mem_migrations, mem_restarts, decide_eq_true_eq]
  constructor
  · rintro ((⟨t, held, rfl⟩ | ⟨m, ⟨held, own⟩, rfl⟩) | ⟨r, held, rfl⟩)
    · exact ⟨_, held, rfl⟩
    · exact ⟨_, held, if_pos own⟩
    · exact ⟨_, held, rfl⟩
  · rintro ⟨other, held, arrives⟩
    cases other with
    | transition t => exact .inl (.inl ⟨t, held, Option.some_inj.mp arrives⟩)
    | migration m =>
      rw [Fact.arrival] at arrives
      split at arrives
      next own => exact .inl (.inr ⟨m, ⟨held, own⟩, Option.some_inj.mp arrives⟩)
      next => cases arrives
    | restart r => exact .inr ⟨r, held, Option.some_inj.mp arrives⟩
    | _ => cases arrives

theorem arrival_at {other : Fact} {at_ : Instant} (arrives : Fact.arrival other = some at_) :
    other.at_ = at_ := by
  cases other with
  | migration m =>
    rw [Fact.arrival] at arrives
    split at arrives
    next => exact Option.some_inj.mp arrives
    next => cases arrives
  | transition t => exact Option.some_inj.mp arrives
  | restart r => exact Option.some_inj.mp arrives
  | _ => cases arrives

/-- What a hub step's start is: the mint itself, or the later of the last arrival before it and the
requeues since. -/
theorem hubStart_spec (facts : StepFacts) (mintedAt : Instant) :
    (hubStart facts mintedAt = mintedAt ∧ ∀ at_ ∈ movementArrivals facts, mintedAt ≤ at_) ∨
      ∃ start ∈ movementArrivals facts, start < mintedAt ∧
        (∀ at_ ∈ movementArrivals facts, at_ < mintedAt → at_ ≤ start) ∧
        hubStart facts mintedAt =
          (facts.requeues.filter fun at_ => start < at_ ∧ at_ ≤ mintedAt).foldl max start := by
  rw [hubStart]
  split
  next none_ =>
    refine .inl ⟨rfl, ?_⟩
    intro at_ held
    have outside := List.filter_eq_nil_iff.mp (List.max?_eq_none_iff.mp none_) at_ held
    simpa using outside
  next start some_ =>
    obtain ⟨held, most⟩ := List.max?_eq_some_iff.mp some_
    obtain ⟨inside, before⟩ := List.mem_filter.mp held
    refine .inr ⟨start, inside, of_decide_eq_true before, ?_, rfl⟩
    intro at_ arrives early
    exact most at_ (List.mem_filter.mpr ⟨arrives, decide_eq_true early⟩)

/-- A row leaves a hub step's start where it was, or moves it to the row's instant or later. -/
theorem hubStart_add (facts : StepFacts) (fact : Fact) (mintedAt : Instant) :
    hubStart (StepFacts.add facts fact) mintedAt = hubStart facts mintedAt ∨
      fact.at_ ≤ hubStart (StepFacts.add facts fact) mintedAt := by
  have arrivals (at_ : Instant) : at_ ∈ movementArrivals (StepFacts.add facts fact) ↔
      at_ ∈ movementArrivals facts ∨ Fact.arrival fact = some at_ := by
    rw [mem_movementArrivals, mem_movementArrivals]
    constructor
    · rintro ⟨other, held, arrives⟩
      rcases mem_add.mp held with old | rfl
      · exact .inl ⟨other, old, arrives⟩
      · exact .inr arrives
    · rintro (⟨other, held, arrives⟩ | arrives)
      · exact ⟨other, mem_add.mpr (.inl held), arrives⟩
      · exact ⟨fact, mem_add.mpr (.inr rfl), arrives⟩
  have requeues (at_ : Instant) : at_ ∈ (StepFacts.add facts fact).requeues ↔
      at_ ∈ facts.requeues ∨ fact = .requeue at_ := by
    rw [mem_requeues, mem_requeues, mem_add, eq_comm (a := Fact.requeue at_)]
  rcases hubStart_spec (StepFacts.add facts fact) mintedAt with ⟨same, late⟩ |
    ⟨start, held, before, most, eq⟩
  · rcases hubStart_spec facts mintedAt with ⟨was, _⟩ | ⟨start, held, before, _⟩
    · exact .inl (same.trans was.symm)
    · exact absurd (late start ((arrivals start).mpr (.inl held))) (not_le.mpr before)
  · rw [eq]
    obtain ⟨base, each⟩ := le_foldl_max start
      ((StepFacts.add facts fact).requeues.filter fun at_ => start < at_ ∧ at_ ≤ mintedAt)
    rcases (arrivals start).mp held with old | new
    · rcases hubStart_spec facts mintedAt with ⟨_, late⟩ | ⟨start', held', before', most', eq'⟩
      · exact absurd (late start old) (not_le.mpr before)
      · have same : start' = start := le_antisymm
          (most start' ((arrivals start').mpr (.inl held')) before') (most' start old before)
        subst same
        by_cases requeued : ∃ at_, fact = .requeue at_ ∧ start' < at_ ∧ at_ ≤ mintedAt
        · obtain ⟨at_, rfl, after, upTo⟩ := requeued
          right
          apply each
          rw [List.mem_filter, requeues, decide_eq_true_eq]
          exact ⟨.inr rfl, after, upTo⟩
        · left
          rw [eq']
          congr 1
          have parts : (StepFacts.add facts fact).requeues =
              facts.requeues ++ (StepFacts.mk facts.chunkId [fact]).requeues := by
            simp [StepFacts.add, StepFacts.requeues]
          have none_ : ((StepFacts.mk facts.chunkId [fact]).requeues.filter
              fun at_ => start' < at_ ∧ at_ ≤ mintedAt) = [] := by
            rw [List.filter_eq_nil_iff]
            intro at_ listed inside
            apply requeued
            rw [mem_requeues, List.mem_singleton] at listed
            exact ⟨at_, listed.symm, of_decide_eq_true inside⟩
          rw [parts, List.filter_append, none_, List.append_nil]
    · right
      rw [arrival_at new]
      exact base

/-! ## Closes -/

/-- A candidate before the row's instant stood without the row. -/
theorem terminalCandidates_add (other : identifies fact = false) {start start' : Instant}
    (moved : start' = start ∨ fact.at_ ≤ start') {epoch : ℕ} {c : Candidate}
    (held : c ∈ terminalCandidates (StepFacts.add facts fact) start' epoch)
    (early : c.at_ < fact.at_) : c ∈ terminalCandidates facts start epoch := by
  simp only [terminalCandidates, List.mem_append, List.mem_map, List.mem_filter,
    mem_chunkStopped, mem_chunkCompleted, Option.mem_toList, decide_eq_true_eq,
    epochOwners_add other] at held ⊢
  rcases held with (⟨at_, ⟨row, after⟩, rfl⟩ | ⟨at_, ⟨row, after⟩, rfl⟩) | ⟨at_, first, rfl⟩
  · have same : start' = start := moved.resolve_right (not_le.mpr (after.trans early))
    exact .inl (.inl ⟨at_, ⟨mem_of_ne row early, same ▸ after⟩, rfl⟩)
  · have same : start' = start := moved.resolve_right (not_le.mpr (after.trans early))
    exact .inl (.inr ⟨at_, ⟨mem_of_ne row early, same ▸ after⟩, rfl⟩)
  · obtain ⟨o, owner, rfl⟩ := List.mem_map.mp (List.min?_mem first)
    have reached := (of_decide_eq_true (List.mem_filter.mp owner).2).2
    have same : start' = start := moved.resolve_right (not_le.mpr (lt_of_le_of_lt reached early))
    exact .inr ⟨_, same ▸ first, rfl⟩

theorem attemptInstants_add {epoch : ℕ} {at_ : Instant} (held : at_ ∈ attemptInstants facts epoch) :
    at_ ∈ attemptInstants (StepFacts.add facts fact) epoch := by
  simp only [attemptInstants, List.mem_append, List.mem_map, List.mem_filter, mem_transitions,
    mem_decisions, mem_migrations, mem_escalations, mem_restarts, mem_add] at held ⊢
  rcases held with (((⟨t, ⟨row, own⟩, rfl⟩ | ⟨d, ⟨row, own⟩, rfl⟩) | ⟨m, ⟨row, own⟩, rfl⟩) |
    ⟨e, ⟨row, own⟩, rfl⟩) | ⟨r, ⟨row, own⟩, rfl⟩
  · exact .inl (.inl (.inl (.inl ⟨t, ⟨.inl row, own⟩, rfl⟩)))
  · exact .inl (.inl (.inl (.inr ⟨d, ⟨.inl row, own⟩, rfl⟩)))
  · exact .inl (.inl (.inr ⟨m, ⟨.inl row, own⟩, rfl⟩))
  · exact .inl (.inr ⟨e, ⟨.inl row, own⟩, rfl⟩)
  · exact .inr ⟨r, ⟨.inl row, own⟩, rfl⟩

theorem runnerCandidates_add (other : identifies fact = false) {start start' : Instant}
    (moved : start' = start ∨ fact.at_ ≤ start') {epoch : ℕ} {c : Candidate}
    (held : c ∈ runnerCandidates (StepFacts.add facts fact) epoch start')
    (early : c.at_ < fact.at_) : c ∈ runnerCandidates facts epoch start := by
  rw [runnerCandidates, List.mem_append] at held ⊢
  rcases held with own | terminal
  · left
    simp only [List.mem_append, List.mem_map, List.mem_filter, mem_transitions,
      mem_decisions, mem_migrations, mem_escalations, mem_routeReleased,
      decide_eq_true_eq] at own ⊢
    rcases own with (((⟨t, ⟨row, mine⟩, rfl⟩ | ⟨d, ⟨row, mine⟩, rfl⟩) | ⟨m, ⟨row, mine⟩, rfl⟩) |
      ⟨e, ⟨row, mine⟩, rfl⟩) | ⟨at_, ⟨row, after, last⟩, rfl⟩
    · exact .inl (.inl (.inl (.inl ⟨t, ⟨mem_of_ne row early, mine⟩, rfl⟩)))
    · exact .inl (.inl (.inl (.inr ⟨d, ⟨mem_of_ne row early, mine⟩, rfl⟩)))
    · exact .inl (.inl (.inr ⟨m, ⟨mem_of_ne row early, mine⟩, rfl⟩))
    · exact .inl (.inr ⟨e, ⟨mem_of_ne row early, mine⟩, rfl⟩)
    · have same : start' = start := moved.resolve_right (not_le.mpr (after.trans early))
      exact .inr ⟨at_, ⟨mem_of_ne row early, same ▸ after,
        fun o ho => last o (attemptInstants_add ho)⟩, rfl⟩
  · exact .inr (terminalCandidates_add other moved terminal early)

theorem gateCandidates_add (other : identifies fact = false) {decision : TracedDecision}
    {c : Candidate} (held : c ∈ gateCandidates (StepFacts.add facts fact) decision)
    (early : c.at_ < fact.at_) : c ∈ gateCandidates facts decision := by
  rw [gateCandidates, List.mem_append] at held ⊢
  rcases held with own | terminal
  · left
    simp only [List.mem_append, List.mem_map, List.mem_filter, mem_transitions, mem_restarts,
      mem_migrations, mem_escalations] at own ⊢
    rcases own with ((⟨t, ⟨row, mine⟩, rfl⟩ | ⟨m, ⟨row, mine⟩, rfl⟩) | ⟨e, ⟨row, mine⟩, rfl⟩) |
      ⟨r, ⟨row, mine⟩, rfl⟩
    · exact .inl (.inl (.inl ⟨t, ⟨mem_of_ne row early, mine⟩, rfl⟩))
    · exact .inl (.inl (.inr ⟨m, ⟨mem_of_ne row early, mine⟩, rfl⟩))
    · exact .inl (.inr ⟨e, ⟨mem_of_ne row early, mine⟩, rfl⟩)
    · exact .inr ⟨r, ⟨mem_of_ne row early, mine⟩, rfl⟩
  · exact .inr (terminalCandidates_add other (.inl rfl) terminal early)

/-- Where each early candidate stood before, so did a close no later. -/
theorem earliest_add {candidates candidates' : List Candidate} {close : StepClose}
    (stood : ∀ c ∈ candidates', c.at_ < fact.at_ → c ∈ candidates)
    (closed : earliest candidates' = some close) (early : close.at_ < fact.at_) :
    ∃ before, earliest candidates = some before ∧ before.at_ ≤ close.at_ := by
  obtain ⟨best, least, rfl⟩ := Option.map_eq_some_iff.mp closed
  have held := stood best (leastCandidate_mem least) early
  obtain ⟨first, some_⟩ := leastCandidate_isSome held
  exact ⟨_, Option.map_eq_some_iff.mpr ⟨first, some_, rfl⟩, leastCandidate_le some_ best held⟩

/-- Every row that identifies no step is prompt. -/
theorem prompt_of_other (facts : StepFacts) (other : identifies fact = false) :
    Prompt facts fact := by
  intro step held close closed early
  rcases mem_identifySteps.mp held with attempt | gate
  · obtain ⟨epoch, owner, minted, lease, owned, least, rfl⟩ := mem_attemptSteps.mp attempt
    have sameOwner : ownerOf (StepFacts.add facts fact) epoch = ownerOf facts epoch := by
      rw [ownerOf, ownerOf, epochOwners_add other]
    rw [sameOwner] at owned
    rw [leaseFacts_add other] at lease least
    set start' := if owner.runnerId.isNone then hubStart (StepFacts.add facts fact) minted
      else minted with hstart'
    set start := if owner.runnerId.isNone then hubStart facts minted else minted with hstart
    have moved : start' = start ∨ fact.at_ ≤ start' := by
      rw [hstart', hstart]
      split
      · exact hubStart_add facts fact minted
      · exact .inl rfl
    obtain ⟨before, was, least'⟩ := earliest_add
      (fun c hc => runnerCandidates_add other moved hc) closed early
    exact ⟨_, mem_identifySteps.mpr (.inl (mem_attemptSteps.mpr
      ⟨epoch, owner, minted, lease, owned, least, rfl⟩)), rfl, before, was, least'⟩
  · obtain ⟨d, hd, rfl⟩ := List.mem_map.mp gate
    rw [decisions_add other] at hd
    obtain ⟨before, was, least⟩ := earliest_add
      (fun c hc => gateCandidates_add other hc) closed early
    exact ⟨_, mem_identifySteps.mpr (.inr (List.mem_map.mpr ⟨d, hd, rfl⟩)), rfl, before, was,
      least⟩

end Blizzard.LateFacts
