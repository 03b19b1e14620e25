import Blizzard.FlowSafety

/-! # Exclusion on a flow line

Any writes, in any order: a submission and a flow have one open turn at most, a closure is final,
and each end is told once on every flow it concerns. -/
namespace Blizzard.FlowExclusion
open HubTables FlowLines FlowSafety

variable {t t' : FlowTables}

/-! ## What a write adds -/

theorem endTurn_frame {turnId outcome submissionId : String} {at_ : Instant}
    (wrote : t.endTurn turnId outcome at_ = some (t', submissionId)) :
    t'.submissions = t.submissions ∧ t'.closures = t.closures ∧
      t'.turns.map (·.turnId) = t.turns.map (·.turnId) := by
  obtain ⟨turn, -, -, -, -, submission, rfl⟩ := endTurn_spec wrote
  refine ⟨rfl, rfl, ?_⟩
  show (t.turns.map (endedAs turnId outcome at_)).map (·.turnId) = _
  rw [List.map_map]
  apply List.map_congr_left
  intro turn _
  exact endedAs_turnId _ _ _ _

theorem closeSubmission_frame {submissionId outcome : String} {at_ : Instant}
    (wrote : t.closeSubmission submissionId outcome at_ = some t') :
    t'.submissions = t.submissions ∧ t.closures <+: t'.closures ∧ t'.turns = t.turns := by
  obtain ⟨submission, -, -, -, rfl⟩ := closeSubmission_spec wrote
  exact ⟨rfl, List.prefix_append _ _, rfl⟩

theorem close_frame {submissionId : String} {outcome : Withdrawal} {at_ : Instant}
    (wrote : t.close submissionId outcome at_ = some t') :
    t'.submissions = t.submissions ∧ t.closures <+: t'.closures ∧ t'.turns = t.turns := by
  rw [FlowTables.close] at wrote
  split at wrote
  next => cases wrote
  next => exact closeSubmission_frame wrote

theorem endTurnLocked_frame {turnId outcome : String} {closure : Option String} {at_ : Instant}
    (wrote : t.endTurnLocked turnId outcome closure at_ = some t') :
    t'.submissions = t.submissions ∧ t.closures <+: t'.closures ∧
      t'.turns.map (·.turnId) = t.turns.map (·.turnId) := by
  rw [FlowTables.endTurnLocked, Option.bind_eq_bind, Option.bind_eq_some_iff] at wrote
  obtain ⟨⟨mid, submissionId⟩, first, wrote⟩ := wrote
  obtain ⟨submissions, closures, turns⟩ := endTurn_frame first
  cases closure with
  | none =>
    cases wrote
    exact ⟨submissions, closures ▸ List.prefix_refl _, turns⟩
  | some closure =>
    cases wrote
    cases closing : mid.closeSubmission submissionId closure at_ with
    | none => exact ⟨submissions, closures ▸ List.prefix_refl _, turns⟩
    | some closed =>
      obtain ⟨submissions', closures', turns'⟩ := closeSubmission_frame closing
      exact ⟨submissions'.trans submissions, closures ▸ closures', turns' ▸ turns⟩

theorem withdraw_frame {outcome : String} {at_ : Instant} {waiting : List SubmissionRow} :
    ∀ {t : FlowTables},
      let after := waiting.foldl (fun t s => (t.closeSubmission s.submissionId outcome at_).getD t) t
      after.submissions = t.submissions ∧ t.closures <+: after.closures ∧
        after.turns = t.turns := by
  induction waiting with
  | nil => exact ⟨rfl, List.prefix_refl _, rfl⟩
  | cons s rest ih =>
    intro t
    dsimp only
    rw [List.foldl_cons]
    cases closing : t.closeSubmission s.submissionId outcome at_ with
    | none => exact ih
    | some closed =>
      obtain ⟨submissions, closures, turns⟩ := closeSubmission_frame closing
      obtain ⟨submissions', closures', turns'⟩ := ih (t := closed)
      exact ⟨submissions'.trans submissions, closures.trans closures', turns'.trans turns⟩

theorem recordLanding_frame (flow : FlowRow) (submissionId : String) (chunkId : ChunkId)
    (wrote : Bool) (revision : String) (at_ : Instant) :
    let after := t.recordLanding flow submissionId chunkId wrote revision at_
    after.submissions = t.submissions ∧ after.closures = t.closures ∧ after.turns = t.turns := by
  dsimp only
  rw [FlowTables.recordLanding]
  split <;> exact ⟨rfl, rfl, rfl⟩

/-- A write adds a submission at the generation its visit then submits at, starts a turn, or adds
neither. -/
theorem step_cases (inv : LineInvariant t) (write : Write) :
    ((t.step write).submissions = t.submissions ∧ t.closures <+: (t.step write).closures ∧
      (t.step write).turns.map (·.turnId) = t.turns.map (·.turnId)) ∨
    (∃ s, (t.step write).submissions = t.submissions ++ [s] ∧
      t.generation s.chunkId s.nodeId s.epoch = some s.generation ∧
      (t.step write).closures = t.closures ∧ (t.step write).turns = t.turns) ∨
    ∃ turnId submissionId passedOver candidates at_,
      write = .takeTurn turnId submissionId passedOver candidates at_ ∧
      t.takeTurn turnId submissionId passedOver candidates at_ = some (t.step write) := by
  have still : (t.submissions = t.submissions ∧ t.closures <+: t.closures ∧
      t.turns.map (·.turnId) = t.turns.map (·.turnId)) := ⟨rfl, List.prefix_refl _, rfl⟩
  cases write with
  | submit submissionId mint chunkId nodeId epoch resources at_ =>
    rw [FlowTables.step]
    cases wrote : t.submitVisit submissionId mint chunkId nodeId epoch resources at_ with
    | none => exact .inl still
    | some t' =>
      obtain ⟨generation, arrival, flows, made, read, -, -, -, -, -, rfl⟩ :=
        submitVisit_spec inv.keyed.flowIds wrote
      exact .inr (.inl ⟨_, rfl, read, rfl, rfl⟩)
  | close submissionId outcome at_ =>
    rw [FlowTables.step]
    cases wrote : t.close submissionId outcome at_ with
    | none => exact .inl still
    | some t' =>
      obtain ⟨submissions, closures, turns⟩ := close_frame wrote
      exact .inl ⟨submissions, closures, congrArg _ turns⟩
  | takeTurn turnId submissionId passedOver candidates at_ =>
    rw [FlowTables.step]
    cases wrote : t.takeTurn turnId submissionId passedOver candidates at_ with
    | none => exact .inl still
    | some t' => exact .inr (.inr ⟨_, _, _, _, _, rfl, wrote⟩)
  | endTurn turnId outcome closure at_ =>
    rw [FlowTables.step]
    cases wrote : t.endTurnLocked turnId outcome closure at_ with
    | none => exact .inl still
    | some t' => exact .inl (endTurnLocked_frame wrote)
  | interrupt turnId withdrawal at_ =>
    rw [FlowTables.step]
    cases wrote : t.endTurnInterrupted turnId withdrawal at_ with
    | none => exact .inl still
    | some t' => exact .inl (endTurnLocked_frame wrote)
  | withdraw chunkId outcome at_ =>
    obtain ⟨submissions, closures, turns⟩ := withdraw_frame
    exact .inl ⟨submissions, closures, congrArg _ turns⟩
  | land flow submissionId chunkId wrote revision at_ =>
    obtain ⟨submissions, closures, turns⟩ :=
      recordLanding_frame (t := t) flow submissionId chunkId wrote revision at_
    exact .inl ⟨submissions, closures ▸ List.prefix_refl _, congrArg _ turns⟩

theorem takeTurn_frame {turnId submissionId : String} {passedOver : List String}
    {candidates : List LandingTerms} {at_ : Instant}
    (wrote : t.takeTurn turnId submissionId passedOver candidates at_ = some t') :
    t'.submissions = t.submissions ∧ t'.closures = t.closures ∧
      t'.turns = t.turns ++ [{ turnId, submissionId, startedAt := at_ }] := by
  obtain ⟨submission, -, -, -, -, -, -, rfl⟩ := takeTurn_spec wrote
  exact ⟨rfl, rfl, rfl⟩

/-- Submissions and closures are only added. -/
theorem grows (inv : LineInvariant t) (write : Write) :
    t.submissions <+: (t.step write).submissions ∧ t.closures <+: (t.step write).closures := by
  rcases step_cases inv write with ⟨same, closures, -⟩ | ⟨s, added, -, same, -⟩ |
    ⟨_, _, _, _, _, -, wrote⟩
  · exact ⟨same ▸ List.prefix_refl _, closures⟩
  · exact ⟨added ▸ List.prefix_append _ _, same ▸ List.prefix_refl _⟩
  · obtain ⟨submissions, closures, -⟩ := takeTurn_frame wrote
    exact ⟨submissions ▸ List.prefix_refl _, closures ▸ List.prefix_refl _⟩

/-! ## Turns and generations -/

/-- A turn that starts is of an open submission with no open turn, and every open submission
ahead of it on a flow it holds was passed over. -/
theorem turn_starts (inv : LineInvariant t) (write : Write) {turn : TurnRow}
    (inside : turn ∈ (t.step write).turns) (fresh : turn.turnId ∉ t.turns.map (·.turnId)) :
    ∃ passedOver candidates,
      write = .takeTurn turn.turnId turn.submissionId passedOver candidates turn.startedAt ∧
      t.isOpen turn.submissionId ∧
      ∀ own ∈ t.submissions, own.submissionId = turn.submissionId →
        ∀ s ∈ t.submissions, s.arrival < own.arrival → t.isOpen s.submissionId →
          Shares t s.submissionId own.submissionId → s.submissionId ∈ passedOver := by
  rcases step_cases inv write with ⟨-, -, same⟩ | ⟨_, -, -, -, same⟩ |
    ⟨turnId, submissionId, passedOver, candidates, at_, rfl, wrote⟩
  · exact absurd (same ▸ List.mem_map_of_mem inside) fresh
  · exact absurd (same ▸ List.mem_map_of_mem inside) fresh
  · rw [(takeTurn_frame wrote).2.2] at inside
    rcases List.mem_append.mp inside with before | started
    · exact absurd (List.mem_map_of_mem before) fresh
    · cases List.mem_singleton.mp started
      obtain ⟨submission, stored, own, open_, -, clear, -, -⟩ := takeTurn_spec wrote
      refine ⟨passedOver, candidates, rfl, open_, ?_⟩
      intro row listed same s earlier before still
      rintro ⟨flowId, holds, held⟩
      have one : row = submission :=
        List.inj_on_of_nodup_map inv.keyed.ids listed stored (same.trans own.symm)
      have holding := (mem_flowsHeld inv.keyed).mpr (same ▸ held)
      obtain ⟨flow, flowIn, -⟩ := List.mem_map.mp holding
      apply (clear flow flowIn).2
      refine List.mem_map_of_mem (List.mem_filter.mpr ⟨earlier, ?_⟩)
      exact decide_eq_true ⟨one ▸ before, still, _, holds, rfl, holding⟩

/-- A submission that a write adds starts its visit, or follows the one before it; all that its
visit has were closed `superseded`. -/
theorem generation_starts (inv : LineInvariant t) (write : Write) {s : SubmissionRow}
    (inside : s ∈ (t.step write).submissions) (fresh : s ∉ t.submissions) :
    (s.generation = 0 ∧ t.visit s.chunkId s.nodeId s.epoch = [] ∨
      ∃ r ∈ t.visit s.chunkId s.nodeId s.epoch, r.generation + 1 = s.generation) ∧
    ∀ r ∈ t.visit s.chunkId s.nodeId s.epoch, r.generation < s.generation ∧
      t.closedUnder r.submissionId = some turnSuperseded := by
  rcases step_cases inv write with ⟨same, -, -⟩ | ⟨r, added, read, -, -⟩ |
    ⟨_, _, _, _, _, -, wrote⟩
  · exact absurd (same ▸ inside) fresh
  · rw [added] at inside
    rcases List.mem_append.mp inside with before | new
    · exact absurd before fresh
    · cases List.mem_singleton.mp new
      refine ⟨?_, fun r stored => generation_follows inv.generations read stored⟩
      rw [FlowTables.generation, FlowTables.submissionForVisit] at read
      split at read
      next none_ => exact .inl ⟨(Option.some.inj read).symm, List.argmax_eq_none.mp none_⟩
      next latest found =>
        split at read
        next => exact .inr ⟨latest, List.argmax_mem found, Option.some.inj read⟩
        next => cases read
  · exact absurd ((takeTurn_frame wrote).1 ▸ inside) fresh

/-- A visit has one open submission at most. -/
theorem one_open_submission (inv : LineInvariant t) {a b : SubmissionRow}
    (ha : a ∈ t.submissions) (hb : b ∈ t.submissions) (visit : SameVisit a b)
    (openA : t.isOpen a.submissionId) (openB : t.isOpen b.submissionId) : a = b := by
  have unclosed : ∀ {s : String}, t.isOpen s → t.closedUnder s ≠ some turnSuperseded := by
    intro s open_ closed
    obtain ⟨c, found, -⟩ := Option.map_eq_some_iff.mp closed
    have own := List.find?_some found
    exact isOpen_iff.mp open_ (List.mem_map.mpr
      ⟨c, List.mem_of_find?_eq_some found, of_decide_eq_true own⟩)
  rcases inv.generations a ha b hb visit with same | ⟨-, closed⟩ | ⟨-, closed⟩
  · exact same
  · exact absurd closed (unclosed openA)
  · exact absurd closed (unclosed openB)

/-- Flow line safety: whatever was written, and whatever is written next. -/
theorem flow_line_safe (writes : List Write) (write : Write) :
    let t := ({} : FlowTables).run writes
    let t' := t.step write
    -- arrivals increase in submission order, and what was submitted or closed stays so
    t.submissions.Pairwise (fun a b => a.arrival < b.arrival) ∧
    t.submissions <+: t'.submissions ∧ t.closures <+: t'.closures ∧
    (t.closures.map (·.submissionId)).Nodup ∧
    -- one open turn for a submission, and for a flow over all that hold it
    (∀ a ∈ t.turns, ∀ b ∈ t.turns, a.endedAt = none → b.endedAt = none →
      a.submissionId = b.submissionId → a = b) ∧
    (∀ flowId, ∀ a ∈ t.turns, ∀ b ∈ t.turns, a.endedAt = none → b.endedAt = none →
      ⟨a.submissionId, flowId⟩ ∈ t.held → ⟨b.submissionId, flowId⟩ ∈ t.held → a = b) ∧
    -- a turn starts and runs only while its submission is open, everyone ahead passed over
    (∀ turn ∈ t.turns, turn.endedAt = none → t.isOpen turn.submissionId) ∧
    (∀ turn ∈ t'.turns, turn.turnId ∉ t.turns.map (·.turnId) → ∃ passedOver candidates,
      write = .takeTurn turn.turnId turn.submissionId passedOver candidates turn.startedAt ∧
      t.isOpen turn.submissionId ∧
      ∀ own ∈ t.submissions, own.submissionId = turn.submissionId →
        ∀ s ∈ t.submissions, s.arrival < own.arrival → t.isOpen s.submissionId →
          Shares t s.submissionId own.submissionId → s.submissionId ∈ passedOver) ∧
    -- each end is told once on each flow held
    (∀ s f, (told t .turnEnded s f).Perm (if ⟨s, f⟩ ∈ t.held then ended t s else [])) ∧
    (∀ s f, (told t .withdrawn s f).Perm (if ⟨s, f⟩ ∈ t.held then closedWith t s else [])) ∧
    -- one open submission for a visit, and a new generation after the last was superseded
    (∀ a ∈ t.submissions, ∀ b ∈ t.submissions, SameVisit a b → t.isOpen a.submissionId →
      t.isOpen b.submissionId → a = b) ∧
    (∀ s ∈ t'.submissions, s ∉ t.submissions →
      (s.generation = 0 ∧ t.visit s.chunkId s.nodeId s.epoch = [] ∨
        ∃ r ∈ t.visit s.chunkId s.nodeId s.epoch, r.generation + 1 = s.generation) ∧
      ∀ r ∈ t.visit s.chunkId s.nodeId s.epoch, r.generation < s.generation ∧
        t.closedUnder r.submissionId = some turnSuperseded) := by
  intro t t'
  have inv : LineInvariant t := lineInvariant_run lineInvariant_empty
  refine ⟨inv.arrivals, (grows inv write).1, (grows inv write).2, inv.keyed.closures, ?_, ?_,
    inv.turnsOpen, ?_, inv.told.ended, inv.told.closed, ?_, ?_⟩
  · intro a ha b hb openA openB same
    exact inv.oneTurn a ha b hb openA openB (.inl same)
  · intro flowId a ha b hb openA openB holdsA holdsB
    exact inv.oneTurn a ha b hb openA openB (.inr ⟨flowId, holdsA, holdsB⟩)
  · intro turn inside fresh
    exact turn_starts inv write inside fresh
  · intro a ha b hb visit openA openB
    exact one_open_submission inv ha hb visit openA openB
  · intro s inside fresh
    exact generation_starts inv write inside fresh

end Blizzard.FlowExclusion
