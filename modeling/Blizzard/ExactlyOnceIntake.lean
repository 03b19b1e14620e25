import Mathlib.Data.List.Count
import Mathlib.Order.Basic
import Blizzard.FactIntake
import Blizzard.TransitionRuns

/-! # Exactly-once fact intake

What one step of a push does to the hub and to the push, and what every run of
overlapping pushes of one runner keeps. -/
namespace Blizzard.ExactlyOnceIntake
open HubTables ChunkLevers FactIntake TransitionRuns

/-- The applied seqs rise, up to the mark. -/
structure HistoryInvariant (hub : Intake) : Prop where
  rising : hub.applied.Pairwise (· < ·)
  bounded : ∀ seq ∈ hub.applied, seq ≤ hub.highWater
  positive : ∀ mark, hub.mark = some mark → 0 < mark

/-- What a push in flight satisfies against the hub. -/
structure PushInvariant (hub : Intake) (push : Push) : Prop where
  nonneg : 0 ≤ push.mark
  behind : push.mark ≤ hub.highWater
  overtaken : push.phase = .conflicted → push.mark < hub.highWater
  fresh : ∀ write, push.phase = .landing write →
    ∀ fact rest, push.pending = fact :: rest → push.mark < fact.seq
  unraised : push.phase ≠ .conflictRaised
  ended : push.phase = .finished → push.pending = []
  partition : (push.applied ++ push.already ++ push.rejected ++ push.pending.map (·.seq)).Perm
    (push.pushed.map (·.seq))

/-- A unit that commits moves the mark from the push's own reading to the fact's seq. -/
theorem advanceHighWater_eq_some {hub : Intake} {seq expected : ℤ} {mark' : Option ℤ}
    (h : advanceHighWater hub.mark seq expected = some mark') :
    hub.highWater = expected ∧ mark' = some seq := by
  unfold advanceHighWater at h
  split at h
  · rename_i zero
    split at h
    · rename_i absent
      exact ⟨by simp [Intake.highWater, absent, zero], (Option.some.inj h).symm⟩
    · cases h
  · split at h
    · rename_i standing
      exact ⟨by simp [Intake.highWater, standing], (Option.some.inj h).symm⟩
    · cases h

/-- A conflict means another push has moved the mark past this one's reading. -/
theorem lt_highWater_of_conflict {hub : Intake} {seq expected : ℤ}
    (positive : ∀ mark, hub.mark = some mark → 0 < mark) (nonneg : 0 ≤ expected)
    (behind : expected ≤ hub.highWater) (h : advanceHighWater hub.mark seq expected = none) :
    expected < hub.highWater := by
  unfold advanceHighWater at h
  cases found : hub.mark with
  | none =>
    have zero : expected = 0 := by
      simp only [Intake.highWater, found, Option.getD_none] at behind
      omega
    simp [found, zero] at h
  | some mark =>
    have above := positive mark found
    simp only [Intake.highWater, found, Option.getD_some] at behind ⊢
    rcases behind.lt_or_eq with less | same
    · exact less
    · simp [found, same, above.ne'] at h

/-- What one step of a push does to the hub: nothing, or one unit above the mark. -/
theorem step_hub {hub : Intake} {push : Push} (inv : PushInvariant hub push) (runnerId : RunnerId)
    (mode : RouteTokenMode) (now : Instant) :
    (push.step hub runnerId mode now).1 = hub ∨
      ∃ fact rest tables, push.pending = fact :: rest ∧ hub.highWater < fact.seq ∧
        (push.step hub runnerId mode now).1 = ⟨tables, some fact.seq, hub.applied ++ [fact.seq]⟩ := by
  unfold Push.step
  split
  · exact .inl rfl
  · split
    · exact .inl rfl
    · split <;> exact .inl rfl
  · rename_i write fact rest phase pending
    unfold applyUnit
    split
    · exact .inl rfl
    · exact .inl rfl
    · rename_i tables rowId _
      split
      · exact .inl rfl
      · rename_i mark' advanced
        obtain ⟨standing, rfl⟩ := advanceHighWater_eq_some advanced
        have above := inv.fresh write phase fact rest pending
        exact .inr ⟨fact, rest, tables, pending, standing ▸ above, rfl⟩
  · split <;> exact .inl rfl
  · exact .inl rfl

/-- A unit leaves the history rising and the mark at its newest seq. -/
theorem HistoryInvariant.applied {hub : Intake} (inv : HistoryInvariant hub) (tables : Tables)
    {seq : ℤ} (above : hub.highWater < seq) (nonneg : 0 ≤ hub.highWater) :
    HistoryInvariant ⟨tables, some seq, hub.applied ++ [seq]⟩ where
  rising := by
    refine List.pairwise_append.mpr ⟨inv.rising, List.pairwise_singleton _ _, ?_⟩
    intro old hold new hnew
    rw [List.mem_singleton.mp hnew]
    exact (inv.bounded old hold).trans_lt above
  bounded := by
    intro old hold
    rcases List.mem_append.mp hold with before | new
    · exact ((inv.bounded old before).trans above.le)
    · exact (List.mem_singleton.mp new).le
  positive := by
    rintro _ ⟨⟩
    exact nonneg.trans_lt above

theorem HistoryInvariant.highWater_nonneg {hub : Intake} (inv : HistoryInvariant hub) :
    0 ≤ hub.highWater := by
  cases found : hub.mark with
  | none => simp [Intake.highWater, found]
  | some mark => simpa [Intake.highWater, found] using (inv.positive mark found).le

/-- A push stays sound while other pushes move the mark on. -/
theorem PushInvariant.of_le {hub hub' : Intake} {push : Push} (inv : PushInvariant hub push)
    (rises : hub.highWater ≤ hub'.highWater) : PushInvariant hub' push where
  nonneg := inv.nonneg
  behind := inv.behind.trans rises
  overtaken conflicted := (inv.overtaken conflicted).trans_le rises
  fresh := inv.fresh
  unraised := inv.unraised
  ended := inv.ended
  partition := inv.partition

theorem pushInvariant_begin {hub : Intake} (inv : HistoryInvariant hub) (pushed : List PushedFact) :
    PushInvariant hub (Push.begin hub pushed) where
  nonneg := inv.highWater_nonneg
  behind := le_rfl
  overtaken := by simp [Push.begin]
  fresh := by simp [Push.begin]
  unraised := by simp [Push.begin]
  ended := by simp [Push.begin]
  partition := by simpa [Push.begin] using (List.perm_insertionSort _ pushed).map (·.seq)

section
variable {hub : Intake} {push : Push} {fact : PushedFact} {rest : List PushedFact}

theorem PushInvariant.skip (inv : PushInvariant hub push) (pending : push.pending = fact :: rest) :
    PushInvariant hub (push.skip fact rest) where
  nonneg := inv.nonneg
  behind := inv.behind
  overtaken := by simp [Push.skip]
  fresh := by simp [Push.skip]
  unraised := by simp [Push.skip]
  ended := by simp [Push.skip]
  partition := by
    refine List.perm_iff_count.mpr fun seq => ?_
    have counts := List.perm_iff_count.mp inv.partition seq
    simp only [pending, Push.skip, List.map_cons, List.count_append, List.count_cons,
      List.count_nil] at counts ⊢
    omega

theorem PushInvariant.reject (inv : PushInvariant hub push) (pending : push.pending = fact :: rest)
    (tables : Tables) : PushInvariant hub (push.reject tables fact rest) where
  nonneg := inv.nonneg
  behind := inv.behind
  overtaken := by simp [Push.reject]
  fresh := by simp [Push.reject]
  unraised := by simp [Push.reject]
  ended := by simp [Push.reject]
  partition := by
    refine List.perm_iff_count.mpr fun seq => ?_
    have counts := List.perm_iff_count.mp inv.partition seq
    simp only [pending, Push.reject, List.map_cons, List.count_append, List.count_cons,
      List.count_nil] at counts ⊢
    omega

theorem PushInvariant.apply (inv : PushInvariant hub push) (pending : push.pending = fact :: rest)
    (rowId : Option ℤ) (tables : Tables) (above : push.mark < fact.seq) :
    PushInvariant ⟨tables, some fact.seq, hub.applied ++ [fact.seq]⟩
      (push.apply fact rest rowId) where
  nonneg := inv.nonneg.trans above.le
  behind := le_rfl
  overtaken := by simp [Push.apply]
  fresh := by simp [Push.apply]
  unraised := by simp [Push.apply]
  ended := by simp [Push.apply]
  partition := by
    refine List.perm_iff_count.mpr fun seq => ?_
    have counts := List.perm_iff_count.mp inv.partition seq
    simp only [pending, Push.apply, List.map_cons, List.count_append, List.count_cons,
      List.count_nil] at counts ⊢
    omega

/-- Moving to a phase that promises nothing keeps a push sound. -/
theorem PushInvariant.to_phase (inv : PushInvariant hub push) {phase : Phase}
    (overtaken : phase = .conflicted → push.mark < hub.highWater)
    (fresh : ∀ write, phase = .landing write →
      ∀ fact rest, push.pending = fact :: rest → push.mark < fact.seq)
    (unraised : phase ≠ .conflictRaised) (ended : phase = .finished → push.pending = []) :
    PushInvariant hub { push with phase := phase } :=
  ⟨inv.nonneg, inv.behind, overtaken, fresh, unraised, ended, inv.partition⟩

end

/-- One step keeps the stepping push sound against the hub it leaves. -/
theorem pushInvariant_step {hub : Intake} {push : Push} (history : HistoryInvariant hub)
    (inv : PushInvariant hub push) (runnerId : RunnerId) (mode : RouteTokenMode) (now : Instant) :
    PushInvariant (push.step hub runnerId mode now).1 (push.step hub runnerId mode now).2 := by
  unfold Push.step
  split
  · rename_i _ pending
    exact inv.to_phase (by simp) (by simp) (by simp) fun _ => pending
  · rename_i fact rest _ pending
    split
    · exact inv.skip pending
    · rename_i above
      split
      · exact inv.reject pending _
      · exact inv.to_phase (by simp) (by simp) (by simp) (by simp)
      · refine inv.to_phase (by simp) ?_ (by simp) (by simp)
        intro _ _ fact' rest' pending'
        obtain ⟨rfl, rfl⟩ := List.cons.inj (pending.symm.trans pending')
        exact not_le.mp above
  · rename_i write fact rest phase pending
    have above := inv.fresh write phase fact rest pending
    unfold applyUnit
    split
    · exact inv.reject pending _
    · exact inv.to_phase (by simp) (by simp) (by simp) (by simp)
    · rename_i tables rowId _
      split
      · rename_i conflict
        have overtaken := lt_highWater_of_conflict history.positive inv.nonneg inv.behind conflict
        exact inv.to_phase (fun _ => overtaken) (by simp) (by simp) (by simp)
      · rename_i mark' advanced
        obtain ⟨-, rfl⟩ := advanceHighWater_eq_some advanced
        exact inv.apply pending rowId tables above
  · rename_i _ phase
    split
    · rename_i unmoved
      exact absurd unmoved (inv.overtaken phase).ne'
    · exact
        { nonneg := history.highWater_nonneg
          behind := le_rfl
          overtaken := by simp
          fresh := by simp
          unraised := by simp
          ended := by simp
          partition := inv.partition }
  · exact inv

/-- The whole lane: a rising history, and every push sound against it. -/
structure LaneInvariant (lane : Lane) : Prop where
  history : HistoryInvariant lane.hub
  pushes : ∀ push ∈ lane.pushes, PushInvariant lane.hub push

theorem laneInvariant_empty (tables : Tables) : LaneInvariant (Lane.empty tables) where
  history := by constructor <;> simp [Lane.empty]
  pushes := by simp [Lane.empty]

/-- An advance leaves the hub alone, or applies its head fact above the mark and records it. -/
theorem advance_hub {lane : Lane} (inv : LaneInvariant lane) (runnerId : RunnerId) (index : ℕ)
    (mode : RouteTokenMode) (now : Instant) :
    (lane.after runnerId (.advance index mode now)).hub = lane.hub ∨
      ∃ push fact rest tables, lane.pushes[index]? = some push ∧ push.pending = fact :: rest ∧
        lane.hub.highWater < fact.seq ∧
        (lane.after runnerId (.advance index mode now)).hub =
          ⟨tables, some fact.seq, lane.hub.applied ++ [fact.seq]⟩ := by
  unfold Lane.after
  dsimp only
  split
  · exact .inl rfl
  · rename_i push found
    have sound := inv.pushes push (List.mem_of_getElem? found)
    rcases step_hub sound runnerId mode now with quiet | ⟨fact, rest, tables, pending, above, unit⟩
    · exact .inl quiet
    · exact .inr ⟨push, fact, rest, tables, found, pending, above, unit⟩

theorem highWater_le_step {runnerId : RunnerId} {lane lane' : Lane} {event : LaneEvent}
    (step : LaneStep runnerId lane event lane') (inv : LaneInvariant lane) :
    lane.hub.highWater ≤ lane'.hub.highWater := by
  obtain rfl := step
  cases event with
  | «begin» pushed => exact le_rfl
  | advance index mode now =>
    rcases advance_hub inv runnerId index mode now with quiet | ⟨_, fact, _, _, _, _, above, unit⟩
    · rw [quiet]
    · rw [unit]
      exact above.le
  | elsewhere tables => exact le_rfl

theorem laneInvariant_step {runnerId : RunnerId} {lane lane' : Lane} {event : LaneEvent}
    (step : LaneStep runnerId lane event lane') (inv : LaneInvariant lane) : LaneInvariant lane' := by
  have rises := highWater_le_step step inv
  obtain rfl := step
  cases event with
  | «begin» pushed =>
    refine ⟨inv.history, fun push hpush => ?_⟩
    rcases List.mem_append.mp hpush with old | new
    · exact inv.pushes push old
    · rw [List.mem_singleton.mp new]
      exact pushInvariant_begin inv.history pushed
  | advance index mode now =>
    have history : HistoryInvariant (lane.after runnerId (.advance index mode now)).hub := by
      rcases advance_hub inv runnerId index mode now with quiet | ⟨_, fact, _, tables, _, _, above, unit⟩
      · rw [quiet]
        exact inv.history
      · rw [unit]
        exact inv.history.applied tables above inv.history.highWater_nonneg
    refine ⟨history, ?_⟩
    unfold Lane.after at rises ⊢
    dsimp only at rises ⊢
    split
    · exact inv.pushes
    · rename_i push found
      simp only [found] at rises
      intro other hother
      rcases List.mem_or_eq_of_mem_set hother with old | stepped
      · exact (inv.pushes other old).of_le rises
      · rw [stepped]
        exact pushInvariant_step inv.history (inv.pushes push (List.mem_of_getElem? found)) ..
  | elsewhere tables =>
    refine ⟨⟨inv.history.rising, inv.history.bounded, inv.history.positive⟩, fun push hpush => ?_⟩
    exact (inv.pushes push hpush).of_le le_rfl

/-- A seq a push names once is answered in one class. -/
theorem one_class {applied already rejected seqs : List ℤ}
    (partition : (applied ++ already ++ rejected).Perm seqs) {seq : ℤ} (once : seqs.count seq = 1) :
    (seq ∈ applied ∧ seq ∉ already ∧ seq ∉ rejected) ∨
      (seq ∉ applied ∧ seq ∈ already ∧ seq ∉ rejected) ∨
        (seq ∉ applied ∧ seq ∉ already ∧ seq ∈ rejected) := by
  have counts := List.perm_iff_count.mp partition seq
  simp only [List.count_append, once] at counts
  simp only [← List.count_pos_iff]
  omega

/-- Over every run of one runner's pushes the mark only rises, every seq's write commits at most
once and never at or below the mark, and a finished push has answered each of its facts once. -/
theorem exactly_once_intake {runnerId : RunnerId} {tables : Tables} {events : List LaneEvent}
    {lane : Lane} (run : Runs (LaneStep runnerId) (Lane.empty tables) events lane) :
    (∀ later lane', Runs (LaneStep runnerId) lane later lane' →
      lane.hub.highWater ≤ lane'.hub.highWater) ∧
    lane.hub.applied.Nodup ∧
    (∀ index mode now, (lane.after runnerId (.advance index mode now)).hub = lane.hub ∨
      ∃ push fact rest, lane.pushes[index]? = some push ∧ push.pending = fact :: rest ∧
        lane.hub.highWater < fact.seq ∧
        (lane.after runnerId (.advance index mode now)).hub.applied =
          lane.hub.applied ++ [fact.seq]) ∧
    (∀ index mode now push fact rest, lane.pushes[index]? = some push →
      push.pending = fact :: rest → fact.seq ≤ lane.hub.highWater →
        (lane.after runnerId (.advance index mode now)).hub = lane.hub) ∧
    (∀ push ∈ lane.pushes, push.phase ≠ .conflictRaised) ∧
    ∀ push ∈ lane.pushes, push.phase = .finished →
      (push.applied ++ push.already ++ push.rejected).Perm (push.pushed.map (·.seq)) ∧
      ∀ seq, (push.pushed.map (·.seq)).count seq = 1 →
        (seq ∈ push.applied ∧ seq ∉ push.already ∧ seq ∉ push.rejected) ∨
          (seq ∉ push.applied ∧ seq ∈ push.already ∧ seq ∉ push.rejected) ∨
            (seq ∉ push.applied ∧ seq ∉ push.already ∧ seq ∈ push.rejected) := by
  have inv : LaneInvariant lane :=
    run.invariant (fun _ _ _ step => laneInvariant_step step) (laneInvariant_empty tables)
  refine ⟨fun later lane' more => ?_, ?_, fun index mode now => ?_, ?_,
    fun push hpush => (inv.pushes push hpush).unraised, fun push hpush finished => ?_⟩
  · exact more.relates (R := fun a b => a.hub.highWater ≤ b.hub.highWater) (fun _ => le_rfl)
      le_trans (fun _ _ _ step => laneInvariant_step step) (fun _ _ _ step => highWater_le_step step)
      inv
  · exact inv.history.rising.imp fun below => below.ne
  · rcases advance_hub inv runnerId index mode now with quiet | ⟨push, fact, rest, _, found, head, above, unit⟩
    · exact .inl quiet
    · exact .inr ⟨push, fact, rest, found, head, above, by rw [unit]⟩
  · intro index mode now push fact rest found head below
    rcases advance_hub inv runnerId index mode now with quiet | ⟨push', fact', _, _, found', head', above, -⟩
    · exact quiet
    · obtain rfl := Option.some.inj (found.symm.trans found')
      obtain ⟨rfl, -⟩ := List.cons.inj (head.symm.trans head')
      exact absurd above (not_lt.mpr below)
  · have sound := inv.pushes push hpush
    have partition := sound.partition
    rw [sound.ended finished, List.map_nil, List.append_nil] at partition
    exact ⟨partition, fun seq once => one_class partition once⟩

/-- The lane after a sequence of events. -/
def laneAfter (runnerId : RunnerId) (lane : Lane) (events : List LaneEvent) : Lane :=
  events.foldl (Lane.after runnerId) lane

theorem runs_laneAfter (runnerId : RunnerId) (lane : Lane) (events : List LaneEvent) :
    Runs (LaneStep runnerId) lane events (laneAfter runnerId lane events) := by
  induction events generalizing lane with
  | nil => exact .nil lane
  | cons event events ih => exact .cons rfl (ih _)

/-- Two overlapping pushes of seq 5: the second meets the conflict, re-reads the mark and answers
already applied. -/
theorem exactly_once_intake_overlapping : ∃ lane, ∃ push ∈ lane.pushes,
    Runs (LaneStep "r1") (Lane.empty (.minted .empty []))
      [.begin [⟨5, .ungated fun _ => some fun t => (t, none)⟩],
        .begin [⟨5, .ungated fun _ => some fun t => (t, none)⟩],
        .advance 0 .warn 1, .advance 1 .warn 1, .advance 0 .warn 1, .advance 1 .warn 1,
        .advance 1 .warn 2, .advance 1 .warn 2, .advance 1 .warn 2] lane ∧
    lane.hub.applied = [5] ∧ push.applied = [] ∧
    (push.applied ++ push.already ++ push.rejected).Perm [5] := by
  have run := runs_laneAfter "r1" (Lane.empty (.minted .empty []))
    [.begin [⟨5, .ungated fun _ => some fun t => (t, none)⟩],
      .begin [⟨5, .ungated fun _ => some fun t => (t, none)⟩],
      .advance 0 .warn 1, .advance 1 .warn 1, .advance 0 .warn 1, .advance 1 .warn 1,
      .advance 1 .warn 2, .advance 1 .warn 2, .advance 1 .warn 2]
  refine ⟨_, _, List.mem_of_getElem? (i := 1) rfl, run, rfl, rfl, ?_⟩
  exact ((exactly_once_intake run).2.2.2.2.2 _ (List.mem_of_getElem? (i := 1) rfl) rfl).1

/-- A push that names seq 5 twice answers it applied and already applied. -/
theorem repeated_seq_in_two_classes : ∃ lane, ∃ push ∈ lane.pushes,
    Runs (LaneStep "r1") (Lane.empty (.minted .empty []))
      [.begin [⟨5, .ungated fun _ => some fun t => (t, none)⟩,
          ⟨5, .ungated fun _ => some fun t => (t, none)⟩],
        .advance 0 .warn 1, .advance 0 .warn 1, .advance 0 .warn 1, .advance 0 .warn 1] lane ∧
    push.phase = .finished ∧ 5 ∈ push.applied ∧ 5 ∈ push.already := by
  refine ⟨_, _, List.mem_of_getElem? (i := 0) rfl, runs_laneAfter "r1" _ _, rfl, ?_, ?_⟩
  · exact List.mem_cons_self
  · exact List.mem_cons_self

end Blizzard.ExactlyOnceIntake
