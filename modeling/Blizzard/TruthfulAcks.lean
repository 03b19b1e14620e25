import Blizzard.ExactlyOnceIntake

/-! # What a push's answer says of its facts

A push answers a seq applied, already applied or rejected. The mark stands for
every seq at or below it, and a unit moves it past the seqs that were refused; the
answers tell the truth along a run whose mark reads pass over no uncommitted fact
and whose refusals no overlapping push commits. -/
namespace Blizzard.TruthfulAcks
open HubTables ChunkLevers FactIntake ExactlyOnceIntake TransitionRuns

/-- The facts at or below the mark are ones some unit committed. -/
def Covered (hub : Intake) (facts : List PushedFact) : Prop :=
  ∀ fact ∈ facts, fact.seq ≤ hub.highWater → fact.seq ∈ hub.applied

/-- The push has its answer yet to give. -/
def inFlight (push : Push) : Bool :=
  match push.phase with
  | .deciding => true
  | .landing _ => true
  | .conflicted => true
  | _ => false

/-- The push reads the mark again, behind a conflict. -/
def rereads (push : Push) : Bool :=
  match push.phase with
  | .conflicted => true
  | _ => false

/-- The seq the push's next step refuses: by an unknown kind, the route token or the write fence. -/
def refuses (hub : Intake) (runnerId : RunnerId) (mode : RouteTokenMode) (now : Instant)
    (push : Push) : Option ℤ :=
  match push.phase, push.pending with
  | .deciding, fact :: _ =>
    if fact.seq ≤ push.mark then none
    else
      match landing hub.tables runnerId mode fact.body now with
      | .refused => some fact.seq
      | _ => none
  | .landing write, fact :: _ =>
    match write hub.tables with
    | .fenced => some fact.seq
    | _ => none
  | _, _ => none

/-- The seq the push's next step commits. -/
def commits (hub : Intake) (push : Push) : Option ℤ :=
  match push.phase, push.pending with
  | .landing write, fact :: _ =>
    match write hub.tables with
    | .written _ _ =>
      if (advanceHighWater hub.mark fact.seq push.mark).isSome then some fact.seq else none
    | _ => none
  | _, _ => none

/-- A mark read passes over no uncommitted fact of the push, and no seq is both refused and
committed before its answer. -/
def Clear (runnerId : RunnerId) (lane : Lane) : LaneEvent → Prop
  | .begin pushed => Covered lane.hub pushed
  | .advance index mode now => ∀ push ∈ lane.pushes[index]?,
      (rereads push → Covered lane.hub push.pending) ∧
      (∀ seq ∈ refuses lane.hub runnerId mode now push, seq ∉ lane.hub.applied) ∧
      ∀ seq ∈ commits lane.hub push, ∀ other ∈ lane.pushes, inFlight other → seq ∉ other.rejected
  | .elsewhere _ => True

/-- The push that answers in this step. -/
def answers (lane : Lane) : LaneEvent → Option Push
  | .advance index _ _ =>
    lane.pushes[index]?.filter fun push =>
      match push.phase, push.pending with
      | .deciding, [] => true
      | _, _ => false
  | _ => none

/-- Every answer given tells which writes were committed when it was given. -/
def Truthful (lane : Lane) (event : LaneEvent) : Prop :=
  ∀ push ∈ answers lane event,
    (∀ seq ∈ push.applied ++ push.already, seq ∈ lane.hub.applied) ∧
      ∀ seq ∈ push.rejected, seq ∉ lane.hub.applied

instance (hub : Intake) (facts : List PushedFact) : Decidable (Covered hub facts) :=
  inferInstanceAs (Decidable (∀ fact ∈ facts, fact.seq ≤ hub.highWater → fact.seq ∈ hub.applied))

instance (runnerId : RunnerId) (lane : Lane) : (event : LaneEvent) →
    Decidable (Clear runnerId lane event)
  | .begin pushed => inferInstanceAs (Decidable (Covered lane.hub pushed))
  | .advance index mode now => inferInstanceAs (Decidable (∀ push ∈ lane.pushes[index]?,
      (rereads push → Covered lane.hub push.pending) ∧
      (∀ seq ∈ refuses lane.hub runnerId mode now push, seq ∉ lane.hub.applied) ∧
      ∀ seq ∈ commits lane.hub push, ∀ other ∈ lane.pushes, inFlight other → seq ∉ other.rejected))
  | .elsewhere _ => isTrue trivial

instance (lane : Lane) (event : LaneEvent) : Decidable (Truthful lane event) :=
  inferInstanceAs (Decidable (∀ push ∈ answers lane event, _ ∧ _))

/-! ## What a push has answered so far -/

/-- What the push has answered so far is true, and what is left of it below its mark is committed. -/
structure Standing (hub : Intake) (push : Push) : Prop where
  landed : ∀ seq ∈ push.applied ++ push.already, seq ∈ hub.applied
  refused : inFlight push → ∀ seq ∈ push.rejected, seq ∉ hub.applied
  covered : ∀ fact ∈ push.pending, fact.seq ≤ push.mark → fact.seq ∈ hub.applied
  sorted : push.pending.Pairwise fun a b => a.seq ≤ b.seq

/-- The condition as one step of a push meets it. -/
structure ClearStep (hub : Intake) (runnerId : RunnerId) (mode : RouteTokenMode) (now : Instant)
    (push : Push) : Prop where
  reread : rereads push → Covered hub push.pending
  refusal : ∀ seq ∈ refuses hub runnerId mode now push, seq ∉ hub.applied
  unrefused : ∀ seq ∈ commits hub push, seq ∉ push.rejected

variable {hub : Intake} {push : Push} {fact : PushedFact} {rest : List PushedFact}
  {runnerId : RunnerId} {mode : RouteTokenMode} {now : Instant}

theorem standing_begin {pushed : List PushedFact} (covered : Covered hub pushed) :
    Standing hub (Push.begin hub pushed) where
  landed := by simp [Push.begin]
  refused := by simp [Push.begin]
  covered := by
    intro fact inside below
    have among : fact ∈ pushed := (List.perm_insertionSort _ pushed).mem_iff.mp inside
    exact covered fact among below
  sorted := by
    have total : Std.Total fun a b : PushedFact => a.seq ≤ b.seq := ⟨fun a b => le_total _ _⟩
    have trans : IsTrans PushedFact fun a b => a.seq ≤ b.seq := ⟨fun _ _ _ => le_trans⟩
    exact List.pairwise_insertionSort _ pushed

/-- A phase change answers nothing. -/
theorem Standing.to_phase (standing : Standing hub push) (flying : inFlight push) (phase : Phase) :
    Standing hub { push with phase := phase } :=
  ⟨standing.landed, fun _ => standing.refused flying, standing.covered, standing.sorted⟩

theorem Standing.skip (standing : Standing hub push) (flying : inFlight push)
    (pending : push.pending = fact :: rest) (below : fact.seq ≤ push.mark) :
    Standing hub (push.skip fact rest) where
  landed := by
    intro seq inside
    simp only [Push.skip, List.mem_append, List.mem_singleton] at inside
    rcases inside with old | old | new
    · exact standing.landed seq (List.mem_append_left _ old)
    · exact standing.landed seq (List.mem_append_right _ old)
    · exact new ▸ standing.covered fact (pending ▸ List.mem_cons_self) below
  refused _ := standing.refused flying
  covered other inside := standing.covered other (pending ▸ List.mem_cons_of_mem fact inside)
  sorted := (List.pairwise_cons.mp (pending ▸ standing.sorted)).2

theorem Standing.reject (standing : Standing hub push) (flying : inFlight push)
    (pending : push.pending = fact :: rest) (tables : Tables) (uncommitted : fact.seq ∉ hub.applied) :
    Standing hub (push.reject tables fact rest) where
  landed := standing.landed
  refused := by
    intro _ seq inside
    rcases List.mem_append.mp inside with old | new
    · exact standing.refused flying seq old
    · exact List.mem_singleton.mp new ▸ uncommitted
  covered other inside := standing.covered other (pending ▸ List.mem_cons_of_mem fact inside)
  sorted := (List.pairwise_cons.mp (pending ▸ standing.sorted)).2

/-- Another commit of the lane leaves the push standing where it had not refused the seq. -/
theorem Standing.grow (standing : Standing hub push) {tables : Tables} {mark : Option ℤ} {seq : ℤ}
    (unrefused : inFlight push → seq ∉ push.rejected) :
    Standing ⟨tables, mark, hub.applied ++ [seq]⟩ push where
  landed old inside := List.mem_append_left _ (standing.landed old inside)
  refused := by
    intro flying old inside committed
    rcases List.mem_append.mp committed with before | new
    · exact standing.refused flying old inside before
    · exact unrefused flying (List.mem_singleton.mp new ▸ inside)
  covered other inside below := List.mem_append_left _ (standing.covered other inside below)
  sorted := standing.sorted

theorem Standing.apply (standing : Standing hub push) (flying : inFlight push)
    (pending : push.pending = fact :: rest) {tables : Tables} {mark : Option ℤ} (rowId : Option ℤ)
    (unrefused : fact.seq ∉ push.rejected) :
    Standing ⟨tables, mark, hub.applied ++ [fact.seq]⟩ (push.apply fact rest rowId) where
  landed := by
    intro seq inside
    simp only [Push.apply, List.mem_append, List.mem_singleton] at inside ⊢
    rcases inside with (old | new) | old
    · exact .inl (standing.landed seq (List.mem_append_left _ old))
    · exact .inr new
    · exact .inl (standing.landed seq (List.mem_append_right _ old))
  refused _ := by
    have grown : Standing ⟨tables, mark, hub.applied ++ [fact.seq]⟩ push :=
      standing.grow fun _ => unrefused
    exact grown.refused flying
  covered := by
    intro other inside below
    have above := (List.pairwise_cons.mp (pending ▸ standing.sorted)).1 other inside
    exact List.mem_append_right _ (List.mem_singleton.mpr (le_antisymm below above))
  sorted := (List.pairwise_cons.mp (pending ▸ standing.sorted)).2

/-- One clear step keeps the stepping push standing against the hub it leaves. -/
theorem standing_step (standing : Standing hub push)
    (clear : ClearStep hub runnerId mode now push) :
    Standing (push.step hub runnerId mode now).1 (push.step hub runnerId mode now).2 := by
  unfold Push.step
  split
  next deciding _ => exact standing.to_phase (by simp [inFlight, deciding]) _
  next fact rest deciding pending =>
    have flying : inFlight push := by simp [inFlight, deciding]
    split
    next below => exact standing.skip flying pending below
    next above =>
      split
      next refused =>
        refine standing.reject flying pending _ (clear.refusal fact.seq ?_)
        simp [refuses, deciding, pending, above, refused]
      · exact standing.to_phase flying _
      · exact standing.to_phase flying _
  next write fact rest landing_ pending =>
    have flying : inFlight push := by simp [inFlight, landing_]
    unfold applyUnit
    split
    next fenced =>
      refine standing.reject flying pending _ (clear.refusal fact.seq ?_)
      simp [refuses, landing_, pending, fenced]
    · exact standing.to_phase flying _
    next tables rowId written =>
      split
      · exact standing.to_phase flying _
      next mark' advanced =>
        refine standing.apply flying pending rowId (clear.unrefused fact.seq ?_)
        simp [commits, landing_, pending, written, advanced]
  next conflicted =>
    have flying : inFlight push := by simp [inFlight, conflicted]
    split
    · exact standing.to_phase flying _
    · exact ⟨standing.landed, fun _ => standing.refused flying,
        clear.reread (by simp [rereads, conflicted]), standing.sorted⟩
  · exact standing

/-- A step leaves the applied seqs alone, or adds the one it commits. -/
theorem step_applied : (push.step hub runnerId mode now).1 = hub ∨
    ∃ seq ∈ commits hub push, ∃ tables mark,
      (push.step hub runnerId mode now).1 = ⟨tables, mark, hub.applied ++ [seq]⟩ := by
  unfold Push.step
  split
  · exact .inl rfl
  · split
    · exact .inl rfl
    · split <;> exact .inl rfl
  next write fact rest landing_ pending =>
    unfold applyUnit
    split
    · exact .inl rfl
    · exact .inl rfl
    next tables rowId written =>
      split
      · exact .inl rfl
      next mark' advanced =>
        refine .inr ⟨fact.seq, ?_, tables, mark', rfl⟩
        simp [commits, landing_, pending, written, advanced]
  · split <;> exact .inl rfl
  · exact .inl rfl

/-! ## The lane -/

/-- Every push of the lane stands. -/
def LaneStanding (lane : Lane) : Prop := ∀ push ∈ lane.pushes, Standing lane.hub push

variable {lane : Lane}

theorem clearStep_of_clear {index : ℕ} (found : lane.pushes[index]? = some push)
    (clear : Clear runnerId lane (.advance index mode now)) (flying : inFlight push) :
    ClearStep lane.hub runnerId mode now push := by
  obtain ⟨reread, refusal, unrefused⟩ := clear push found
  exact ⟨reread, refusal, fun seq committed =>
    unrefused seq committed push (List.mem_of_getElem? found) flying⟩

/-- A push with its answer given takes no step. -/
theorem step_of_not_inFlight (landed : inFlight push = false) :
    push.step hub runnerId mode now = (hub, push) := by
  unfold Push.step
  cases phase : push.phase <;> simp [inFlight, phase] at landed <;> rfl

theorem laneStanding_step (standing : LaneStanding lane) (event : LaneEvent)
    (clear : Clear runnerId lane event) : LaneStanding (lane.after runnerId event) := by
  cases event with
  | «begin» pushed =>
    intro push inside
    rcases List.mem_append.mp inside with old | new
    · exact standing push old
    · rw [List.mem_singleton.mp new]
      exact standing_begin clear
  | advance index mode now =>
    unfold Lane.after
    dsimp only
    split
    · exact standing
    next push found =>
      have stood := standing push (List.mem_of_getElem? found)
      cases flying : inFlight push with
      | false =>
        intro other inside
        rw [step_of_not_inFlight flying] at inside ⊢
        rcases List.mem_or_eq_of_mem_set inside with old | same
        · exact standing other old
        · rw [same]
          exact stood
      | true =>
        intro other inside
        rcases List.mem_or_eq_of_mem_set inside with old | stepped
        · dsimp only
          rcases @step_applied lane.hub push runnerId mode now with
            quiet | ⟨seq, committed, tables, mark, unit⟩
          · rw [quiet]
            exact standing other old
          · rw [unit]
            exact (standing other old).grow ((clear push found).2.2 seq committed other old)
        · rw [stepped]
          exact standing_step stood (clearStep_of_clear found clear flying)
  | elsewhere tables =>
    intro push inside
    exact ⟨(standing push inside).landed, (standing push inside).refused,
      (standing push inside).covered, (standing push inside).sorted⟩

/-- Where every push stands, an answer is the truth. -/
theorem LaneStanding.truthful (standing : LaneStanding lane) (event : LaneEvent) :
    Truthful lane event := by
  intro push answering
  cases event with
  | advance index mode now =>
    obtain ⟨found, last⟩ := Option.filter_eq_some_iff.mp answering
    have stood := standing push (List.mem_of_getElem? found)
    refine ⟨stood.landed, stood.refused ?_⟩
    cases phase : push.phase with
    | deciding => simp [inFlight, phase]
    | landing write => simp [inFlight, phase]
    | conflicted => simp [inFlight, phase]
    | _ => simp [phase] at last
  | «begin» pushed => cases answering
  | elsewhere tables => cases answering

/-- A fact the hub lands, and one of a kind it does not know. -/
def landed (seq : ℤ) : PushedFact := ⟨seq, .ungated fun _ => some fun tables => (tables, none)⟩
def unknown (seq : ℤ) : PushedFact := ⟨seq, .unknown⟩

def steps (index count : ℕ) : List LaneEvent := List.replicate count (.advance index .warn 1)

end Blizzard.TruthfulAcks
