import Blizzard.FlowDriver
import Blizzard.FlowExclusion

/-! # Turns no task answers for

A turn whose task was started and has not finished is never ended for it; one left by a process
or a task that wrote no end is ended `interrupted`, once, by the first sweep it is old enough
for. -/
namespace Blizzard.FlowUnanswered
open HubTables FlowLines FlowSafety FlowExclusion FlowDriver

variable {t t' : FlowTables} {d : Driver}

/-! ## Turn rows -/

/-- The turn's row, ended as a sweep ends it. -/
def Interrupted (t : FlowTables) (turn : TurnRow) : Prop :=
  ∃ at_, { turn with endedAt := some at_, outcome := some turnInterrupted } ∈ t.turns

theorem endTurn_row (safe : LineInvariant t) {turnId outcome id : String} {at_ : Instant}
    (wrote : t.endTurn turnId outcome at_ = some (t', id)) {turn : TurnRow}
    (inside : turn ∈ t.turns) :
    turn ∈ t'.turns ∧ (turn.turnId = turnId → turn.endedAt ≠ none) ∨
      turn.turnId = turnId ∧ turn.endedAt = none ∧
      { turn with endedAt := some at_, outcome := some outcome } ∈ t'.turns := by
  obtain ⟨ended, stored, rfl, running, -, submission, rfl⟩ := endTurn_spec wrote
  by_cases own : turn.turnId = ended.turnId
  · right
    have one := List.inj_on_of_nodup_map safe.keyed.turnIds inside stored own
    refine ⟨own, one ▸ running, List.mem_map.mpr ⟨turn, inside, ?_⟩⟩
    rw [endedAs, if_pos own]
  · left
    refine ⟨List.mem_map.mpr ⟨turn, inside, ?_⟩, fun same => absurd same own⟩
    rw [endedAs, if_neg own]

/-- The end of an open turn finds its row and its submission. -/
theorem endTurn_answers (safe : LineInvariant t) {turn : TurnRow} {turnId : String}
    (inside : turn ∈ t.turns) (own : turn.turnId = turnId) (running : turn.endedAt = none)
    (outcome : String) (at_ : Instant) : ∃ t' id, t.endTurn turnId outcome at_ = some (t', id) := by
  cases found : t.turns.find? fun turn => turn.turnId = turnId ∧ turn.endedAt = none with
  | none => exact absurd (decide_eq_true ⟨own, running⟩) (List.find?_eq_none.mp found turn inside)
  | some first =>
    obtain ⟨s, stored, same⟩ := List.mem_map.mp
      (safe.keyed.turnOf first (List.mem_of_find?_eq_some found))
    cases submission : t.submission? first.submissionId with
    | none => exact absurd (decide_eq_true same) (List.find?_eq_none.mp submission s stored)
    | some row =>
      rw [FlowTables.endTurn, found]
      dsimp only [Option.bind_eq_bind, Option.bind_some]
      rw [submission]
      exact ⟨_, _, rfl⟩

theorem endTurnLocked_row (safe : LineInvariant t) (turnId outcome : String)
    (closure : Option String) (at_ : Instant) {turn : TurnRow} (inside : turn ∈ t.turns) :
    let after := (t.endTurnLocked turnId outcome closure at_).getD t
    turn ∈ after.turns ∧ (turn.turnId = turnId → turn.endedAt ≠ none) ∨
      turn.turnId = turnId ∧ turn.endedAt = none ∧
      { turn with endedAt := some at_, outcome := some outcome } ∈ after.turns := by
  dsimp only
  cases wrote : t.endTurnLocked turnId outcome closure at_ with
  | some after =>
    rw [FlowTables.endTurnLocked, Option.bind_eq_bind, Option.bind_eq_some_iff] at wrote
    obtain ⟨⟨mid, id⟩, first, wrote⟩ := wrote
    have row := endTurn_row safe first inside
    cases closure with
    | none =>
      cases wrote
      exact row
    | some closure =>
      cases wrote
      rw [Option.getD_some]
      cases closing : mid.closeSubmission id closure at_ with
      | none => exact row
      | some closed =>
        have same := closeSubmission_turns closing
        rw [Option.getD_some, same]
        exact row
  | none =>
    refine .inl ⟨inside, ?_⟩
    intro own running
    obtain ⟨mid, id, first⟩ := endTurn_answers safe inside own running outcome at_
    rw [FlowTables.endTurnLocked, first] at wrote
    cases closure <;> cases wrote

theorem turnless_turns (safe : LineInvariant t) {write : Write} (quiet : turnless write) :
    (t.step write).turns = t.turns := by
  cases write with
  | submit submissionId mint chunkId nodeId epoch resources at_ =>
    rw [FlowTables.step]
    cases wrote : t.submitVisit submissionId mint chunkId nodeId epoch resources at_ with
    | none => rfl
    | some t' =>
      obtain ⟨generation, arrival, flows, made, -, -, -, -, -, -, rfl⟩ :=
        submitVisit_spec safe.keyed.flowIds wrote
      rfl
  | close submissionId outcome at_ =>
    rw [FlowTables.step]
    cases wrote : t.close submissionId outcome at_ with
    | none => rfl
    | some t' => exact (close_frame wrote).2.2
  | takeTurn => cases quiet
  | endTurn => cases quiet
  | interrupt => cases quiet
  | withdraw => exact withdraw_frame.2.2
  | land => exact (recordLanding_frame _ _ _ _ _ _).2.2

/-! ## The driver and its loop -/

/-- A pass in progress: only a tick takes a snapshot, which holds every turn still running; it takes
turns only once its sweep is over, and no task answers for a turn it is to end. -/
structure PassDriven (d : Driver) (pass : Pass) : Prop where
  snapped : pass.stage = .snapped → pass.boot = false
  snapshot : d.running ⊆ pass.sweep.running
  untaken : pass.stage ≠ .finished ∨ pass.boot = true → pass.started = []
  unanswered : ∀ left, pass.stage = .ending left → ∀ id ∈ left, id ∉ d.running

/-- Where the one driver is. -/
inductive Phase (d : Driver) : Prop
  | down (pass : d.pass = none) (queue : d.queue = []) (waiting : d.waiting = false)
      (running : d.running = [])
  | ticking (pass : Pass) (found : d.pass = some pass) (queue : d.queue = [])
      (waiting : d.waiting = false) (down : d.down = false) (driven : PassDriven d pass)
  | spawning (started : List String) (pass : d.pass = none) (queue : d.queue = [.spawn started])
      (waiting : d.waiting = false) (down : d.down = false)
  | waiting (starts : List String) (pass : d.pass = none) (queue : d.queue = starts.map .start)
      (waiting : d.waiting = true) (down : d.down = false)
  | due (starts : List String) (pass : d.pass = none)
      (queue : d.queue = starts.map .start ++ [.tick]) (waiting : d.waiting = false)
      (down : d.down = false)

structure Driven (d : Driver) : Prop where
  safe : LineInvariant d.tables
  known : ∀ id ∈ d.alive, id ∈ d.tables.turns.map (·.turnId)
  once : d.alive.Nodup
  phase : Phase d

theorem driven_empty : Driven {} where
  safe := lineInvariant_empty
  known := fun _ inside => nomatch inside
  once := List.nodup_nil
  phase := .down rfl rfl rfl rfl

theorem flatMap_starts (starts : List String) : (starts.map Job.start).flatMap Job.turns = starts := by
  induction starts with
  | nil => rfl
  | cons id rest ih =>
    rw [List.map_cons, List.flatMap_cons, ih]
    rfl

/-- The driver after a step: no turn comes to life but one the step took. -/
structure Drives (d after : Driver) : Prop where
  driven : Driven after
  rows : ∀ id ∈ d.tables.turns.map (·.turnId), id ∈ after.tables.turns.map (·.turnId)
  alive : ∀ id ∈ after.alive, id ∈ d.alive ∨ id ∉ d.tables.turns.map (·.turnId)

theorem Drives.refl (driven : Driven d) : Drives d d :=
  ⟨driven, fun _ inside => inside, fun _ inside => .inl inside⟩

theorem Drives.trans {middle after : Driver} (first : Drives d middle)
    (second : Drives middle after) : Drives d after := by
  refine ⟨second.driven, fun id inside => second.rows id (first.rows id inside), ?_⟩
  intro id inside
  rcases second.alive id inside with before | fresh
  · exact first.alive id before
  · exact .inr fun known => fresh (first.rows id known)

/-- A step that brings no task to life and takes no turn's row away. -/
theorem Driven.sublist (driven : Driven d) {after : Driver} (safe : LineInvariant after.tables)
    (rows : ∀ id ∈ d.tables.turns.map (·.turnId), id ∈ after.tables.turns.map (·.turnId))
    (alive : after.alive.Subperm d.alive) (phase : Phase after) : Drives d after := by
  refine ⟨⟨safe, fun id inside => rows id (driven.known id (alive.subset inside)), ?_, phase⟩, rows,
    fun id inside => .inl (alive.subset inside)⟩
  obtain ⟨some_, perm, fewer⟩ := alive
  exact perm.nodup_iff.mp (fewer.nodup driven.once)

theorem alive_of_none (pass : d.pass = none) : d.alive = d.queue.flatMap Job.turns ++ d.running := by
  rw [Driver.alive, pass]
  rfl

theorem turnIds_step (safe : LineInvariant t) (write : Write) :
    ∀ id ∈ t.turns.map (·.turnId), id ∈ (t.step write).turns.map (·.turnId) := by
  intro id inside
  rcases step_cases safe write with ⟨-, -, same⟩ | ⟨_, -, -, -, same⟩ | ⟨_, _, _, _, _, -, wrote⟩
  · rw [same]
    exact inside
  · rw [same]
    exact inside
  · rw [(takeTurn_frame wrote).2.2, List.map_append]
    exact List.mem_append_left _ inside

/-- A write of the tables leaves the loop as it is. -/
theorem Driven.write (driven : Driven d) (write : Write) :
    Drives d { d with tables := d.tables.step write } := by
  refine driven.sublist (lineInvariant_step driven.safe write) (turnIds_step driven.safe write)
    (List.Subperm.refl _) ?_
  cases driven.phase with
  | down pass queue waiting running => exact .down pass queue waiting running
  | ticking pass found queue waiting down driven =>
    exact .ticking pass found queue waiting down ⟨driven.snapped, driven.snapshot, driven.untaken,
      driven.unanswered⟩
  | spawning started pass queue waiting down => exact .spawning started pass queue waiting down
  | waiting starts pass queue waiting down => exact .waiting starts pass queue waiting down
  | due starts pass queue waiting down => exact .due starts pass queue waiting down

theorem Driven.finish_task (driven : Driven d) (id : String) :
    Drives d { d with running := d.running.filter (· ≠ id) } := by
  have less : (d.running.filter (· ≠ id)) ⊆ d.running := List.filter_sublist.subset
  refine driven.sublist driven.safe (fun _ inside => inside) ?_ ?_
  · exact ((List.Sublist.refl _).append List.filter_sublist).subperm
  · cases driven.phase with
    | down pass queue waiting running =>
      refine .down pass queue waiting ?_
      show d.running.filter _ = []
      rw [running, List.filter_nil]
    | ticking pass found queue waiting down driven =>
      exact .ticking pass found queue waiting down ⟨driven.snapped,
        List.Subset.trans less driven.snapshot, driven.untaken,
        fun left stage id inside running => driven.unanswered left stage id inside (less running)⟩
    | spawning started pass queue waiting down => exact .spawning started pass queue waiting down
    | waiting starts pass queue waiting down => exact .waiting starts pass queue waiting down
    | due starts pass queue waiting down => exact .due starts pass queue waiting down

/-- The loop runs a task's first step before the driver's tick that was queued behind it. -/
theorem Driven.loop (driven : Driven d) : Drives d (d.step .loop) := by
  rw [Driver.step]
  split
  next => exact Drives.refl driven
  next job rest queued =>
    cases driven.phase with
    | down pass queue waiting running =>
      rw [queue] at queued
      cases queued
    | ticking pass found queue waiting down _ =>
      rw [queue] at queued
      cases queued
    | spawning started pass queue waiting down =>
      rw [queue] at queued
      cases queued
      refine driven.sublist driven.safe (fun _ inside => inside) ?_
        (.waiting started pass rfl rfl down)
      apply List.Perm.subperm
      rw [alive_of_none pass, alive_of_none (d := d.runJob [] (.spawn started)) pass, queue]
      show ((started.map Job.start).flatMap Job.turns ++ d.running).Perm _
      rw [flatMap_starts, List.flatMap_singleton]
      exact List.Perm.refl _
    | waiting starts pass queue waiting down =>
      cases starts with
      | nil =>
        rw [queue] at queued
        cases queued
      | cons id starts =>
        rw [queue] at queued
        cases queued
        refine driven.sublist driven.safe (fun _ inside => inside) ?_
          (.waiting starts pass rfl waiting down)
        apply List.Perm.subperm
        rw [alive_of_none pass,
          alive_of_none (d := d.runJob (starts.map .start) (.start id)) pass, queue]
        show ((starts.map Job.start).flatMap Job.turns ++ (d.running ++ [id])).Perm _
        rw [flatMap_starts, flatMap_starts, ← List.append_assoc]
        exact List.perm_append_singleton _ _
    | due starts pass queue waiting down =>
      cases starts with
      | nil =>
        rw [queue] at queued
        cases queued
        refine driven.sublist driven.safe (fun _ inside => inside) ?_
          (.ticking _ rfl rfl waiting down ⟨fun _ => rfl, List.Subset.refl _, fun _ => rfl, ?_⟩)
        · apply List.Perm.subperm
          rw [alive_of_none pass, queue]
          exact List.Perm.refl _
        · intro left stage
          cases stage
      | cons id starts =>
        rw [List.map_cons, List.cons_append] at queue
        rw [queue] at queued
        cases queued
        refine driven.sublist driven.safe (fun _ inside => inside) ?_
          (.due starts pass rfl waiting down)
        apply List.Perm.subperm
        rw [alive_of_none pass,
          alive_of_none (d := d.runJob (starts.map Job.start ++ [Job.tick]) (.start id)) pass, queue]
        show ((starts.map Job.start ++ [Job.tick]).flatMap Job.turns ++ (d.running ++ [id])).Perm _
        have ticks : [Job.tick].flatMap Job.turns = [] := rfl
        rw [List.flatMap_cons, List.flatMap_append, flatMap_starts, ticks, List.append_nil,
          ← List.append_assoc]
        exact List.perm_append_singleton _ _

theorem Driven.ticking (driven : Driven d) {pass : Pass} (found : d.pass = some pass) :
    d.queue = [] ∧ d.waiting = false ∧ d.down = false ∧ PassDriven d pass := by
  cases driven.phase with
  | down none_ | spawning _ none_ | waiting _ none_ | due _ none_ =>
    rw [none_] at found
    cases found
  | ticking pass' found' queue waiting down sound =>
    rw [found'] at found
    cases found
    exact ⟨queue, waiting, down, sound⟩

theorem alive_of_ticking {pass : Pass} (found : d.pass = some pass) (queue : d.queue = []) :
    d.alive = pass.started ++ d.running := by
  rw [Driver.alive, found, queue]
  simp

/-- A step of the tick that starts nothing and writes no table. -/
theorem Driven.stage (driven : Driven d) {pass pass' : Pass} (found : d.pass = some pass)
    {after : Driver} (tables : after.tables = d.tables) (running : after.running = d.running)
    (queue : after.queue = d.queue) (waiting : after.waiting = d.waiting)
    (down : after.down = d.down) (next : after.pass = some pass')
    (started : pass'.started = pass.started) (sound : PassDriven after pass') : Drives d after := by
  obtain ⟨queued, waits, up, -⟩ := driven.ticking found
  refine driven.sublist (tables ▸ driven.safe) (fun _ inside => tables ▸ inside) ?_
    (.ticking pass' next (queue.trans queued) (waiting.trans waits) (down.trans up) sound)
  rw [alive_of_ticking found queued, alive_of_ticking next (queue.trans queued), started, running]

theorem Driven.step (driven : Driven d) (step : Step) : Drives d (d.step step) := by
  cases step with
  | pass instant =>
    refine driven.sublist driven.safe (fun _ inside => inside) (List.Subperm.refl _) ?_
    cases driven.phase with
    | down pass queue waiting running => exact .down pass queue waiting running
    | ticking pass found queue waiting down sound =>
      exact .ticking pass found queue waiting down ⟨sound.snapped, sound.snapshot, sound.untaken,
        sound.unanswered⟩
    | spawning started pass queue waiting down => exact .spawning started pass queue waiting down
    | waiting starts pass queue waiting down => exact .waiting starts pass queue waiting down
    | due starts pass queue waiting down => exact .due starts pass queue waiting down
  | write write =>
    rw [Driver.step]
    split
    next => exact driven.write write
    next => exact Drives.refl driven
  | answer turnId outcome closure =>
    rw [Driver.step]
    split
    next => exact driven.write _
    next => exact Drives.refl driven
  | done turnId => exact driven.finish_task turnId
  | wake =>
    rw [Driver.step]
    split
    next waits =>
      cases driven.phase with
      | down _ _ waiting | ticking _ _ _ waiting | spawning _ _ _ waiting | due _ _ _ waiting =>
        rw [waiting] at waits
        cases waits
      | waiting starts pass queue waiting down =>
        refine driven.sublist driven.safe (fun _ inside => inside) ?_
          (.due starts pass (congrArg (· ++ [Job.tick]) queue) rfl down)
        rw [alive_of_none pass, alive_of_none (d := { d with
          waiting := false, queue := d.queue ++ [.tick] }) pass]
        have ticks : [Job.tick].flatMap Job.turns = [] := rfl
        rw [List.flatMap_append, ticks, List.append_nil]
    next => exact Drives.refl driven
  | loop => exact driven.loop
  | readClock =>
    rw [Driver.step]
    split
    next boot sweep started found =>
      obtain ⟨-, -, -, sound⟩ := driven.ticking found
      refine driven.stage found rfl rfl rfl rfl rfl rfl rfl
        ⟨fun _ => sound.snapped rfl, sound.snapshot, ?_, ?_⟩
      · exact fun _ => sound.untaken (.inl (nomatch ·))
      · intro left stage
        dsimp only at stage
        split at stage <;> cases stage
    next => exact Drives.refl driven
  | readTurns =>
    rw [Driver.step]
    split
    next boot sweep started found =>
      obtain ⟨-, -, -, sound⟩ := driven.ticking found
      refine driven.stage found rfl rfl rfl rfl rfl rfl rfl
        ⟨(nomatch ·), sound.snapshot, ?_, ?_⟩
      · exact fun _ => sound.untaken (.inl (nomatch ·))
      · intro left stage id inside running
        cases stage
        obtain ⟨turn, unanswered, rfl⟩ := List.mem_map.mp inside
        obtain ⟨-, out, -⟩ := of_decide_eq_true (List.mem_filter.mp unanswered).2
        exact out (sound.snapshot running)
    next => exact Drives.refl driven
  | endNext withdrawal =>
    rw [Driver.step]
    split
    next boot sweep turnId left started found =>
      obtain ⟨-, -, -, sound⟩ := driven.ticking found
      have wrote := driven.write (.interrupt turnId withdrawal d.clock)
      refine wrote.trans (wrote.driven.stage found rfl rfl rfl rfl rfl rfl rfl
        ⟨(nomatch ·), sound.snapshot, ?_, ?_⟩)
      · exact fun _ => sound.untaken (.inl (nomatch ·))
      · intro left' stage id inside
        cases stage
        exact sound.unanswered _ rfl id (List.mem_cons_of_mem _ inside)
    next => exact Drives.refl driven
  | swept =>
    rw [Driver.step]
    split
    next boot sweep started found =>
      obtain ⟨-, -, -, sound⟩ := driven.ticking found
      refine driven.stage found rfl rfl rfl rfl rfl rfl rfl
        ⟨(nomatch ·), sound.snapshot, ?_, ?_⟩
      · exact fun _ => sound.untaken (.inl (nomatch ·))
      · exact fun _ stage => nomatch stage
    next => exact Drives.refl driven
  | takeTurn turnId submissionId passedOver candidates =>
    rw [Driver.step]
    split
    next sweep started found =>
      obtain ⟨queue, waiting, down, sound⟩ := driven.ticking found
      split
      next => exact Drives.refl driven
      next tables wrote =>
        obtain ⟨submission, -, -, -, -, -, fresh, -⟩ := takeTurn_spec wrote
        have rows := (takeTurn_frame wrote).2.2
        have before := alive_of_ticking found queue
        have after := alive_of_ticking (d := { d with
          tables, pass := some ⟨false, sweep, .finished, started ++ [turnId]⟩ }) rfl queue
        have added : (Driver.alive { d with
            tables, pass := some ⟨false, sweep, .finished, started ++ [turnId]⟩ }).Perm
              (turnId :: d.alive) := by
          rw [after, before]
          show ((started ++ [turnId]) ++ d.running).Perm (turnId :: (started ++ d.running))
          rw [List.append_assoc]
          exact List.perm_middle
        refine ⟨⟨takeTurn_keeps driven.safe wrote, ?_, ?_,
          .ticking _ rfl queue waiting down ⟨(nomatch ·), sound.snapshot, ?_,
            fun _ stage => nomatch stage⟩⟩,
          ?_, ?_⟩
        · intro id inside
          show id ∈ tables.turns.map (·.turnId)
          rw [rows, List.map_append]
          rcases List.mem_cons.mp (added.subset inside) with rfl | old
          · exact List.mem_append_right _ (List.mem_singleton_self _)
          · exact List.mem_append_left _ (driven.known id old)
        · rw [added.nodup_iff]
          exact List.nodup_cons.mpr ⟨fun inside => fresh (driven.known _ inside), driven.once⟩
        · rintro (finished | boot)
          · exact absurd rfl finished
          · cases boot
        · intro id inside
          show id ∈ tables.turns.map (·.turnId)
          rw [rows, List.map_append]
          exact List.mem_append_left _ inside
        · intro id inside
          rcases List.mem_cons.mp (added.subset inside) with rfl | old
          · exact .inr fresh
          · exact .inl old
    next => exact Drives.refl driven
  | finish =>
    rw [Driver.step]
    split
    next sweep started found =>
      obtain ⟨queue, waiting, down, -⟩ := driven.ticking found
      refine driven.sublist driven.safe (fun _ inside => inside) ?_
        (.spawning started rfl (by rw [queue, List.nil_append]) waiting down)
      rw [alive_of_ticking found queue, alive_of_none (d := { d with
        pass := none, queue := d.queue ++ [.spawn started] }) rfl, queue, List.nil_append,
        List.flatMap_singleton]
      exact List.Subperm.refl _
    next sweep started found =>
      obtain ⟨queue, waiting, down, -⟩ := driven.ticking found
      refine driven.sublist driven.safe (fun _ inside => inside) ?_
        (.due [] rfl (congrArg (· ++ [Job.tick]) queue) waiting down)
      rw [alive_of_ticking found queue, alive_of_none (d := { d with
        pass := none, queue := d.queue ++ [.tick] }) rfl, queue]
      exact (List.sublist_append_right _ _).subperm
    next => exact Drives.refl driven
  | raise =>
    rw [Driver.step]
    split
    next sweep stage started found =>
      obtain ⟨queue, waiting, down, -⟩ := driven.ticking found
      refine driven.sublist driven.safe (fun _ inside => inside) ?_
        (.spawning [] rfl (by rw [queue, List.nil_append]) waiting down)
      rw [alive_of_ticking found queue, alive_of_none (d := { d with
        pass := none, queue := d.queue ++ [.spawn []] }) rfl, queue]
      exact (List.sublist_append_right _ _).subperm
    next => exact Drives.refl driven
  | crash =>
    exact driven.sublist driven.safe (fun _ inside => inside) (List.nil_subperm)
      (.down rfl rfl rfl rfl)
  | boot =>
    rw [Driver.step]
    split
    next down =>
      cases driven.phase with
      | ticking _ _ _ _ up | spawning _ _ _ _ up | waiting _ _ _ _ up | due _ _ _ _ up =>
        rw [up] at down
        cases down
      | down pass queue waiting running =>
        refine driven.sublist driven.safe (fun _ inside => inside) ?_
          (.ticking _ rfl queue waiting rfl ⟨(nomatch ·), ?_, fun _ => rfl,
            fun _ stage => nomatch stage⟩)
        · rw [alive_of_none pass, alive_of_ticking (d := { d with
            down := false, pass := some ⟨true, ⟨none, []⟩, .unread, []⟩ }) rfl queue]
          exact (List.sublist_append_right _ _).subperm
        · show d.running ⊆ []
          rw [running]
          exact List.Subset.refl _
    next => exact Drives.refl driven

theorem driven_run {steps : List Step} : ∀ {d : Driver}, Driven d → Driven (d.run steps) := by
  induction steps with
  | nil => exact fun driven => driven
  | cons step rest ih => exact fun driven => ih (driven.step step).driven

/-! ## Turns left unanswered -/

/-- A row that a write does not end stays; one that an end finds open is ended by it. -/
theorem row_step (safe : LineInvariant t) (write : Write) {turn : TurnRow}
    (inside : turn ∈ t.turns) :
    turn ∈ (t.step write).turns ∨ turn.endedAt = none ∧
      ((∃ outcome closure at_, write = .endTurn turn.turnId outcome closure at_) ∨
        ∃ withdrawal at_, write = .interrupt turn.turnId withdrawal at_ ∧
          Interrupted (t.step write) turn) := by
  cases write with
  | endTurn turnId outcome closure at_ =>
    rcases endTurnLocked_row safe turnId outcome closure at_ inside with ⟨stays, -⟩ |
      ⟨rfl, running, -⟩
    · exact .inl stays
    · exact .inr ⟨running, .inl ⟨_, _, _, rfl⟩⟩
  | interrupt turnId withdrawal at_ =>
    rcases endTurnLocked_row safe turnId turnInterrupted (withdrawal.map (·.outcome)) at_ inside
      with ⟨stays, -⟩ | ⟨rfl, running, ended⟩
    · exact .inl stays
    · exact .inr ⟨running, .inr ⟨_, _, rfl, _, ended⟩⟩
  | takeTurn turnId id passedOver candidates at_ =>
    rw [FlowTables.step]
    cases wrote : t.takeTurn turnId id passedOver candidates at_ with
    | none => exact .inl inside
    | some t' =>
      left
      rw [Option.getD_some, (takeTurn_frame wrote).2.2]
      exact List.mem_append_left _ inside
  | submit | close | withdraw | land =>
    left
    rw [turnless_turns safe rfl]
    exact inside

theorem interrupted_step (safe : LineInvariant t) (write : Write) {turn : TurnRow}
    (ended : Interrupted t turn) : Interrupted (t.step write) turn := by
  obtain ⟨at_, inside⟩ := ended
  rcases row_step safe write inside with stays | ⟨running, -⟩
  · exact ⟨at_, stays⟩
  · cases running

/-- A turn open with no task to answer for it, and where the driver is with it since: not in a
snapshot, about to be ended by a sweep it is old enough for, and ended once that is over. -/
structure Unanswered (turn : TurnRow) (d : Driver) : Prop where
  dead : turn.turnId ∉ d.alive
  known : turn.turnId ∈ d.tables.turns.map (·.turnId)
  row : turn ∈ d.tables.turns ∨ Interrupted d.tables turn
  unseen : ∀ pass, d.pass = some pass → turn.turnId ∉ pass.sweep.running
  sweeping : ∀ pass left, d.pass = some pass → pass.stage = .ending left →
    pass.sweep.startedBefore.all (turn.startedAt < ·) → turn.turnId ∈ left ∨ Interrupted d.tables turn
  finished : ∀ pass, d.pass = some pass → pass.stage = .finished →
    pass.boot = true ∨ pass.sweep.startedBefore.isSome →
    pass.sweep.startedBefore.all (turn.startedAt < ·) → Interrupted d.tables turn

/-- A step that leaves the sweep as it is. -/
theorem Unanswered.write {turn : TurnRow} (unanswered : Unanswered turn d)
    {after : Driver} (drives : Drives d after)
    (row : ∀ turn, turn.turnId ∉ d.alive → turn ∈ d.tables.turns → turn ∈ after.tables.turns)
    (pass : ∀ pass', after.pass = some pass' → ∃ pass, d.pass = some pass ∧
      pass'.sweep = pass.sweep ∧ pass'.stage = pass.stage ∧ pass'.boot = pass.boot) :
    Unanswered turn after := by
  have kept : Interrupted d.tables turn → Interrupted after.tables turn :=
    fun ⟨at_, inside⟩ => ⟨at_, row _ unanswered.dead inside⟩
  refine ⟨?_, drives.rows _ unanswered.known, ?_, ?_, ?_, ?_⟩
  · intro inside
    rcases drives.alive _ inside with before | fresh
    · exact unanswered.dead before
    · exact fresh unanswered.known
  · exact unanswered.row.imp (row turn unanswered.dead) kept
  · intro pass' found
    obtain ⟨before, found, sweep, -⟩ := pass pass' found
    rw [sweep]
    exact unanswered.unseen before found
  · intro pass' left found stage old
    obtain ⟨before, found, sweep, stages, -⟩ := pass pass' found
    rw [sweep] at old
    exact (unanswered.sweeping before left found (stages.symm.trans stage) old).imp_right kept
  · intro pass' found stage sweeps old
    obtain ⟨before, found, sweep, stages, boot⟩ := pass pass' found
    rw [sweep] at old
    rw [sweep, boot] at sweeps
    exact kept (unanswered.finished before found (stages.symm.trans stage) sweeps old)

theorem running_alive {id : String} (inside : id ∈ d.running) : id ∈ d.alive :=
  List.mem_append_right _ inside

/-- A step of the tick that takes a sweep on, and writes no table. -/
theorem Unanswered.advance {turn : TurnRow} (unanswered : Unanswered turn d)
    {after : Driver} {pass : Pass} (drives : Drives d after) (tables : after.tables = d.tables)
    (next : after.pass = some pass) (unseen : turn.turnId ∉ pass.sweep.running)
    (sweeping : ∀ left, pass.stage = .ending left →
      pass.sweep.startedBefore.all (turn.startedAt < ·) →
        turn.turnId ∈ left ∨ Interrupted d.tables turn)
    (finished : pass.stage = .finished → pass.boot = true ∨ pass.sweep.startedBefore.isSome →
      pass.sweep.startedBefore.all (turn.startedAt < ·) → Interrupted d.tables turn) :
    Unanswered turn after := by
  refine ⟨?_, drives.rows _ unanswered.known, ?_, ?_, ?_, ?_⟩
  · intro inside
    rcases drives.alive _ inside with before | fresh
    · exact unanswered.dead before
    · exact fresh unanswered.known
  · rw [tables]
    exact unanswered.row
  · intro pass' found
    rw [next] at found
    cases found
    exact unseen
  · intro pass' left found stage old
    rw [next] at found
    cases found
    rw [tables]
    exact sweeping left stage old
  · intro pass' found stage sweeps old
    rw [next] at found
    cases found
    rw [tables]
    exact finished stage sweeps old

theorem Unanswered.step {turn : TurnRow} (running : turn.endedAt = none) (driven : Driven d)
    (unanswered : Unanswered turn d) (step : Step) : Unanswered turn (d.step step) := by
  have drives := driven.step step
  have still : ∀ turn : TurnRow, turn.turnId ∉ d.alive → turn ∈ d.tables.turns →
    turn ∈ d.tables.turns := fun _ _ inside => inside
  have same : ∀ pass', d.pass = some pass' → ∃ pass, d.pass = some pass ∧
      pass'.sweep = pass.sweep ∧ pass'.stage = pass.stage ∧ pass'.boot = pass.boot :=
    fun pass' found => ⟨pass', found, rfl, rfl, rfl⟩
  cases step with
  | pass instant => exact unanswered.write drives still same
  | write write =>
    rw [Driver.step] at drives ⊢
    split at drives
    next quiet =>
      rw [if_pos quiet]
      refine unanswered.write drives ?_ same
      intro turn _ inside
      show turn ∈ (d.tables.step write).turns
      rw [turnless_turns driven.safe quiet]
      exact inside
    next loud =>
      rw [if_neg loud]
      exact unanswered
  | answer turnId outcome closure =>
    rw [Driver.step] at drives ⊢
    split at drives
    next own =>
      rw [if_pos own]
      refine unanswered.write drives ?_ same
      intro turn dead inside
      rcases row_step driven.safe (.endTurn turnId outcome closure d.clock) inside with stays |
        ⟨-, ⟨_, _, _, ends⟩ | ⟨_, _, ends, -⟩⟩
      · exact stays
      · cases ends
        exact absurd (running_alive own) dead
      · cases ends
    next other =>
      rw [if_neg other]
      exact unanswered
  | done turnId => exact unanswered.write drives still same
  | wake =>
    rw [Driver.step] at drives ⊢
    split at drives
    next waits =>
      rw [if_pos waits]
      exact unanswered.write drives still same
    next wakes =>
      rw [if_neg wakes]
      exact unanswered
  | loop =>
    cases queued : d.queue with
    | nil =>
      rw [Driver.step, queued]
      exact unanswered
    | cons job rest =>
      rw [Driver.step, queued] at drives ⊢
      cases job with
      | tick =>
        refine unanswered.advance drives rfl rfl ?_ (fun left stage => nomatch stage)
          (fun stage => nomatch stage)
        exact fun inside => unanswered.dead (running_alive inside)
      | spawn started => exact unanswered.write drives still same
      | start id => exact unanswered.write drives still same
  | readClock =>
    rw [Driver.step] at drives ⊢
    split at drives
    next boot sweep started found =>
      have unseen := unanswered.unseen _ found
      have tick := (driven.ticking found).2.2.2.snapped rfl
      refine unanswered.advance drives rfl rfl unseen ?_ ?_
      · intro left stage
        dsimp only at stage
        split at stage <;> cases stage
      · intro stage sweeps
        -- a first tick sweeps nothing
        dsimp only at stage sweeps tick
        split at stage
        next => cases stage
        next first =>
          rw [tick] at sweeps
          exact absurd (sweeps.resolve_left Bool.false_ne_true) first
    next => exact unanswered
  | readTurns =>
    rw [Driver.step] at drives ⊢
    split at drives
    next boot sweep started found =>
      have unseen := unanswered.unseen _ found
      refine unanswered.advance drives rfl rfl unseen ?_ (fun stage => nomatch stage)
      intro left stage old
      cases stage
      refine unanswered.row.imp_left fun inside => List.mem_map_of_mem (List.mem_filter.mpr ⟨inside, ?_⟩)
      exact decide_eq_true ⟨running, unseen, old⟩
    next => exact unanswered
  | endNext withdrawal =>
    rw [Driver.step] at drives ⊢
    split at drives
    next boot sweep turnId left started found =>
      have row := unanswered.row
      have kept : Interrupted d.tables turn → Interrupted
          (d.tables.step (.interrupt turnId withdrawal d.clock)) turn :=
        interrupted_step driven.safe _
      have ends : turn ∈ d.tables.turns →
          turn ∈ (d.tables.step (.interrupt turnId withdrawal d.clock)).turns ∧
            turn.turnId ≠ turnId ∨
          Interrupted (d.tables.step (.interrupt turnId withdrawal d.clock)) turn := by
        intro inside
        rcases endTurnLocked_row driven.safe turnId turnInterrupted (withdrawal.map (·.outcome))
          d.clock inside with ⟨stays, others⟩ | ⟨-, -, ended⟩
        · exact .inl ⟨stays, fun own => others own running⟩
        · exact .inr ⟨_, ended⟩
      refine ⟨?_, drives.rows _ unanswered.known, ?_, ?_, ?_, ?_⟩
      · intro inside
        rcases drives.alive _ inside with before | fresh
        · exact unanswered.dead before
        · exact fresh unanswered.known
      · rcases row with inside | ended
        · exact (ends inside).imp_left And.left
        · exact .inr (kept ended)
      · intro pass' found'
        cases found'
        have unseen := unanswered.unseen _ found
        exact unseen
      · intro pass' left' found' stage old
        cases found'
        cases stage
        rcases unanswered.sweeping _ _ found rfl old with inside | ended
        · rcases row with stored | ended
          · rcases ends stored with ⟨-, other⟩ | ended
            · exact .inl ((List.mem_cons.mp inside).resolve_left other)
            · exact .inr ended
          · exact .inr (kept ended)
        · exact .inr (kept ended)
      · intro pass' found' stage
        cases found'
        cases stage
    next => exact unanswered
  | swept =>
    rw [Driver.step] at drives ⊢
    split at drives
    next boot sweep started found =>
      have unseen := unanswered.unseen _ found
      refine unanswered.advance drives rfl rfl unseen (fun left stage => nomatch stage) ?_
      intro _ _ old
      exact (unanswered.sweeping _ _ found rfl old).resolve_left List.not_mem_nil
    next => exact unanswered
  | takeTurn turnId submissionId passedOver candidates =>
    rw [Driver.step] at drives ⊢
    split at drives
    next sweep started found =>
      split at drives
      next missing =>
        exact unanswered
      next tables wrote =>
        refine unanswered.write drives ?_ ?_
        · intro turn _ inside
          show turn ∈ tables.turns
          rw [(takeTurn_frame wrote).2.2]
          exact List.mem_append_left _ inside
        · intro pass' found'
          cases found'
          exact ⟨_, found, rfl, rfl, rfl⟩
    next => exact unanswered
  | finish =>
    rw [Driver.step] at drives ⊢
    split at drives
    next => exact unanswered.write drives still (fun _ found => nomatch found)
    next => exact unanswered.write drives still (fun _ found => nomatch found)
    next => exact unanswered
  | raise =>
    rw [Driver.step] at drives ⊢
    split at drives
    next => exact unanswered.write drives still (fun _ found => nomatch found)
    next => exact unanswered
  | crash => exact unanswered.write drives still (fun _ found => nomatch found)
  | boot =>
    rw [Driver.step] at drives ⊢
    split at drives
    next down =>
      rw [if_pos down]
      exact unanswered.advance drives rfl rfl List.not_mem_nil (fun left stage => nomatch stage)
        (fun stage => nomatch stage)
    next up =>
      rw [if_neg up]
      exact unanswered

theorem unanswered_run {steps : List Step} {turn : TurnRow} (running : turn.endedAt = none) :
    ∀ {d : Driver}, Driven d → Unanswered turn d → Unanswered turn (d.run steps) := by
  induction steps with
  | nil => exact fun _ unanswered => unanswered
  | cons step rest ih =>
    exact fun driven unanswered => ih (driven.step step).driven (unanswered.step running driven step)

/-- A running task's turn is known by it alone. -/
theorem done_dead (driven : Driven d) {id : String} (inside : id ∈ d.running) :
    id ∉ (d.step (.done id)).alive := by
  intro still
  have apart := List.nodup_append.mp driven.once
  rcases List.mem_append.mp still with elsewhere | kept
  · exact apart.2.2 id elsewhere id inside rfl
  · exact of_decide_eq_true (List.mem_filter.mp kept).2 rfl

theorem raise_dead (driven : Driven d) {pass : Pass} (found : d.pass = some pass)
    (tick : pass.boot = false) {id : String} (inside : id ∈ pass.started) :
    id ∉ (d.step .raise).alive := by
  obtain ⟨queue, -⟩ := driven.ticking found
  obtain ⟨boot, sweep, stage, started⟩ := pass
  cases tick
  have once := driven.once
  rw [alive_of_ticking found queue] at once
  rw [Driver.step, found, queue]
  intro still
  exact (List.nodup_append.mp once).2.2 id inside id still rfl

/-- A row that a sweep's next end takes is of a turn that no task answers for. -/
theorem endNext_dead (driven : Driven d) (withdrawal : Option Withdrawal) {turn : TurnRow}
    (inside : turn ∈ d.tables.turns)
    (ended : turn ∉ (d.step (.endNext withdrawal)).tables.turns) : turn.turnId ∉ d.alive := by
  rw [Driver.step] at ended
  split at ended
  next boot sweep turnId left started found =>
    obtain ⟨queue, -, -, sound⟩ := driven.ticking found
    rcases row_step driven.safe (.interrupt turnId withdrawal d.clock) inside with stays |
      ⟨-, ⟨_, _, _, ends⟩ | ⟨_, _, ends, -⟩⟩
    · exact absurd stays ended
    · cases ends
    · cases ends
      rw [alive_of_ticking found queue, sound.untaken (.inl (nomatch ·)), List.nil_append]
      exact sound.unanswered _ rfl _ List.mem_cons_self
  next => exact absurd inside ended

theorem ended_run {steps : List Step} {turn : TurnRow} (ended : turn.endedAt ≠ none) :
    ∀ {d : Driver}, Driven d → turn ∈ d.tables.turns → turn ∈ (d.run steps).tables.turns := by
  have kept : ∀ {t : FlowTables} (write : Write), LineInvariant t → turn ∈ t.turns →
      turn ∈ (t.step write).turns := by
    intro t write safe inside
    exact (row_step safe write inside).resolve_right fun running => ended running.1
  have keeps : ∀ {d : Driver} (step : Step), Driven d → turn ∈ d.tables.turns →
      turn ∈ (d.step step).tables.turns := by
    intro d step driven inside
    cases step with
    | write write =>
      rw [Driver.step]
      split
      next => exact kept write driven.safe inside
      next => exact inside
    | answer turnId outcome closure =>
      rw [Driver.step]
      split
      next => exact kept _ driven.safe inside
      next => exact inside
    | endNext withdrawal =>
      rw [Driver.step]
      split
      next => exact kept _ driven.safe inside
      next => exact inside
    | takeTurn turnId submissionId passedOver candidates =>
      rw [Driver.step]
      split
      next =>
        split
        next => exact inside
        next tables wrote =>
          show turn ∈ tables.turns
          rw [(takeTurn_frame wrote).2.2]
          exact List.mem_append_left _ inside
      next => exact inside
    | loop =>
      rw [Driver.step]
      split
      next => exact inside
      next job rest _ => cases job <;> exact inside
    | pass | done | crash => exact inside
    | wake | readClock | readTurns | swept | finish | raise | boot =>
      rw [Driver.step]
      split <;> exact inside
  induction steps with
  | nil => exact fun _ inside => inside
  | cons step rest ih =>
    intro d driven inside
    exact ih (driven.step step).driven (keeps step driven inside)

end Blizzard.FlowUnanswered
