import Blizzard.FlowReconcile
import Blizzard.FlowExclusion

/-! # What a reconcile keeps

Every state of a driver's reconciles: the tables stay safe, the floor stays under every open
submission, and a pass in progress accounts for each of them. -/
namespace Blizzard.FlowConvergence
open HubTables StatusLadder WorkflowGraph FlowLines FlowSafety FlowExclusion FlowReconcile

variable {t t' : FlowTables} {line : Line} {graphs : List Graph}

/-! ## Tables that only settle -/

/-- Submissions stay as they are, and closed ones and ended turns stay so. -/
structure Settles (t t' : FlowTables) : Prop where
  submissions : t'.submissions = t.submissions
  isOpen : ∀ {id}, t'.isOpen id → t.isOpen id
  hasOpenTurn : ∀ {id}, t'.hasOpenTurn id → t.hasOpenTurn id

theorem Settles.refl (t : FlowTables) : Settles t t := ⟨rfl, id, id⟩

theorem isOpen_of_closures (grown : t.closures <+: t'.closures) {id : String}
    (open_ : t'.isOpen id) : t.isOpen id := by
  apply isOpen_iff.mpr
  intro closed
  obtain ⟨more, same⟩ := grown
  apply isOpen_iff.mp open_
  rw [← same, List.map_append]
  exact List.mem_append_left _ closed

theorem hasOpenTurn_iff {id : String} : t.hasOpenTurn id ↔
    ∃ turn ∈ t.turns, turn.endedAt = none ∧ turn.submissionId = id := by
  rw [FlowTables.hasOpenTurn, List.any_eq_true]
  constructor
  · rintro ⟨turn, inside, holds⟩
    obtain ⟨same, running⟩ := of_decide_eq_true holds
    exact ⟨turn, inside, running, same⟩
  · rintro ⟨turn, inside, running, same⟩
    exact ⟨turn, inside, decide_eq_true ⟨same, running⟩⟩

theorem closeSubmission_settles {id outcome : String} {at_ : Instant}
    (wrote : t.closeSubmission id outcome at_ = some t') : Settles t t' := by
  obtain ⟨submissions, closures, turns⟩ := closeSubmission_frame wrote
  refine ⟨submissions, isOpen_of_closures closures, ?_⟩
  intro id running
  rw [FlowTables.hasOpenTurn, turns] at running
  exact running

theorem close_settles (id : String) (outcome : Withdrawal) (at_ : Instant) :
    Settles t ((t.close id outcome at_).getD t) := by
  cases wrote : t.close id outcome at_ with
  | none => exact Settles.refl t
  | some t' =>
    rw [FlowTables.close] at wrote
    split at wrote
    next => cases wrote
    next => exact closeSubmission_settles wrote

/-- A stored submission with no open turn is closed once `close` returns. -/
theorem close_closes {s : SubmissionRow} (stored : s ∈ t.submissions)
    (idle : ¬t.hasOpenTurn s.submissionId) (outcome : Withdrawal) (at_ : Instant) :
    ¬((t.close s.submissionId outcome at_).getD t).isOpen s.submissionId := by
  rw [FlowTables.close, if_neg idle]
  cases wrote : t.closeSubmission s.submissionId outcome.outcome at_ with
  | none =>
    intro open_
    replace open_ : t.isOpen s.submissionId := open_
    rw [FlowTables.closeSubmission, Option.bind_eq_bind] at wrote
    cases own : t.submission? s.submissionId with
    | none => exact List.find?_eq_none.mp own s stored (decide_eq_true rfl)
    | some row =>
      rw [own, Option.bind_some, if_pos open_] at wrote
      cases wrote
  | some closed =>
    obtain ⟨submission, -, -, -, rfl⟩ := closeSubmission_spec wrote
    intro open_
    apply isOpen_iff.mp open_
    exact List.mem_map_of_mem (List.mem_append_right _ (List.mem_singleton_self _))

theorem endTurnLocked_settles {turnId outcome : String} {closure : Option String} {at_ : Instant}
    (wrote : t.endTurnLocked turnId outcome closure at_ = some t') : Settles t t' := by
  rw [FlowTables.endTurnLocked, Option.bind_eq_bind, Option.bind_eq_some_iff] at wrote
  obtain ⟨⟨mid, id⟩, first, wrote⟩ := wrote
  have ending : Settles t mid := by
    obtain ⟨turn, -, -, -, -, submission, rfl⟩ := endTurn_spec first
    refine ⟨rfl, fun open_ => open_, ?_⟩
    intro id running
    obtain ⟨other, inside, still, same⟩ := hasOpenTurn_iff.mp running
    exact hasOpenTurn_iff.mpr ⟨other, (open_of_endedAs inside still).1, still, same⟩
  cases closure with
  | none =>
    cases wrote
    exact ending
  | some closure =>
    cases wrote
    cases closing : mid.closeSubmission id closure at_ with
    | none => exact ending
    | some closed =>
      have after := closeSubmission_settles closing
      exact ⟨after.submissions.trans ending.submissions, fun open_ => ending.isOpen (after.isOpen open_),
        fun running => ending.hasOpenTurn (after.hasOpenTurn running)⟩

theorem withdrawWaiting_settles (chunkId : ChunkId) (outcome : Withdrawal) (at_ : Instant) :
    Settles t (t.withdrawWaiting chunkId outcome at_) := by
  obtain ⟨submissions, closures, turns⟩ := @withdraw_frame outcome.outcome at_
    ((t.submissions.filter fun s => s.chunkId = chunkId ∧ t.isOpen s.submissionId ∧
      ¬t.hasOpenTurn s.submissionId).insertionSort fun a b => a.arrival ≤ b.arrival) t
  refine ⟨submissions, isOpen_of_closures closures, ?_⟩
  intro id running
  rw [FlowTables.hasOpenTurn, FlowTables.withdrawWaiting, turns] at running
  exact running

/-! ## The pass accounts for every open submission -/

def Stage.accounts (t : FlowTables) (pass : Pass) : Stage → Prop
  | .turned _ turning => ∀ id, t.hasOpenTurn id → id ∈ turning
  | .closing _ turning left stillOpen => (∀ id, t.hasOpenTurn id → id ∈ turning) ∧
    left ++ stillOpen ⊆ pass.openSubs ∧
    ∀ s ∈ t.submissions, t.isOpen s.submissionId →
      s ∈ left ∨ s ∈ stillOpen ∨ s ∈ pass.submitted
  | _ => True

structure PassSound (t : FlowTables) (pass : Pass) : Prop where
  read : pass.openSubs ⊆ t.submissions
  submitted : pass.submitted ⊆ t.submissions
  covered : ∀ s ∈ t.submissions, t.isOpen s.submissionId → s ∈ pass.openSubs ∨ s ∈ pass.submitted
  accounts : Stage.accounts t pass pass.stage

structure Floored (line : Line) : Prop where
  safe : LineInvariant line.tables
  above : ∀ s ∈ line.tables.submissions, line.tables.isOpen s.submissionId → line.floor ≤ s.arrival
  below : ∀ n, (∀ s ∈ line.tables.submissions, s.arrival < n) → line.floor ≤ n
  pass : ∀ pass, line.pass = some pass → PassSound line.tables pass

theorem PassSound.settles {pass : Pass} (sound : PassSound t pass) (settles : Settles t t') :
    PassSound t' pass := by
  obtain ⟨read, submitted, covered, accounts⟩ := sound
  rw [← settles.submissions] at read submitted
  refine ⟨read, submitted, ?_, ?_⟩
  · intro s inside open_
    exact covered s (settles.submissions ▸ inside) (settles.isOpen open_)
  · cases stage : pass.stage with
    | turned facts turning =>
      rw [stage] at accounts
      exact fun id running => accounts id (settles.hasOpenTurn running)
    | closing facts turning left stillOpen =>
      rw [stage] at accounts
      obtain ⟨turns, inside, all⟩ := accounts
      refine ⟨fun id running => turns id (settles.hasOpenTurn running), inside, ?_⟩
      intro s stored open_
      exact all s (settles.submissions ▸ stored) (settles.isOpen open_)
    | opened => exact trivial
    | listed => exact trivial
    | loaded => exact trivial
    | submitting => exact trivial
    | deciding => exact trivial

/-- Nothing but the tables and the pass' notes of what it met changed, and the tables settled. -/
theorem Floored.settles (floored : Floored line) {after : Line}
    (safe : LineInvariant after.tables) (settles : Settles line.tables after.tables)
    (floor : after.floor = line.floor)
    (pass : ∀ pass', after.pass = some pass' → ∃ pass, line.pass = some pass ∧
      pass'.openSubs = pass.openSubs ∧ pass'.submitted = pass.submitted ∧
      pass'.stage = pass.stage) : Floored after := by
  refine ⟨safe, ?_, ?_, ?_⟩
  · intro s inside open_
    rw [floor]
    exact floored.above s (settles.submissions ▸ inside) (settles.isOpen open_)
  · intro n newest
    rw [floor]
    apply floored.below
    rw [← settles.submissions]
    exact newest
  · intro pass' found
    obtain ⟨before, found, openSubs, submitted, stage⟩ := pass pass' found
    obtain ⟨read, took, covered, accounts⟩ := (floored.pass before found).settles settles
    refine ⟨openSubs ▸ read, submitted ▸ took, openSubs ▸ submitted ▸ covered, ?_⟩
    rw [stage]
    cases at_ : before.stage with
    | closing facts turning left stillOpen =>
      rw [at_] at accounts
      rw [Stage.accounts, openSubs, submitted]
      exact accounts
    | turned facts turning =>
      rw [at_] at accounts
      exact accounts
    | opened => exact trivial
    | listed => exact trivial
    | loaded => exact trivial
    | submitting => exact trivial
    | deciding => exact trivial

/-! ## What a step can do -/

/-- The line after a step that applied. -/
inductive Changes (graphs : List Graph) (line : Line) : Line → Prop
  | move (chunkId : ChunkId) (row : Option (String × ChunkFacts)) :
      Changes graphs line ((line.setChunk chunkId row).noteMove line chunkId false)
  | lever (chunkId : ChunkId) (graphId : String) (facts : ChunkFacts) (outcome : Withdrawal)
      (at_ : Instant) :
      Changes graphs line (Line.noteMove
        { line.setChunk chunkId (some (graphId, facts)) with
          tables := line.tables.withdrawWaiting chunkId outcome at_ } line chunkId true)
  | endTurn {turnId outcome : String} {named : Option String} {at_ : Instant} {id : String}
      {closure : Option String} {tables : FlowTables}
      (closes : line.turnClosure turnId named = some (id, closure))
      (wrote : line.tables.endTurnLocked turnId outcome closure at_ = some tables) :
      Changes graphs line { line with
        tables
        pass := line.pass.map fun pass => { pass with
          overtaken := pass.overtaken ++ if closure = some turnSuperseded then [id] else [] } }
  | takeTurn {turnId id : String} {passedOver : List String} {candidates : List LandingTerms}
      {at_ : Instant} {tables : FlowTables} (idle : line.pass = none)
      (wrote : line.tables.takeTurn turnId id passedOver candidates at_ = some tables) :
      Changes graphs line { line with tables }
  | boot : Changes graphs line { line with floor := 0, pass := none }
  | abort : Changes graphs line { line with pass := none }
  | begin_ (idle : line.pass = none) :
      Changes graphs line { line with
        pass := some { openSubs := line.openSubmissionsFrom line.floor } }
  | listLive {pass : Pass} (found : line.pass = some pass) (stage : pass.stage = .opened) :
      Changes graphs line (line.atStage pass (.listed line.deliveringChunks))
  | loadFacts {pass : Pass} {live : List ChunkId} (found : line.pass = some pass)
      (stage : pass.stage = .listed live) :
      Changes graphs line (line.atStage pass (.loaded (line.loadFactsFor live)))
  | readStanding {pass : Pass} {facts : FactsById} (found : line.pass = some pass)
      (stage : pass.stage = .loaded facts) :
      Changes graphs line (line.atStage pass (.submitting facts
        ((line.standing graphs facts).filter fun s => !inLine pass.openSubs s)))
  | skip {pass : Pass} {facts : FactsById} {standing : Standing} {visits : List Standing}
      (found : line.pass = some pass) (stage : pass.stage = .submitting facts (standing :: visits))
      (taken : line.tables.generation standing.chunkId standing.node.nodeId standing.epoch = none) :
      Changes graphs line (line.atStage pass (.submitting facts visits))
  | probe {pass : Pass} {facts : FactsById} {standing : Standing} {visits : List Standing}
      (found : line.pass = some pass)
      (stage : pass.stage = .submitting facts (standing :: visits)) :
      Changes graphs line (line.atStage pass (.deciding facts standing visits))
  | escalate {pass : Pass} {facts : FactsById} {standing : Standing} {visits : List Standing}
      (cause detail : String) (at_ : Instant) (found : line.pass = some pass)
      (stage : pass.stage = .deciding facts standing visits) (none_ : standing.node.action = none) :
      Changes graphs line ((line.escalateActionless standing
        ((factsOf facts standing.chunkId).getD {}) cause detail at_).atStage pass
          (.submitting facts visits))
  | raise {pass : Pass} {facts : FactsById} {standing : Standing} {visits : List Standing}
      (found : line.pass = some pass) (stage : pass.stage = .deciding facts standing visits) :
      Changes graphs line (line.atStage { pass with raised := true } (.submitting facts visits))
  | refuse {pass : Pass} {facts : FactsById} {standing : Standing} {visits : List Standing}
      (row : Option (String × ChunkFacts)) (found : line.pass = some pass)
      (stage : pass.stage = .deciding facts standing visits) :
      Changes graphs line ((line.setChunk standing.chunkId row).atStage
        { pass with refused := pass.refused ++ [standing.chunkId] } (.submitting facts visits))
  | submit {pass : Pass} {facts : FactsById} {standing : Standing} {visits : List Standing}
      (id : String) (mint : String → String) (resources : List FlowResource) (at_ : Instant)
      (found : line.pass = some pass) (stage : pass.stage = .deciding facts standing visits) :
      Changes graphs line ((line.submit pass standing id mint resources at_).1.atStage
        (line.submit pass standing id mint resources at_).2 (.submitting facts visits))
  | readTurns {pass : Pass} {facts : FactsById} (found : line.pass = some pass)
      (stage : pass.stage = .submitting facts []) :
      Changes graphs line (line.atStage pass (.turned facts
        ((line.tables.turns.filter (·.endedAt = none)).map (·.submissionId))))
  | loadOutside {pass : Pass} {facts : FactsById} {turning : List String}
      (found : line.pass = some pass) (stage : pass.stage = .turned facts turning) :
      Changes graphs line (line.atStage pass (.closing (facts ++ line.loadFactsFor
        ((pass.openSubs.map (·.chunkId)).dedup.filter (factsOf facts · = none))) turning
          pass.openSubs []))
  | keep {pass : Pass} {facts : FactsById} {turning : List String} {s : SubmissionRow}
      {left stillOpen : List SubmissionRow} (found : line.pass = some pass)
      (stage : pass.stage = .closing facts turning (s :: left) stillOpen)
      (stays : withdrawalFor ((factsOf facts s.chunkId).getD {}) s = none ∨
        s.submissionId ∈ turning) :
      Changes graphs line (line.atStage pass (.closing facts turning left (stillOpen ++ [s])))
  | close {pass : Pass} {facts : FactsById} {turning : List String} {s : SubmissionRow}
      {left stillOpen : List SubmissionRow} {outcome : Withdrawal} (at_ : Instant)
      (found : line.pass = some pass)
      (stage : pass.stage = .closing facts turning (s :: left) stillOpen)
      (leaves : withdrawalFor ((factsOf facts s.chunkId).getD {}) s = some outcome)
      (idle : s.submissionId ∉ turning) :
      Changes graphs line (Line.atStage
        { line with tables := (line.tables.close s.submissionId outcome at_).getD line.tables } pass
        (.closing facts turning left stillOpen))
  | finish {pass : Pass} {facts : FactsById} {turning : List String}
      {stillOpen : List SubmissionRow} (found : line.pass = some pass)
      (stage : pass.stage = .closing facts turning [] stillOpen) :
      Changes graphs line { line with
        floor := nextFloor line.floor pass.openSubs (stillOpen ++ pass.submitted)
        pass := none }

theorem advance_changes {pass : Pass} (found : line.pass = some pass) (step : PassStep) :
    line.advance graphs pass step = line ∨ Changes graphs line (line.advance graphs pass step) := by
  cases step with
  | listLive =>
    rw [Line.advance]
    split
    next stage => exact .inr (.listLive found stage)
    next => exact .inl rfl
  | loadFacts =>
    rw [Line.advance]
    split
    next live stage => exact .inr (.loadFacts found stage)
    next => exact .inl rfl
  | readStanding =>
    rw [Line.advance]
    split
    next facts stage => exact .inr (.readStanding found stage)
    next => exact .inl rfl
  | probe =>
    rw [Line.advance]
    split
    next facts standing visits stage =>
      split
      next => exact .inr (.probe found stage)
      next taken =>
        rw [not_or, Option.not_isSome_iff_eq_none] at taken
        exact .inr (.skip found stage taken.2)
    next => exact .inl rfl
  | escalate cause detail at_ =>
    rw [Line.advance]
    split
    next facts standing visits stage =>
      split
      next none_ => exact .inr (.escalate cause detail at_ found stage none_)
      next => exact .inl rfl
    next => exact .inl rfl
  | decide resolved at_ =>
    rw [Line.advance]
    split
    next facts standing visits stage =>
      cases resolved with
      | raises => exact .inr (.raise found stage)
      | refusal row =>
        dsimp only
        split
        next => exact .inl rfl
        next => exact .inr (.refuse row found stage)
      | holds id mint resources =>
        dsimp only
        split
        next => exact .inl rfl
        next => exact .inr (.submit id mint resources at_ found stage)
    next => exact .inl rfl
  | readTurns =>
    rw [Line.advance]
    split
    next facts stage => exact .inr (.readTurns found stage)
    next => exact .inl rfl
  | loadOutside =>
    rw [Line.advance]
    split
    next facts turning stage => exact .inr (.loadOutside found stage)
    next => exact .inl rfl
  | close at_ =>
    rw [Line.advance]
    split
    next facts turning s left stillOpen stage =>
      split
      next stays => exact .inr (.keep found stage (.inl stays))
      next outcome leaves =>
        split
        next running => exact .inr (.keep found stage (.inr running))
        next idle => exact .inr (.close at_ found stage leaves idle)
    next => exact .inl rfl
  | finish =>
    rw [Line.advance]
    split
    next facts turning stillOpen stage => exact .inr (.finish found stage)
    next => exact .inl rfl

theorem step_changes (step : Step) :
    line.step graphs step = line ∨ Changes graphs line (line.step graphs step) := by
  cases step with
  | move chunkId row => exact .inr (.move chunkId row)
  | lever chunkId graphId facts outcome at_ => exact .inr (.lever chunkId graphId facts outcome at_)
  | endTurn turnId outcome named at_ =>
    rw [Line.step]
    split
    next => exact .inl rfl
    next id closure closes =>
      split
      next => exact .inl rfl
      next tables wrote => exact .inr (.endTurn closes wrote)
  | takeTurn turnId id passedOver candidates at_ =>
    rw [Line.step]
    split
    next => exact .inl rfl
    next idle =>
      cases wrote : line.tables.takeTurn turnId id passedOver candidates at_ with
      | none => exact .inl rfl
      | some tables => exact .inr (.takeTurn idle wrote)
  | boot => exact .inr .boot
  | abort => exact .inr .abort
  | begin_ =>
    rw [Line.step]
    split
    next => exact .inl rfl
    next idle => exact .inr (.begin_ idle)
  | advance step =>
    rw [Line.step]
    split
    next => exact .inl rfl
    next pass found => exact advance_changes found step

/-! ## The floor -/

theorem mem_openSubmissionsFrom {floor : ℕ} {s : SubmissionRow} :
    s ∈ line.openSubmissionsFrom floor ↔
      s ∈ line.tables.submissions ∧ floor ≤ s.arrival ∧ line.tables.isOpen s.submissionId := by
  rw [Line.openSubmissionsFrom, List.mem_insertionSort, List.mem_filter, decide_eq_true_iff]

/-- A pass' step that writes nothing in the tables. -/
theorem Floored.stage (floored : Floored line) {pass pass' : Pass} {after : Line}
    (found : line.pass = some pass) (tables : after.tables = line.tables)
    (floor : after.floor = line.floor) (next : after.pass = some pass')
    (openSubs : pass'.openSubs = pass.openSubs) (submitted : pass'.submitted = pass.submitted)
    (accounts : Stage.accounts line.tables pass' pass'.stage) : Floored after := by
  obtain ⟨safe, above, below, sound⟩ := floored
  obtain ⟨read, took, covered, -⟩ := sound pass found
  rw [← tables] at safe above below read took covered accounts
  rw [← floor] at above below
  refine ⟨safe, above, below, ?_⟩
  intro pass'' same
  rw [next] at same
  cases same
  exact ⟨openSubs ▸ read, submitted ▸ took, openSubs ▸ submitted ▸ covered, accounts⟩

theorem escalateActionless_tables (standing : Standing) (loaded : ChunkFacts)
    (cause detail : String) (at_ : Instant) :
    (line.escalateActionless standing loaded cause detail at_).tables = line.tables ∧
      (line.escalateActionless standing loaded cause detail at_).floor = line.floor := by
  rw [Line.escalateActionless]
  split
  next =>
    split
    next => exact ⟨rfl, rfl⟩
    next =>
      dsimp only
      split <;> exact ⟨rfl, rfl⟩
  next => exact ⟨rfl, rfl⟩

/-- What a visit's unit writes: nothing, or one submission, which the pass then counts. -/
theorem submit_cases (pass : Pass) (standing : Standing) (id : String) (mint : String → String)
    (resources : List FlowResource) (at_ : Instant) (safe : LineInvariant line.tables) :
    (line.submit pass standing id mint resources at_).1 = line ∧
      ((line.submit pass standing id mint resources at_).2 = pass ∧
        (standing.holds (line.chunk? standing.chunkId) = false ∨ line.tables.generation
          standing.chunkId standing.node.nodeId standing.epoch = none) ∨
        (line.submit pass standing id mint resources at_).2 = { pass with raised := true }) ∨
    ∃ tables s, (line.submit pass standing id mint resources at_).1 = { line with tables } ∧
      (line.submit pass standing id mint resources at_).2 =
        { pass with submitted := pass.submitted ++ [s] } ∧
      standing.holds (line.chunk? standing.chunkId) = true ∧ LineInvariant tables ∧
      tables.submissions = line.tables.submissions ++ [s] ∧
      tables.closures = line.tables.closures ∧ tables.turns = line.tables.turns ∧
      s.submissionId ∉ line.tables.submissions.map (·.submissionId) ∧
      s.chunkId = standing.chunkId ∧ s.nodeId = standing.node.nodeId ∧
      s.epoch = standing.epoch ∧ ∀ r ∈ line.tables.submissions, r.arrival < s.arrival := by
  rw [Line.submit]
  split
  next holds =>
    split
    next taken => exact .inl ⟨rfl, .inl ⟨rfl, .inr taken⟩⟩
    next generation read =>
      split
      next => exact .inl ⟨rfl, .inr rfl⟩
      next tables wrote =>
        have visit : line.tables.submitVisit id mint standing.chunkId standing.node.nodeId
            standing.epoch resources at_ = some tables := by
          rw [FlowTables.submitVisit, Option.bind_eq_bind, Option.bind_eq_some_iff]
          exact ⟨generation, read, wrote⟩
        have kept := submitVisit_keeps safe visit
        obtain ⟨generation', arrival, flows, made, -, fresh, newest, -, -, -, rfl⟩ :=
          submitVisit_spec safe.keyed.flowIds visit
        refine .inr ⟨_, ⟨id, standing.chunkId, standing.node.nodeId, standing.epoch, generation',
          arrival, at_⟩, rfl, ?_, holds, kept, rfl, rfl, rfl, fresh, rfl, rfl, rfl, newest⟩
        have none_ : line.tables.submissions.find? (·.submissionId = id) = none := by
          apply List.find?_eq_none.mpr
          intro r inside same
          exact fresh (List.mem_map.mpr ⟨r, inside, of_decide_eq_true same⟩)
        have own : (line.tables.submissions ++ [(⟨id, standing.chunkId, standing.node.nodeId,
            standing.epoch, generation', arrival, at_⟩ : SubmissionRow)]).find?
              (·.submissionId = id) = some ⟨id, standing.chunkId, standing.node.nodeId,
            standing.epoch, generation', arrival, at_⟩ := by
          rw [List.find?_append, none_, Option.none_or]
          exact List.find?_cons_of_pos (decide_eq_true rfl)
        dsimp only
        congr 2
        show ((line.tables.submissions ++ _).find? (·.submissionId = id)).toList = _
        rw [own]
        rfl
  next gone => exact .inl ⟨rfl, .inl ⟨rfl, .inl (Bool.eq_false_iff.mpr gone)⟩⟩

theorem nextFloor_le_open (floor : ℕ) (openSubs : List SubmissionRow)
    {leftOpen : List SubmissionRow} {s : SubmissionRow} (inside : s ∈ leftOpen) :
    nextFloor floor openSubs leftOpen ≤ s.arrival := by
  have listed := List.mem_map_of_mem (f := fun s => s.arrival) inside
  rw [nextFloor]
  cases lowest : (leftOpen.map (·.arrival)).min? with
  | none =>
    rw [List.min?_eq_none_iff] at lowest
    rw [lowest] at listed
    cases listed
  | some low => exact (List.min?_eq_some_iff.mp lowest).2 _ listed

theorem nextFloor_le_newest {floor n : ℕ} {openSubs leftOpen : List SubmissionRow}
    (low : floor ≤ n) (reads : ∀ s ∈ openSubs, s.arrival < n)
    (leaves : ∀ s ∈ leftOpen, s.arrival < n) : nextFloor floor openSubs leftOpen ≤ n := by
  rw [nextFloor]
  cases lowest : (leftOpen.map (·.arrival)).min? with
  | some lowest' =>
    obtain ⟨s, inside, rfl⟩ := List.mem_map.mp (List.min?_eq_some_iff.mp lowest).1
    exact (leaves s inside).le
  | none =>
    cases highest : (openSubs.map (·.arrival + 1)).max? with
    | none => exact low
    | some highest' =>
      obtain ⟨s, inside, rfl⟩ := List.mem_map.mp (List.max?_eq_some_iff.mp highest).1
      exact reads s inside

theorem Floored.changes (floored : Floored line) {after : Line}
    (changes : Changes graphs line after) : Floored after := by
  have noted : ∀ {after : Line} {before : Line} {id : ChunkId} {lever : Bool},
      ∀ pass', (after.noteMove before id lever).pass = some pass' → ∃ pass, after.pass = some pass ∧
        pass'.openSubs = pass.openSubs ∧ pass'.submitted = pass.submitted ∧
        pass'.stage = pass.stage := by
    intro after before id lever pass' found
    obtain ⟨pass, same, rfl⟩ := Option.map_eq_some_iff.mp found
    exact ⟨pass, same, rfl, rfl, rfl⟩
  cases changes with
  | move chunkId row => exact floored.settles floored.safe (Settles.refl _) rfl noted
  | lever chunkId graphId facts outcome at_ =>
    exact floored.settles (withdrawWaiting_keeps floored.safe chunkId outcome at_)
      (withdrawWaiting_settles chunkId outcome at_) rfl noted
  | endTurn closes wrote =>
    refine floored.settles (endTurnLocked_keeps floored.safe wrote) (endTurnLocked_settles wrote)
      rfl ?_
    intro pass' found
    obtain ⟨pass, same, rfl⟩ := Option.map_eq_some_iff.mp found
    exact ⟨pass, same, rfl, rfl, rfl⟩
  | takeTurn idle wrote =>
    obtain ⟨submissions, closures, -⟩ := takeTurn_frame wrote
    refine ⟨takeTurn_keeps floored.safe wrote, ?_, ?_, fun pass found => ?_⟩
    · intro s inside open_
      apply floored.above s (submissions ▸ inside)
      rw [FlowTables.isOpen, closures] at open_
      exact open_
    · intro n newest
      exact floored.below n (submissions ▸ newest)
    · rw [idle] at found
      cases found
  | boot =>
    refine ⟨floored.safe, fun s _ _ => Nat.zero_le _, fun n _ => Nat.zero_le _, ?_⟩
    intro pass found
    cases found
  | abort =>
    refine ⟨floored.safe, floored.above, floored.below, ?_⟩
    intro pass found
    cases found
  | begin_ idle =>
    refine ⟨floored.safe, floored.above, floored.below, ?_⟩
    intro pass found
    cases found
    refine ⟨?_, List.nil_subset _, ?_, trivial⟩
    · intro s inside
      exact (mem_openSubmissionsFrom.mp inside).1
    · intro s inside open_
      exact .inl (mem_openSubmissionsFrom.mpr ⟨inside, floored.above s inside open_, open_⟩)
  | listLive found _ => exact floored.stage found rfl rfl rfl rfl rfl trivial
  | loadFacts found _ => exact floored.stage found rfl rfl rfl rfl rfl trivial
  | readStanding found _ => exact floored.stage found rfl rfl rfl rfl rfl trivial
  | skip found _ _ => exact floored.stage found rfl rfl rfl rfl rfl trivial
  | probe found _ => exact floored.stage found rfl rfl rfl rfl rfl trivial
  | escalate cause detail at_ found _ _ =>
    obtain ⟨tables, floor⟩ := @escalateActionless_tables line _ _ cause detail at_
    exact floored.stage found tables floor rfl rfl rfl trivial
  | raise found _ => exact floored.stage found rfl rfl rfl rfl rfl trivial
  | refuse row found _ => exact floored.stage found rfl rfl rfl rfl rfl trivial
  | submit id mint resources at_ found stage =>
    rename_i pass facts standing visits
    rcases submit_cases pass standing id mint resources at_ floored.safe with
      ⟨same, unwritten⟩ | ⟨tables, s, same, counted, -, kept, grown, closures, -, -, -, -, -, newest⟩
    · rw [same]
      rcases unwritten with ⟨same, -⟩ | same
      · rw [same]
        exact floored.stage found rfl rfl rfl rfl rfl trivial
      · rw [same]
        exact floored.stage found rfl rfl rfl rfl rfl trivial
    · rw [same, counted]
      obtain ⟨read, took, covered, -⟩ := floored.pass _ found
      have stored : ∀ r ∈ tables.submissions, r ∈ line.tables.submissions ∨ r = s := by
        intro r inside
        rw [grown] at inside
        exact (List.mem_append.mp inside).imp_right List.mem_singleton.mp
      have open_ : ∀ {r}, tables.isOpen r → line.tables.isOpen r := by
        intro r open_
        rw [FlowTables.isOpen, closures] at open_
        exact open_
      refine ⟨kept, ?_, ?_, ?_⟩
      · intro r inside still
        rcases stored r inside with before | rfl
        · exact floored.above r before (open_ still)
        · exact floored.below _ newest
      · intro n above
        apply floored.below
        intro r inside
        exact above r (grown ▸ List.mem_append_left _ inside)
      · intro pass' next
        cases next
        refine ⟨?_, ?_, ?_, trivial⟩
        · intro r inside
          exact grown ▸ List.mem_append_left _ (read inside)
        · intro r inside
          show r ∈ tables.submissions
          rw [grown]
          rcases List.mem_append.mp inside with before | new
          · exact List.mem_append_left _ (took before)
          · exact List.mem_append_right _ new
        · intro r inside still
          rcases stored r inside with before | rfl
          · exact (covered r before (open_ still)).imp_right (List.mem_append_left _)
          · exact .inr (List.mem_append_right _ (List.mem_singleton_self _))
  | readTurns found _ =>
    refine floored.stage found rfl rfl rfl rfl rfl ?_
    intro id running
    obtain ⟨turn, inside, still, rfl⟩ := hasOpenTurn_iff.mp running
    exact List.mem_map_of_mem (List.mem_filter.mpr ⟨inside, decide_eq_true still⟩)
  | loadOutside found stage =>
    obtain ⟨-, -, covered, accounts⟩ := floored.pass _ found
    rw [stage] at accounts
    refine floored.stage found rfl rfl rfl rfl rfl ?_
    refine ⟨accounts, ?_, ?_⟩
    · rw [List.append_nil]
      exact List.Subset.refl _
    · intro s inside open_
      exact (covered s inside open_).imp_right .inr
  | keep found stage _ =>
    obtain ⟨-, -, -, accounts⟩ := floored.pass _ found
    rw [stage] at accounts
    obtain ⟨turns, inside, all⟩ := accounts
    refine floored.stage found rfl rfl rfl rfl rfl ?_
    refine ⟨turns, ?_, ?_⟩
    · intro r listed
      apply inside
      grind
    · intro r stored open_
      rcases all r stored open_ with head | still | submitted
      · rcases List.mem_cons.mp head with rfl | rest
        · exact .inr (.inl (List.mem_append_right _ (List.mem_singleton_self _)))
        · exact .inl rest
      · exact .inr (.inl (List.mem_append_left _ still))
      · exact .inr (.inr submitted)
  | close at_ found stage leaves idle =>
    rename_i pass facts turning s left stillOpen outcome
    obtain ⟨read, took, covered, accounts⟩ := floored.pass _ found
    have settles := close_settles (t := line.tables) s.submissionId outcome at_
    have kept : LineInvariant ((line.tables.close s.submissionId outcome at_).getD line.tables) :=
      getD_keeps floored.safe fun _ wrote => close_keeps floored.safe wrote
    have sound := (floored.pass _ found).settles settles
    rw [stage] at accounts
    obtain ⟨turns, inside, all⟩ := accounts
    have closed : ¬((line.tables.close s.submissionId outcome at_).getD line.tables).isOpen
        s.submissionId :=
      close_closes (read (inside List.mem_cons_self)) (mt (turns s.submissionId) idle) outcome at_
    refine ⟨kept, ?_, ?_, ?_⟩
    · intro r stored open_
      exact floored.above r (settles.submissions ▸ stored) (settles.isOpen open_)
    · intro n newest
      exact floored.below n (settles.submissions ▸ newest)
    · intro pass' next
      cases next
      refine ⟨sound.read, sound.submitted, sound.covered, ?_, ?_, ?_⟩
      · exact fun id running => turns id (settles.hasOpenTurn running)
      · intro r listed
        exact inside (List.mem_cons_of_mem _ listed)
      · intro r stored open_
        rcases all r (settles.submissions ▸ stored) (settles.isOpen open_) with head | others
        · rcases List.mem_cons.mp head with rfl | rest
          · exact absurd open_ closed
          · exact .inl rest
        · exact .inr others
  | finish found stage =>
    rename_i pass facts turning stillOpen
    obtain ⟨read, took, covered, accounts⟩ := floored.pass _ found
    rw [stage] at accounts
    obtain ⟨-, inside, all⟩ := accounts
    refine ⟨floored.safe, ?_, ?_, ?_⟩
    · intro s stored open_
      apply nextFloor_le_open
      rcases all s stored open_ with none_ | still | submitted
      · cases none_
      · exact List.mem_append_left _ still
      · exact List.mem_append_right _ submitted
    · intro n newest
      apply nextFloor_le_newest (floored.below n newest)
      · exact fun s listed => newest s (read listed)
      · intro s listed
        rcases List.mem_append.mp listed with still | submitted
        · exact newest s (read (inside still))
        · exact newest s (took submitted)
    · intro pass' next
      cases next

end Blizzard.FlowConvergence
