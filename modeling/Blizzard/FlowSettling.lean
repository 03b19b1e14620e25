import Blizzard.FlowConvergence
import Mathlib.Data.List.Dedup

/-! # A reconcile that no chunk moves under

While the pass runs and no chunk moves, what it read of a chunk stays what the chunk is, so every
visit it meets is submitted, refused or settled, and every submission it leaves keeps its place. -/
namespace Blizzard.FlowSettling
open HubTables StatusLadder WorkflowGraph FlowLines FlowSafety FlowExclusion FlowReconcile
open FlowConvergence

variable {t t' : FlowTables} {line after : Line} {graphs : List Graph} {pass pass' : Pass}
  {facts facts' : ChunkFacts} {id : ChunkId}

/-! ## Places -/

theorem status_of_place (same : placeOf facts = placeOf facts') : facts.status = facts'.status :=
  congrArg Place.status same

theorem movement_of_place (same : placeOf facts = placeOf facts') :
    facts.latestMovement none = facts'.latestMovement none := congrArg Place.movement same

theorem epoch_of_place (same : placeOf facts = placeOf facts') :
    facts.latestEpoch.getD 0 = facts'.latestEpoch.getD 0 := congrArg Place.epoch same

theorem visitIsCurrent_of_place (same : placeOf facts = placeOf facts') (nodeId : String)
    (epoch : ℤ) : visitIsCurrent facts nodeId epoch = visitIsCurrent facts' nodeId epoch := by
  rw [visitIsCurrent, visitIsCurrent, movement_of_place same, epoch_of_place same]

theorem hubNodeOf_of_place (same : placeOf facts = placeOf facts') (graph : Graph) :
    hubNodeOf facts graph = hubNodeOf facts' graph := by
  rw [hubNodeOf, hubNodeOf, ChunkFacts.currentNodeId, ChunkFacts.currentNodeId,
    movement_of_place same]

theorem restartedPast_of_place (same : placeOf facts = placeOf facts') (epoch : ℤ) :
    restartedPast facts epoch = restartedPast facts' epoch := by
  have restarts : facts.restarts.map (·.epoch) = facts'.restarts.map (·.epoch) :=
    congrArg Place.restarts same
  have named : ∀ facts : ChunkFacts,
      restartedPast facts epoch = (facts.restarts.map (·.epoch)).any (epoch < ·) := by
    intro facts
    rw [List.any_map]
    rfl
  rw [named, named, restarts]

theorem withdrawalFor_of_place (same : placeOf facts = placeOf facts') (s : SubmissionRow) :
    withdrawalFor facts s = withdrawalFor facts' s := by
  have completed : facts.operatorCompleted = facts'.operatorCompleted :=
    congrArg Place.completed same
  rw [withdrawalFor, withdrawalFor, isCurrent, isCurrent, heldByAPerson, heldByAPerson, standsAt,
    standsAt, visitIsCurrent_of_place same, movement_of_place same, epoch_of_place same,
    restartedPast_of_place same, status_of_place same, completed]

/-- A chunk delivering away from a submission's visit withdraws it. -/
theorem withdrawalFor_ne_none (delivering : facts.status = .delivering) {s : SubmissionRow}
    (left : isCurrent facts s = false) : withdrawalFor facts s ≠ none := by
  rw [withdrawalFor, heldByAPerson, delivering, left, if_neg (by decide), if_neg (by simp),
    if_neg (by simp)]
  split <;> exact Option.some_ne_none _

theorem withdrawalFor_of_delivering (delivering : facts.status = .delivering) {s : SubmissionRow}
    (current : isCurrent facts s = true) : withdrawalFor facts s = none := by
  rw [withdrawalFor, delivering, current, if_neg (by decide), if_neg (by simp), if_pos (by simp)]

/-- The visit of the hub node a chunk's newest movement enters is its current one. -/
theorem visitIsCurrent_of_hubNode {graph : Graph} {node : Node}
    (found : hubNodeOf facts graph = some node) (nodeId : String) (epoch : ℤ) :
    visitIsCurrent facts nodeId epoch ↔ nodeId = node.nodeId ∧ facts.latestEpoch.getD 0 = epoch := by
  rw [hubNodeOf, Option.bind_eq_bind, Option.bind_eq_some_iff] at found
  obtain ⟨entered, stands, found⟩ := found
  rw [Option.bind_eq_bind, Option.bind_eq_some_iff] at found
  obtain ⟨node', inGraph, found⟩ := found
  split at found
  next hub =>
    cases found
    have own := List.find?_some inGraph
    replace own : node.nodeId = entered := of_decide_eq_true own
    rw [ChunkFacts.currentNodeId, Option.bind_eq_some_iff] at stands
    obtain ⟨movement, newest, enters⟩ := stands
    rw [visitIsCurrent, newest]
    show decide (movement.nodeId = some nodeId ∧ _) = true ↔ _
    rw [decide_eq_true_iff, enters, ← own]
    constructor
    · exact fun ⟨same, epochs⟩ => ⟨(Option.some.inj same).symm, epochs⟩
    · exact fun ⟨same, epochs⟩ => ⟨congrArg some same.symm, epochs⟩
  next => cases found

/-! ## Chunks -/

theorem chunk_setChunk (row : Option (String × ChunkFacts)) (other : ChunkId) :
    (line.setChunk id row).chunk? other =
      if other = id then row.map (fun row => ⟨id, row.1, row.2⟩) else line.chunk? other := by
  rw [Line.chunk?, Line.setChunk, List.find?_append]
  split
  next same =>
    subst same
    have gone : (line.chunks.filter (·.chunkId ≠ other)).find? (·.chunkId = other) = none := by
      apply List.find?_eq_none.mpr
      intro r inside same
      have kept := (List.mem_filter.mp inside).2
      exact of_decide_eq_true kept (of_decide_eq_true same)
    rw [gone, Option.none_or]
    cases row with
    | none => rfl
    | some row => exact List.find?_cons_of_pos (decide_eq_true rfl)
  next differs =>
    have kept : (line.chunks.filter (·.chunkId ≠ id)).find? (·.chunkId = other) =
        line.chunks.find? (·.chunkId = other) := by
      rw [List.find?_filter]
      congr 1
      funext r
      by_cases same : r.chunkId = other
      · rw [same]
        simp [differs]
      · simp [same]
    have added : (row.toList.map fun row => (⟨id, row.1, row.2⟩ : LineChunk)).find?
        (·.chunkId = other) = none := by
      apply List.find?_eq_none.mpr
      intro r inside same
      obtain ⟨row, -, rfl⟩ := List.mem_map.mp inside
      exact differs (of_decide_eq_true same).symm
    rw [kept]
    show (line.chunks.find? _).or ((row.toList.map fun row => (⟨id, row.1, row.2⟩ : LineChunk)).find?
      (·.chunkId = other)) = _
    rw [added, Option.or_none]
    rfl

/-- Where each chunk stands is the same. -/
def Still (line after : Line) (id : ChunkId) : Prop :=
  (after.chunk? id).map (·.stand) = (line.chunk? id).map (·.stand)

theorem Still.row (still : Still line after id) {row : LineChunk}
    (found : after.chunk? id = some row) :
    ∃ before, line.chunk? id = some before ∧ before.graphId = row.graphId ∧
      placeOf before.facts = placeOf row.facts := by
  rw [Still, found] at still
  obtain ⟨before, found, same⟩ := Option.map_eq_some_iff.mp still.symm
  exact ⟨before, found, congrArg Prod.fst same, congrArg Prod.snd same⟩

theorem Still.symm (still : Still line after id) : Still after line id := Eq.symm still

theorem Still.place (still : Still line after id) :
    placeOf (after.facts id) = placeOf (line.facts id) := by
  rw [Line.facts, Line.facts]
  cases found : after.chunk? id with
  | none =>
    rw [Still, found] at still
    rw [Option.map_eq_none_iff.mp still.symm]
  | some row =>
    obtain ⟨before, found, -, same⟩ := still.row found
    rw [found]
    exact same.symm

theorem still_of_chunks (same : after.chunks = line.chunks) (id : ChunkId) :
    Still line after id := by
  rw [Still, Line.chunk?, Line.chunk?, same]

theorem still_setChunk {row : Option (String × ChunkFacts)} {other : ChunkId} (differs : other ≠ id) :
    Still line (line.setChunk id row) other := by
  rw [Still, chunk_setChunk, if_neg differs]

/-! ## What a quiet pass keeps -/

/-- The chunk is `delivering` at a hub node that names an action. -/
structure ActionVisit (graphs : List Graph) (line : Line) (id : ChunkId) (node : Node) (epoch : ℤ) :
    Prop where
  stands : ∃ row graph, line.chunk? id = some row ∧
    graphs.find? (·.graphId = row.graphId) = some graph ∧ row.facts.status = .delivering ∧
    hubNodeOf row.facts graph = some node ∧ row.facts.latestEpoch.getD 0 = epoch
  action : node.action ≠ none

theorem ActionVisit.still {node : Node} {epoch : ℤ} (still : Still line after id)
    (visit : ActionVisit graphs after id node epoch) : ActionVisit graphs line id node epoch := by
  obtain ⟨⟨row, graph, found, pinned, delivering, hub, epochs⟩, action⟩ := visit
  obtain ⟨before, found, pins, same⟩ := still.row found
  refine ⟨⟨before, graph, found, pins ▸ pinned, ?_, ?_, ?_⟩, action⟩
  · rw [status_of_place same]
    exact delivering
  · rw [hubNodeOf_of_place same]
    exact hub
  · rw [epoch_of_place same]
    exact epochs

/-- The visit's newest submission is open, or was closed otherwise than `superseded` unless its
turn ended so under the pass. -/
def Settled (t : FlowTables) (overtaken : List String) (id : ChunkId) (nodeId : String)
    (epoch : ℤ) : Prop :=
  ∃ s, t.submissionForVisit id nodeId epoch = some s ∧
    (t.closedUnder s.submissionId = some turnSuperseded → s.submissionId ∈ overtaken)

/-- A submission read open is of the visit. -/
def ReadOpen (pass : Pass) (id : ChunkId) (nodeId : String) (epoch : ℤ) : Prop :=
  ∃ s ∈ pass.openSubs, s.chunkId = id ∧ s.nodeId = nodeId ∧ s.epoch = epoch

def Listed (visits : List Standing) (id : ChunkId) (nodeId : String) (epoch : ℤ) : Prop :=
  ∃ v ∈ visits, v.chunkId = id ∧ v.node.nodeId = nodeId ∧ v.epoch = epoch

/-- What the pass knows of a visit it is to have submitted, at each stage. -/
def Covered (t : FlowTables) (pass : Pass) (id : ChunkId) (nodeId : String) (epoch : ℤ) :
    Stage → Prop
  | .opened => ReadOpen pass id nodeId epoch → Settled t pass.overtaken id nodeId epoch
  | .listed live => id ∈ live ∧
    (ReadOpen pass id nodeId epoch → Settled t pass.overtaken id nodeId epoch)
  | .loaded facts => (factsOf facts id).isSome ∧
    (ReadOpen pass id nodeId epoch → Settled t pass.overtaken id nodeId epoch)
  | .submitting _ visits => Settled t pass.overtaken id nodeId epoch ∨ Listed visits id nodeId epoch
  | .deciding _ v visits =>
    Settled t pass.overtaken id nodeId epoch ∨ Listed (v :: visits) id nodeId epoch
  | .turned _ _ => Settled t pass.overtaken id nodeId epoch
  | .closing _ _ _ _ => Settled t pass.overtaken id nodeId epoch

/-- Facts read put the chunk where it is. -/
def Agrees (line : Line) (id : ChunkId) (facts : ChunkFacts) : Prop :=
  ∃ row, line.chunk? id = some row ∧ placeOf facts = placeOf row.facts

/-- A chunk the pass refused or escalated since it read it. -/
def Handled (graphs : List Graph) (line : Line) (pass : Pass) (id : ChunkId) (facts : ChunkFacts) :
    Prop :=
  facts.status = .delivering ∧ (∀ s ∈ pass.openSubs, s.chunkId = id → isCurrent facts s = false) ∧
    (id ∈ pass.refused ∨ ∀ node epoch, ¬ActionVisit graphs line id node epoch)

def Known (graphs : List Graph) (line : Line) (pass : Pass) (facts : FactsById) : Prop :=
  ∀ id f, factsOf facts id = some f → Agrees line id f ∨ Handled graphs line pass id f

/-- A visit still to submit is where its chunk stands. -/
def Stands (graphs : List Graph) (line : Line) (pass : Pass) (facts : FactsById) (v : Standing) :
    Prop :=
  ∃ f row, factsOf facts v.chunkId = some f ∧ line.chunk? v.chunkId = some row ∧
    placeOf f = placeOf row.facts ∧ graphs.find? (·.graphId = row.graphId) = some v.graph ∧
    hubNodeOf f v.graph = some v.node ∧ f.latestEpoch.getD 0 = v.epoch ∧ f.status = .delivering ∧
    inLine pass.openSubs v = false

structure VisitsStand (graphs : List Graph) (line : Line) (pass : Pass) (facts : FactsById)
    (visits : List Standing) : Prop where
  distinct : (visits.map (·.chunkId)).Nodup
  stand : ∀ v ∈ visits, Stands graphs line pass facts v
  apart : ∀ s ∈ pass.submitted, ∀ v ∈ visits, s.chunkId ≠ v.chunkId

def Reads (graphs : List Graph) (line : Line) (pass : Pass) : Stage → Prop
  | .opened => pass.submitted = []
  | .listed live => pass.submitted = [] ∧ live.Nodup ∧
    ∀ id ∈ live, (line.facts id).status = .delivering
  | .loaded facts => pass.submitted = [] ∧ (facts.map (·.1)).Nodup ∧
    ∀ id f, factsOf facts id = some f → Agrees line id f ∧ f.status = .delivering
  | .submitting facts visits =>
    Known graphs line pass facts ∧ VisitsStand graphs line pass facts visits
  | .deciding facts v visits =>
    Known graphs line pass facts ∧ VisitsStand graphs line pass facts (v :: visits)
  | .turned facts _ => Known graphs line pass facts
  | .closing facts _ _ _ => Known graphs line pass facts ∧
    ∀ s ∈ pass.openSubs, factsOf facts s.chunkId = none → line.chunk? s.chunkId = none

/-- The submissions the pass has yet to judge. -/
def Pending (pass : Pass) (s : SubmissionRow) : Stage → Prop
  | .turned _ turning => s ∈ pass.openSubs ∧ s.submissionId ∉ turning
  | .closing _ turning left _ => s ∈ left ∧ s.submissionId ∉ turning
  | _ => s ∈ pass.openSubs

/-- Every open submission with no open turn keeps its place, or the pass has yet to judge it. -/
def Waits (line : Line) (pass : Pass) (stage : Stage) : Prop :=
  ∀ s ∈ line.tables.submissions, line.tables.isOpen s.submissionId →
    ¬line.tables.hasOpenTurn s.submissionId →
    withdrawalFor (line.facts s.chunkId) s = none ∨ Pending pass s stage

structure Quiet (graphs : List Graph) (line : Line) (pass : Pass) : Prop where
  visits : ∀ id node epoch, ActionVisit graphs line id node epoch →
    id ∈ pass.refused ∨ Covered line.tables pass id node.nodeId epoch pass.stage
  reads : Reads graphs line pass pass.stage
  waits : Waits line pass pass.stage

/-! ## Under a turn's end and a write that moves nothing -/

theorem Agrees.still (still : Still line after id) (agrees : Agrees line id facts) :
    Agrees after id facts := by
  obtain ⟨row, found, same⟩ := agrees
  obtain ⟨before, found, -, places⟩ := still.symm.row found
  exact ⟨before, found, same.trans places.symm⟩

theorem Known.still {read : FactsById} (still : ∀ id, Still line after id)
    (refused : pass.refused ⊆ pass'.refused) (openSubs : pass'.openSubs = pass.openSubs)
    (known : Known graphs line pass read) : Known graphs after pass' read := by
  intro id f found
  rcases known id f found with agrees | ⟨delivering, left, gone⟩
  · exact .inl (agrees.still (still id))
  · refine .inr ⟨delivering, openSubs ▸ left, ?_⟩
    rcases gone with inside | gone
    · exact .inl (refused inside)
    · exact .inr fun node epoch visit => gone node epoch (visit.still (still id))

theorem Stands.still {read : FactsById} {v : Standing} (still : Still line after v.chunkId)
    (openSubs : pass'.openSubs = pass.openSubs) (stands : Stands graphs line pass read v) :
    Stands graphs after pass' read v := by
  obtain ⟨f, row, found, chunk, same, pinned, hub, epoch, delivering, out⟩ := stands
  obtain ⟨before, chunk, pins, places⟩ := still.symm.row chunk
  exact ⟨f, before, found, chunk, same.trans places.symm, pins ▸ pinned, hub, epoch, delivering,
    openSubs ▸ out⟩

theorem VisitsStand.still {read : FactsById} {visits : List Standing}
    (still : ∀ id, Still line after id) (openSubs : pass'.openSubs = pass.openSubs)
    (submitted : pass'.submitted = pass.submitted)
    (stand : VisitsStand graphs line pass read visits) :
    VisitsStand graphs after pass' read visits :=
  ⟨stand.distinct, fun v inside => (stand.stand v inside).still (still _) openSubs,
    submitted ▸ stand.apart⟩

theorem Reads.still {stage : Stage} (reads : Reads graphs line pass stage)
    (still : ∀ id, Still line after id) (refused : pass.refused ⊆ pass'.refused)
    (openSubs : pass'.openSubs = pass.openSubs) (submitted : pass'.submitted = pass.submitted) :
    Reads graphs after pass' stage := by
  cases stage with
  | opened => exact submitted.trans reads
  | listed live =>
    obtain ⟨none_, distinct, delivering⟩ := reads
    refine ⟨submitted.trans none_, distinct, ?_⟩
    intro id inside
    rw [status_of_place (still id).place]
    exact delivering id inside
  | loaded read =>
    obtain ⟨none_, distinct, agree⟩ := reads
    refine ⟨submitted.trans none_, distinct, ?_⟩
    intro id f found
    exact ⟨(agree id f found).1.still (still id), (agree id f found).2⟩
  | submitting read visits =>
    exact ⟨reads.1.still still refused openSubs, reads.2.still still openSubs submitted⟩
  | deciding read v visits =>
    exact ⟨reads.1.still still refused openSubs, reads.2.still still openSubs submitted⟩
  | turned read turning => exact Known.still still refused openSubs reads
  | closing read turning left stillOpen =>
    refine ⟨reads.1.still still refused openSubs, ?_⟩
    intro s inside missing
    have gone := reads.2 s (openSubs ▸ inside) missing
    have same := still s.chunkId
    rw [Still, gone] at same
    exact Option.map_eq_none_iff.mp same

theorem Covered.mono {nodeId : String} {epoch : ℤ} {stage : Stage}
    (settled : Settled t pass.overtaken id nodeId epoch →
      Settled t' pass'.overtaken id nodeId epoch)
    (openSubs : pass'.openSubs = pass.openSubs) (covered : Covered t pass id nodeId epoch stage) :
    Covered t' pass' id nodeId epoch stage := by
  have read : ReadOpen pass' id nodeId epoch → ReadOpen pass id nodeId epoch := by
    intro read
    rw [ReadOpen, openSubs] at read
    exact read
  cases stage with
  | opened => exact fun inside => settled (covered (read inside))
  | listed live => exact ⟨covered.1, fun inside => settled (covered.2 (read inside))⟩
  | loaded facts => exact ⟨covered.1, fun inside => settled (covered.2 (read inside))⟩
  | submitting facts visits => exact covered.imp_left settled
  | deciding facts v visits => exact covered.imp_left settled
  | turned facts turning => exact settled covered
  | closing facts turning left stillOpen => exact settled covered

theorem Settled.mono {overtaken overtaken' : List String} {nodeId : String} {epoch : ℤ}
    (submissions : t'.submissions = t.submissions)
    (closures : ∀ id, t'.closedUnder id = some turnSuperseded → id ∉ overtaken' →
      t.closedUnder id = some turnSuperseded)
    (grown : overtaken ⊆ overtaken') (settled : Settled t overtaken id nodeId epoch) :
    Settled t' overtaken' id nodeId epoch := by
  obtain ⟨s, newest, closed⟩ := settled
  refine ⟨s, ?_, ?_⟩
  · rw [FlowTables.submissionForVisit, FlowTables.visit, submissions]
    exact newest
  · intro superseded
    by_contra missing
    exact missing (grown (closed (closures _ superseded missing)))

theorem Pending.mono {s : SubmissionRow} {stage : Stage} (openSubs : pass'.openSubs = pass.openSubs)
    (pending : Pending pass s stage) : Pending pass' s stage := by
  have same : ∀ s, s ∈ pass.openSubs → s ∈ pass'.openSubs := by
    intro s inside
    rw [openSubs]
    exact inside
  cases stage with
  | turned facts turning => exact ⟨same s pending.1, pending.2⟩
  | closing => exact pending
  | opened => exact same s pending
  | listed => exact same s pending
  | loaded => exact same s pending
  | submitting => exact same s pending
  | deciding => exact same s pending

/-- Where every chunk stands is the same, the tables only settled, and a turn's end that closed a
submission `superseded` was noted. -/
theorem Quiet.settles (quiet : Quiet graphs line pass) (still : ∀ id, Still line after id)
    (settles : Settles line.tables after.tables)
    (closures : ∀ id, after.tables.closedUnder id = some turnSuperseded → id ∉ pass'.overtaken →
      line.tables.closedUnder id = some turnSuperseded)
    (ends : ∀ s ∈ line.tables.submissions, after.tables.isOpen s.submissionId →
      ¬after.tables.hasOpenTurn s.submissionId → line.tables.hasOpenTurn s.submissionId →
        withdrawalFor (line.facts s.chunkId) s = none)
    (openSubs : pass'.openSubs = pass.openSubs) (submitted : pass'.submitted = pass.submitted)
    (stage : pass'.stage = pass.stage) (refused : pass'.refused = pass.refused)
    (overtaken : pass.overtaken ⊆ pass'.overtaken) : Quiet graphs after pass' := by
  refine ⟨?_, ?_, ?_⟩
  · intro id node epoch visit
    rw [refused, stage]
    refine (quiet.visits id node epoch (visit.still (still id))).imp_right fun covered => ?_
    exact covered.mono (Settled.mono settles.submissions closures overtaken) openSubs
  · rw [stage]
    exact quiet.reads.still still (refused ▸ List.Subset.refl _) openSubs submitted
  · rw [stage]
    intro s inside open_ idle
    rw [settles.submissions] at inside
    rw [withdrawalFor_of_place (still s.chunkId).place]
    by_cases running : line.tables.hasOpenTurn s.submissionId
    · exact .inl (ends s inside open_ idle running)
    · exact (quiet.waits s inside (settles.isOpen open_) running).imp_right (Pending.mono openSubs)

/-! ## What ending a turn closes -/

theorem closedUnder_cons_of_ne {more : ClosureRow} {id outcome : String}
    (closed : FlowTables.closedUnder { t with closures := t.closures ++ [more] } id = some outcome)
    (other : more.submissionId ≠ id) : t.closedUnder id = some outcome := by
  obtain ⟨c, found, rfl⟩ := Option.map_eq_some_iff.mp closed
  rw [List.find?_append, List.find?_cons_of_neg (by simpa using other), List.find?_nil,
    Option.or_none] at found
  rw [FlowTables.closedUnder, found]
  rfl

theorem closedUnder_of_append {more : ClosureRow} {id outcome : String}
    (closed : FlowTables.closedUnder { t with closures := t.closures ++ [more] } id = some outcome) :
    t.closedUnder id = some outcome ∨ more.submissionId = id ∧ more.outcome = outcome := by
  by_cases same : more.submissionId = id
  · obtain ⟨c, found, rfl⟩ := Option.map_eq_some_iff.mp closed
    rw [List.find?_append] at found
    cases before : t.closures.find? (·.submissionId = id) with
    | none =>
      rw [before, Option.none_or, List.find?_singleton, if_pos (decide_eq_true same)] at found
      cases found
      exact .inr ⟨same, rfl⟩
    | some c' =>
      rw [before, Option.some_or] at found
      cases found
      rw [FlowTables.closedUnder, before]
      exact .inl rfl
  · exact .inl (closedUnder_cons_of_ne closed same)

/-- What an end that names the closure its turn asks for leaves: the closure added, if any, is of
the turn's submission, and a submission it left without an open turn it closed or lets keep its
place. -/
theorem turn_ends (safe : LineInvariant line.tables) {turnId outcome id : String}
    {named closure : Option String} {at_ : Instant} {tables : FlowTables}
    (closes : line.turnClosure turnId named = some (id, closure))
    (wrote : line.tables.endTurnLocked turnId outcome closure at_ = some tables) :
    (∀ s, tables.closedUnder s = some turnSuperseded →
      line.tables.closedUnder s = some turnSuperseded ∨ s = id ∧ closure = some turnSuperseded) ∧
    ∀ s ∈ line.tables.submissions, tables.isOpen s.submissionId →
      ¬tables.hasOpenTurn s.submissionId → line.tables.hasOpenTurn s.submissionId →
        withdrawalFor (line.facts s.chunkId) s = none := by
  rw [Line.turnClosure, Option.bind_eq_bind, Option.bind_eq_some_iff] at closes
  obtain ⟨turn, found, closes⟩ := closes
  rw [Option.bind_eq_bind, Option.bind_eq_some_iff] at closes
  obtain ⟨row, own, closes⟩ := closes
  cases closes
  have rowId := List.find?_some own
  replace rowId : row.submissionId = turn.submissionId := of_decide_eq_true rowId
  rw [FlowTables.endTurnLocked, Option.bind_eq_bind, Option.bind_eq_some_iff] at wrote
  obtain ⟨⟨mid, id⟩, first, wrote⟩ := wrote
  obtain ⟨ended, stored, ids, -, rfl, submission, rfl⟩ := endTurn_spec first
  have turnIds := List.find?_some found
  have one : turn = ended := List.inj_on_of_nodup_map safe.keyed.turnIds
    (List.mem_of_find?_eq_some found) stored ((of_decide_eq_true turnIds).trans ids.symm)
  subst one
  have other : ∀ s, s ≠ turn.submissionId → line.tables.hasOpenTurn s →
      FlowTables.hasOpenTurn { line.tables with
        turns := line.tables.turns.map (endedAs turnId outcome at_) } s := by
    intro s differs running
    obtain ⟨r, inside, still, same⟩ := hasOpenTurn_iff.mp running
    refine hasOpenTurn_iff.mpr ⟨r, List.mem_map.mpr ⟨r, inside, ?_⟩, still, same⟩
    rw [endedAs, if_neg]
    intro same'
    apply differs
    rw [← same, List.inj_on_of_nodup_map safe.keyed.turnIds inside stored (same'.trans ids.symm)]
  have only : ∀ s ∈ line.tables.submissions, s.submissionId = turn.submissionId → s = row := by
    intro s inside same
    exact List.inj_on_of_nodup_map safe.keyed.ids inside (List.mem_of_find?_eq_some own)
      (same.trans rowId.symm)
  cases asked : named <|> (withdrawalFor (line.facts row.chunkId) row).map (·.outcome) with
  | none =>
    rw [asked] at wrote
    cases wrote
    refine ⟨fun s closed => .inl closed, ?_⟩
    intro s inside open_ idle running
    by_cases same : s.submissionId = turn.submissionId
    · rw [only s inside same]
      cases named with
      | some named => cases asked
      | none => exact Option.map_eq_none_iff.mp asked
    · exact absurd (other _ same running) idle
  | some closure =>
    rw [asked] at wrote
    cases wrote
    set mid := FlowTables.writeFacts { line.tables with
        turns := line.tables.turns.map (endedAs turnId outcome at_) }
      (line.tables.flowsHeld turn.submissionId) turn.submissionId submission.chunkId .turnEnded
      (some outcome) none at_ with overIs
    cases closing : mid.closeSubmission turn.submissionId closure at_ with
    | none =>
      refine ⟨fun s closed => .inl closed, ?_⟩
      intro s inside open_ idle running
      by_cases same : s.submissionId = turn.submissionId
      · rw [FlowTables.closeSubmission, show mid.submission? turn.submissionId = some row from own,
          Option.bind_eq_bind, Option.bind_some, if_pos (same ▸ open_)] at closing
        cases closing
      · exact absurd (other _ same running) idle
    | some closed =>
      obtain ⟨submission', -, -, -, rfl⟩ := closeSubmission_spec closing
      refine ⟨?_, ?_⟩
      · intro s superseded
        refine (closedUnder_of_append (t := mid) superseded).imp_right ?_
        rintro ⟨same, under⟩
        exact ⟨same.symm.trans rowId.symm, congrArg some under⟩
      · intro s inside open_ idle running
        by_cases same : s.submissionId = turn.submissionId
        · exfalso
          apply isOpen_iff.mp open_
          rw [same]
          exact List.mem_map_of_mem (List.mem_append_right _ (List.mem_singleton_self _))
        · exact absurd (other _ same running) idle

/-! ## What the pass reads -/

theorem factsOf_loadFactsFor (ids : List ChunkId) (id : ChunkId) :
    factsOf (line.loadFactsFor ids) id =
      if id ∈ ids then (line.chunk? id).map (·.facts) else none := by
  induction ids with
  | nil => rfl
  | cons other rest ih =>
    rw [factsOf, Line.loadFactsFor] at ih
    rw [factsOf, Line.loadFactsFor, List.filterMap_cons]
    by_cases same : other = id
    · subst same
      rw [if_pos List.mem_cons_self]
      cases found : line.chunk? other with
      | none =>
        rw [found] at ih
        dsimp only [Option.map_none]
        rw [ih]
        split <;> rfl
      | some row =>
        simp
    · have rest_ : (id ∈ other :: rest) ↔ id ∈ rest := by
        rw [List.mem_cons]
        exact or_iff_right fun other_ => same other_.symm
      rw [if_congr rest_ rfl rfl, ← ih]
      cases found : line.chunk? other with
      | none => rfl
      | some row =>
        dsimp only [Option.map_some]
        rw [List.find?_cons_of_neg (by simpa using same)]

theorem factsOf_append (facts more : FactsById) (id : ChunkId) :
    factsOf (facts ++ more) id = (factsOf facts id).or (factsOf more id) := by
  rw [factsOf, List.find?_append, Option.map_or]
  rfl

theorem mem_of_factsOf {read : FactsById} (found : factsOf read id = some facts) :
    (id, facts) ∈ read := by
  obtain ⟨pair, first, rfl⟩ := Option.map_eq_some_iff.mp found
  have own := List.find?_some first
  have key : pair.1 = id := of_decide_eq_true own
  exact key ▸ List.mem_of_find?_eq_some first

theorem factsOf_of_mem {read : FactsById} (keys : (read.map (·.1)).Nodup)
    (inside : (id, facts) ∈ read) : factsOf read id = some facts := by
  rw [factsOf, Option.map_eq_some_iff]
  cases found : read.find? (·.1 = id) with
  | none => exact absurd (decide_eq_true rfl) (List.find?_eq_none.mp found _ inside)
  | some pair =>
    have own := List.find?_some found
    have key : pair.1 = id := of_decide_eq_true own
    have same := List.inj_on_of_nodup_map keys (List.mem_of_find?_eq_some found) inside key
    exact ⟨pair, rfl, congrArg Prod.snd same⟩

theorem loadFactsFor_keys {ids : List ChunkId} (distinct : ids.Nodup) :
    ((line.loadFactsFor ids).map (·.1)).Nodup := by
  have keys : ((line.loadFactsFor ids).map (·.1)).Sublist ids := by
    rw [Line.loadFactsFor]
    induction ids with
    | nil => exact List.Sublist.refl _
    | cons id rest ih =>
      have rest_ := ih (List.nodup_cons.mp distinct).2
      rw [List.filterMap_cons]
      cases line.chunk? id with
      | none => exact rest_.cons _
      | some row => exact rest_.cons_cons _
  exact keys.nodup distinct

/-- A chunk that has moved entered where it is. -/
theorem enteredAt_isSome {movement : Movement} (newest : facts.latestMovement none = some movement) :
    ∃ entered, enteredAt facts = some entered := by
  rw [← Option.isSome_iff_exists, enteredAt]
  by_contra none_
  rw [Option.not_isSome_iff_eq_none, List.max?_eq_none_iff, List.append_eq_nil_iff,
    List.append_eq_nil_iff, List.map_eq_nil_iff, List.map_eq_nil_iff, List.map_eq_nil_iff] at none_
  obtain ⟨⟨transitions, migrations⟩, restarts⟩ := none_
  rw [ChunkFacts.latestMovement, ChunkFacts.rankedMovements, transitions, migrations, restarts]
    at newest
  cases newest

/-- A chunk at a hub node has moved there. -/
theorem movement_of_hubNode {graph : Graph} {node : Node}
    (found : hubNodeOf facts graph = some node) :
    ∃ movement, facts.latestMovement none = some movement := by
  rw [hubNodeOf, Option.bind_eq_bind, Option.bind_eq_some_iff] at found
  obtain ⟨entered, stands, -⟩ := found
  rw [ChunkFacts.currentNodeId, Option.bind_eq_some_iff] at stands
  obtain ⟨movement, newest, -⟩ := stands
  exact ⟨movement, newest⟩

theorem mem_standing {read : FactsById} {v : Standing} :
    v ∈ line.standing graphs read ↔ ∃ f row, (v.chunkId, f) ∈ read ∧
      line.chunk? v.chunkId = some row ∧
      graphs.find? (·.graphId = row.graphId) = some v.graph ∧ hubNodeOf f v.graph = some v.node ∧
      enteredAt f = some v.enteredAt ∧ f.latestEpoch.getD 0 = v.epoch := by
  rw [Line.standing, List.mem_insertionSort, List.mem_filterMap]
  constructor
  · rintro ⟨⟨id, f⟩, inside, built⟩
    simp only [Option.bind_eq_bind, Option.bind_eq_some_iff] at built
    obtain ⟨row, found, graph, pinned, node, hub, entered, at_, built⟩ := built
    cases built
    exact ⟨f, row, inside, found, pinned, hub, at_, rfl⟩
  · rintro ⟨f, row, inside, found, pinned, hub, at_, epoch⟩
    refine ⟨(v.chunkId, f), inside, ?_⟩
    simp only [Option.bind_eq_bind, Option.bind_eq_some_iff]
    refine ⟨row, found, v.graph, pinned, v.node, hub, v.enteredAt, at_, ?_⟩
    rw [epoch]

theorem standing_distinct {read : FactsById} (keys : (read.map (·.1)).Nodup) :
    ((line.standing graphs read).map (·.chunkId)).Nodup := by
  rw [Line.standing, ((List.perm_insertionSort _ _).map _).nodup_iff]
  refine List.Sublist.nodup ?_ keys
  clear keys
  induction read with
  | nil => exact List.Sublist.refl _
  | cons pair rest ih =>
    rw [List.filterMap_cons]
    split
    next => exact ih.cons _
    next v built =>
      simp only [Option.bind_eq_bind, Option.bind_eq_some_iff] at built
      obtain ⟨row, found, graph, pinned, node, hub, entered, at_, built⟩ := built
      cases built
      exact ih.cons_cons _

theorem inLine_iff {v : Standing} :
    inLine pass.openSubs v ↔ ReadOpen pass v.chunkId v.node.nodeId v.epoch := by
  rw [inLine, List.any_eq_true]
  constructor
  · rintro ⟨s, inside, holds⟩
    exact ⟨s, inside, of_decide_eq_true holds⟩
  · rintro ⟨s, inside, holds⟩
    exact ⟨s, inside, decide_eq_true holds⟩

/-- The newest submission of a visit with an open one is that one. -/
theorem newest_of_open (safe : LineInvariant t) {s : SubmissionRow} (stored : s ∈ t.submissions)
    (open_ : t.isOpen s.submissionId) :
    t.submissionForVisit s.chunkId s.nodeId s.epoch = some s := by
  have inside : s ∈ t.visit s.chunkId s.nodeId s.epoch :=
    List.mem_filter.mpr ⟨stored, decide_eq_true ⟨rfl, rfl, rfl⟩⟩
  rw [FlowTables.submissionForVisit]
  cases newest : (t.visit s.chunkId s.nodeId s.epoch).argmax (·.generation) with
  | none =>
    rw [List.argmax_eq_none] at newest
    rw [newest] at inside
    cases inside
  | some r =>
    obtain ⟨stored', visits⟩ := List.mem_filter.mp (List.argmax_mem newest)
    obtain ⟨chunk, node, epoch⟩ := of_decide_eq_true visits
    rcases safe.generations s stored r stored' ⟨chunk.symm, node.symm, epoch.symm⟩ with same |
      ⟨-, closed⟩ | ⟨earlier, -⟩
    · rw [same]
    · obtain ⟨c, found, -⟩ := Option.map_eq_some_iff.mp closed
      have own := List.find?_some found
      have open_ := isOpen_iff.mp open_
      exact absurd (List.mem_map.mpr ⟨c, List.mem_of_find?_eq_some found, of_decide_eq_true own⟩)
        open_
    · exact absurd (List.le_of_mem_argmax inside newest) (Nat.not_le_of_lt earlier)

theorem closedUnder_of_open {id : String} (open_ : t.isOpen id) : t.closedUnder id = none := by
  rw [FlowTables.closedUnder, Option.map_eq_none_iff, List.find?_eq_none]
  intro c inside same
  exact isOpen_iff.mp open_ (List.mem_map.mpr ⟨c, inside, of_decide_eq_true same⟩)

theorem settled_of_open (safe : LineInvariant t) (overtaken : List String) {s : SubmissionRow}
    (stored : s ∈ t.submissions) (open_ : t.isOpen s.submissionId) :
    Settled t overtaken s.chunkId s.nodeId s.epoch := by
  refine ⟨s, newest_of_open safe stored open_, ?_⟩
  intro closed
  rw [closedUnder_of_open open_] at closed
  cases closed

/-- A visit with no generation left to submit is settled. -/
theorem settled_of_generation {nodeId : String} {epoch : ℤ} (overtaken : List String)
    (taken : t.generation id nodeId epoch = none) : Settled t overtaken id nodeId epoch := by
  rw [FlowTables.generation] at taken
  split at taken
  next => cases taken
  next s newest =>
    split at taken
    next => cases taken
    next other => exact ⟨s, newest, fun closed => absurd closed other⟩

/-! ## The pass' steps -/

/-- A step that only reads. -/
theorem Quiet.advance {stage : Stage} (quiet : Quiet graphs line pass)
    (visits : ∀ id node epoch, ActionVisit graphs line id node epoch →
      Covered line.tables pass id node.nodeId epoch pass.stage →
        Covered line.tables pass id node.nodeId epoch stage)
    (reads : Reads graphs line pass stage) (waits : Waits line pass stage) :
    Quiet graphs (line.atStage pass stage) { pass with stage } := by
  have still : ∀ id, Still (line.atStage pass stage) line id := still_of_chunks rfl
  refine ⟨?_, ?_, ?_⟩
  · intro id node epoch visit
    have before := visit.still (still id).symm
    refine (quiet.visits id node epoch before).imp_right fun covered => ?_
    exact (visits id node epoch before covered).mono (fun settled => settled) rfl
  · have kept : Reads graphs (line.atStage pass stage) { pass with stage } stage :=
      reads.still (fun id => (still id).symm) (List.Subset.refl _) rfl rfl
    exact kept
  · intro s inside open_ idle
    exact (waits s inside open_ idle).imp_right (Pending.mono rfl)

theorem quiet_begin (floored : Floored line) : Quiet graphs
    { line with pass := some { openSubs := line.openSubmissionsFrom line.floor } }
    { openSubs := line.openSubmissionsFrom line.floor } := by
  refine ⟨?_, rfl, ?_⟩
  · intro id node epoch visit
    refine .inr ?_
    rintro ⟨s, inside, rfl, same, rfl⟩
    obtain ⟨stored, -, open_⟩ := mem_openSubmissionsFrom.mp inside
    rw [← same]
    exact settled_of_open floored.safe _ stored open_
  · intro s inside open_ idle
    exact .inr (mem_openSubmissionsFrom.mpr ⟨inside, floored.above s inside open_, open_⟩)

theorem quiet_listLive (quiet : Quiet graphs line pass) (stage : pass.stage = .opened) :
    Quiet graphs (line.atStage pass (.listed line.deliveringChunks))
      { pass with stage := .listed line.deliveringChunks } := by
  obtain ⟨visits, reads, waits⟩ := quiet
  rw [stage] at visits reads waits
  refine Quiet.advance ⟨stage ▸ visits, stage ▸ reads, stage ▸ waits⟩ ?_ ?_ waits
  · intro id node epoch visit covered
    rw [stage] at covered
    refine ⟨?_, covered⟩
    obtain ⟨⟨row, graph, found, -, delivering, -⟩, -⟩ := visit
    have own := List.find?_some found
    have key : row.chunkId = id := of_decide_eq_true own
    rw [Line.deliveringChunks, List.mem_filter, List.mem_dedup]
    refine ⟨List.mem_map.mpr ⟨row, List.mem_of_find?_eq_some found, key⟩, ?_⟩
    rw [decide_eq_true_iff, Line.facts, found]
    exact delivering
  · refine ⟨reads, (List.nodup_dedup _).filter _, ?_⟩
    intro id inside
    exact of_decide_eq_true (List.mem_filter.mp inside).2

theorem quiet_loadFacts {live : List ChunkId} (quiet : Quiet graphs line pass)
    (stage : pass.stage = .listed live) :
    Quiet graphs (line.atStage pass (.loaded (line.loadFactsFor live)))
      { pass with stage := .loaded (line.loadFactsFor live) } := by
  have reads := quiet.reads
  have waits := quiet.waits
  rw [stage] at reads waits
  obtain ⟨none_, distinct, delivering⟩ := reads
  refine quiet.advance ?_ ⟨none_, loadFactsFor_keys distinct, ?_⟩ waits
  · intro id node epoch visit covered
    rw [stage] at covered
    refine ⟨?_, covered.2⟩
    obtain ⟨⟨row, graph, found, -⟩, -⟩ := visit
    rw [factsOf_loadFactsFor, if_pos covered.1, found]
    rfl
  · intro id f found
    rw [factsOf_loadFactsFor] at found
    split at found
    next inside =>
      obtain ⟨row, chunk, rfl⟩ := Option.map_eq_some_iff.mp found
      have live := delivering id inside
      rw [Line.facts, chunk] at live
      exact ⟨⟨row, chunk, rfl⟩, live⟩
    next => cases found

theorem quiet_readStanding {read : FactsById} (quiet : Quiet graphs line pass)
    (stage : pass.stage = .loaded read) :
    Quiet graphs (line.atStage pass (.submitting read
        ((line.standing graphs read).filter fun s => !inLine pass.openSubs s)))
      { pass with
        stage := .submitting read
          ((line.standing graphs read).filter fun s => !inLine pass.openSubs s) } := by
  have reads := quiet.reads
  have waits := quiet.waits
  rw [stage] at reads waits
  obtain ⟨none_, keys, agree⟩ := reads
  refine quiet.advance ?_ ⟨fun id f found => .inl (agree id f found).1, ?_⟩ waits
  · intro id node epoch visit covered
    rw [stage] at covered
    obtain ⟨loaded, settled⟩ := covered
    by_cases inside : ReadOpen pass id node.nodeId epoch
    · exact .inl (settled inside)
    · right
      obtain ⟨f, found⟩ := Option.isSome_iff_exists.mp loaded
      obtain ⟨⟨row', chunk, same⟩, -⟩ := agree id f found
      obtain ⟨⟨row, graph, chunk', pinned, -, hub, epochs⟩, -⟩ := visit
      rw [chunk] at chunk'
      cases chunk'
      obtain ⟨movement, newest⟩ := movement_of_hubNode hub
      obtain ⟨entered, at_⟩ := enteredAt_isSome ((movement_of_place same).trans newest)
      refine ⟨⟨id, graph, node, epoch, entered⟩, List.mem_filter.mpr ⟨?_, ?_⟩, rfl, rfl, rfl⟩
      · refine mem_standing.mpr ⟨f, row', mem_of_factsOf found, chunk, pinned, ?_, at_, ?_⟩
        · rw [hubNodeOf_of_place same]
          exact hub
        · rw [epoch_of_place same]
          exact epochs
      · rw [Bool.not_eq_true', Bool.eq_false_iff]
        exact fun read => inside (inLine_iff.mp read)
  · refine ⟨(standing_distinct keys).sublist (List.filter_sublist.map _), ?_, ?_⟩
    · intro v inside
      obtain ⟨built, out⟩ := List.mem_filter.mp inside
      obtain ⟨f, row, listed, chunk, pinned, hub, -, epoch⟩ := mem_standing.mp built
      have found := factsOf_of_mem keys listed
      obtain ⟨⟨row', chunk', same⟩, delivering⟩ := agree _ f found
      rw [chunk] at chunk'
      cases chunk'
      rw [Bool.not_eq_true'] at out
      exact ⟨f, row, found, chunk, same, pinned, hub, epoch, delivering, out⟩
    · rw [none_]
      exact fun s inside => nomatch inside

theorem VisitsStand.tail {read : FactsById} {v : Standing} {visits : List Standing}
    (stand : VisitsStand graphs line pass read (v :: visits)) :
    VisitsStand graphs line pass read visits :=
  ⟨(List.nodup_cons.mp stand.distinct).2, fun w inside => stand.stand w (List.mem_cons_of_mem _ inside),
    fun s listed w inside => stand.apart s listed w (List.mem_cons_of_mem _ inside)⟩

theorem quiet_probe {read : FactsById} {v : Standing} {visits : List Standing}
    (quiet : Quiet graphs line pass) (stage : pass.stage = .submitting read (v :: visits)) :
    Quiet graphs (line.atStage pass (.deciding read v visits))
      { pass with stage := .deciding read v visits } := by
  have reads := quiet.reads
  have waits := quiet.waits
  rw [stage] at reads waits
  refine quiet.advance ?_ reads waits
  intro id node epoch visit covered
  rw [stage] at covered
  exact covered

/-- The chunk of the visit being decided is refused, or left at no hub node with an action. -/
theorem Quiet.handle {read : FactsById} {v : Standing} {visits : List Standing}
    {refused : List ChunkId} (quiet : Quiet graphs line pass)
    (sound : PassSound line.tables pass) (stage : pass.stage = .deciding read v visits)
    (others : ∀ id ≠ v.chunkId, Still line after id) (tables : after.tables = line.tables)
    (more : pass.refused ⊆ refused)
    (gone : v.chunkId ∈ refused ∨ ∀ node epoch, ¬ActionVisit graphs after v.chunkId node epoch) :
    Quiet graphs after { pass with refused, stage := .submitting read visits } := by
  obtain ⟨covers, reads, waits⟩ := quiet
  rw [stage] at covers reads waits
  obtain ⟨known, stand⟩ := reads
  refine ⟨?_, ⟨?_, ⟨stand.tail.distinct, ?_, stand.tail.apart⟩⟩, ?_⟩
  · intro id node epoch visit
    rw [tables]
    by_cases own : id = v.chunkId
    · subst own
      rcases gone with inside | gone
      · exact .inl inside
      · exact absurd visit (gone node epoch)
    · rcases covers id node epoch (visit.still (others id own)) with inside | settled |
        ⟨w, inside, chunk, same⟩
      · exact .inl (more inside)
      · exact .inr (.inl settled)
      · rcases List.mem_cons.mp inside with rfl | rest
        · exact absurd chunk.symm own
        · exact .inr (.inr ⟨w, rest, chunk, same⟩)
  · intro id f found
    by_cases own : id = v.chunkId
    · subst own
      obtain ⟨f', row, found', -, -, -, hub, epoch, delivering, out⟩ :=
        stand.stand v List.mem_cons_self
      rw [found] at found'
      cases found'
      refine .inr ⟨delivering, ?_, gone⟩
      intro s inside chunk
      rw [Bool.eq_false_iff]
      intro current
      obtain ⟨nodeId, epochs⟩ := (visitIsCurrent_of_hubNode hub _ _).mp current
      rw [Bool.eq_false_iff] at out
      exact out (inLine_iff.mpr ⟨s, inside, chunk, nodeId, epochs.symm.trans epoch⟩)
    · rcases known id f found with agrees | ⟨delivering, left, before⟩
      · exact .inl (agrees.still (others id own))
      · refine .inr ⟨delivering, left, ?_⟩
        rcases before with inside | before
        · exact .inl (more inside)
        · exact .inr fun node epoch visit => before node epoch (visit.still (others id own))
  · intro w inside
    have differs : w.chunkId ≠ v.chunkId := by
      intro same
      exact (List.nodup_cons.mp stand.distinct).1 (List.mem_map.mpr ⟨w, inside, same⟩)
    exact (stand.stand w (List.mem_cons_of_mem _ inside)).still (others _ differs) rfl
  · intro s inside open_ idle
    rw [tables] at inside open_ idle
    rcases sound.covered s inside open_ with listed | submitted
    · exact .inr listed
    · have differs := stand.apart s submitted v List.mem_cons_self
      rw [withdrawalFor_of_place (others _ differs).place]
      exact waits s inside open_ idle

/-- An escalation leaves every other chunk, and where its own chunk stands in its graph. -/
theorem escalateActionless_chunk (standing : Standing) (loaded : ChunkFacts)
    (cause detail : String) (at_ : Instant) (id : ChunkId) :
    let after := line.escalateActionless standing loaded cause detail at_
    after.chunk? id = line.chunk? id ∨ id = standing.chunkId ∧ ∃ row row',
      line.chunk? id = some row ∧ after.chunk? id = some row' ∧ row'.graphId = row.graphId ∧
      row'.facts.latestMovement none = row.facts.latestMovement none := by
  dsimp only
  rw [Line.escalateActionless]
  split
  next =>
    split
    next => exact .inl rfl
    next row found =>
      dsimp only
      split
      next => exact .inl rfl
      next =>
        by_cases own : id = standing.chunkId
        · subst own
          exact .inr ⟨rfl, row, ⟨standing.chunkId, row.graphId, _⟩, found,
            (chunk_setChunk _ _).trans (if_pos rfl), rfl, rfl⟩
        · left
          rw [chunk_setChunk, if_neg own]
  next => exact .inl rfl

theorem quiet_escalate {read : FactsById} {v : Standing} {visits : List Standing}
    (quiet : Quiet graphs line pass) (sound : PassSound line.tables pass)
    (stage : pass.stage = .deciding read v visits) (none_ : v.node.action = none)
    (loaded : ChunkFacts) (cause detail : String) (at_ : Instant) :
    Quiet graphs ((line.escalateActionless v loaded cause detail at_).atStage pass
      (.submitting read visits)) { pass with stage := .submitting read visits } := by
  have chunks := @escalateActionless_chunk line v loaded cause detail at_
  refine quiet.handle sound stage ?_ (escalateActionless_tables v loaded cause detail at_).1
    (List.Subset.refl _) (.inr ?_)
  · intro id other
    rcases chunks id with same | ⟨own, -⟩
    · exact congrArg (Option.map (·.stand)) same
    · exact absurd own other
  · intro node epoch visit
    have reads := quiet.reads
    rw [stage] at reads
    obtain ⟨f, row, -, found, same, pinned, hub, -⟩ := reads.2.stand v List.mem_cons_self
    obtain ⟨⟨row', graph, found', pinned', -, hub', -⟩, action⟩ := visit
    replace found' : (line.escalateActionless v loaded cause detail at_).chunk? v.chunkId =
      some row' := found'
    have kept : row'.graphId = row.graphId ∧
        row'.facts.latestMovement none = row.facts.latestMovement none := by
      rcases chunks v.chunkId with same | ⟨-, r, r', before, after_, pins, movement⟩
      · rw [same, found] at found'
        cases found'
        exact ⟨rfl, rfl⟩
      · rw [found] at before
        rw [found'] at after_
        cases before
        cases after_
        exact ⟨pins, movement⟩
    rw [kept.1, pinned] at pinned'
    cases pinned'
    have one : hubNodeOf row'.facts v.graph = hubNodeOf f v.graph := by
      rw [hubNodeOf, hubNodeOf, ChunkFacts.currentNodeId, ChunkFacts.currentNodeId, kept.2,
        movement_of_place same]
    rw [one, hub] at hub'
    cases hub'
    exact action none_

theorem quiet_refuse {read : FactsById} {v : Standing} {visits : List Standing}
    (quiet : Quiet graphs line pass) (sound : PassSound line.tables pass)
    (stage : pass.stage = .deciding read v visits) (row : Option (String × ChunkFacts)) :
    Quiet graphs ((line.setChunk v.chunkId row).atStage
        { pass with refused := pass.refused ++ [v.chunkId] } (.submitting read visits))
      { pass with refused := pass.refused ++ [v.chunkId], stage := .submitting read visits } := by
  refine quiet.handle sound stage ?_ rfl (List.subset_append_left _ _)
    (.inl (List.mem_append_right _ (List.mem_singleton_self _)))
  intro id other
  exact still_setChunk other

/-- A visit that still stands holds under the lock. -/
theorem holds_of_stands {read : FactsById} {v : Standing} (stands : Stands graphs line pass read v) :
    v.holds (line.chunk? v.chunkId) ∧ ∃ row, line.chunk? v.chunkId = some row ∧
      row.facts.status = .delivering ∧
      visitIsCurrent row.facts v.node.nodeId v.epoch := by
  obtain ⟨f, row, -, found, same, pinned, hub, epoch, delivering, -⟩ := stands
  have pins := List.find?_some pinned
  have current : visitIsCurrent row.facts v.node.nodeId v.epoch := by
    rw [← visitIsCurrent_of_place same]
    exact (visitIsCurrent_of_hubNode hub _ _).mpr ⟨rfl, epoch⟩
  have status : row.facts.status = .delivering := (status_of_place same).symm.trans delivering
  refine ⟨?_, row, found, status, current⟩
  rw [found, Standing.holds, deliveringAt]
  simp [status, current, (of_decide_eq_true pins : v.graph.graphId = row.graphId)]

theorem quiet_unsubmitted {read : FactsById} {v : Standing} {visits : List Standing}
    (quiet : Quiet graphs line pass) (stage : pass.stage = .deciding read v visits)
    (taken : line.tables.generation v.chunkId v.node.nodeId v.epoch = none) :
    Quiet graphs (line.atStage pass (.submitting read visits))
      { pass with stage := .submitting read visits } := by
  have reads := quiet.reads
  have waits := quiet.waits
  rw [stage] at reads waits
  refine quiet.advance ?_ ⟨reads.1, reads.2.tail⟩ waits
  intro id node epoch visit covered
  rw [stage] at covered
  rcases covered with settled | ⟨w, inside, chunk, nodeId, epochs⟩
  · exact .inl settled
  · rcases List.mem_cons.mp inside with rfl | rest
    · rw [chunk, nodeId, epochs] at taken
      exact .inl (settled_of_generation _ taken)
    · exact .inr ⟨w, rest, chunk, nodeId, epochs⟩

theorem quiet_skip {read : FactsById} {v : Standing} {visits : List Standing}
    (quiet : Quiet graphs line pass) (stage : pass.stage = .submitting read (v :: visits))
    (taken : line.tables.generation v.chunkId v.node.nodeId v.epoch = none) :
    Quiet graphs (line.atStage pass (.submitting read visits))
      { pass with stage := .submitting read visits } := by
  have probed := quiet_probe quiet stage
  have passed := quiet_unsubmitted probed rfl taken
  exact passed

theorem quiet_submitted {read : FactsById} {v : Standing} {visits : List Standing}
    {tables : FlowTables} {s : SubmissionRow} (quiet : Quiet graphs line pass)
    (stage : pass.stage = .deciding read v visits) (safe : LineInvariant tables)
    (grown : tables.submissions = line.tables.submissions ++ [s])
    (closures : tables.closures = line.tables.closures) (turns : tables.turns = line.tables.turns)
    (before : LineInvariant line.tables)
    (fresh : s.submissionId ∉ line.tables.submissions.map (·.submissionId))
    (chunk : s.chunkId = v.chunkId) (nodeId : s.nodeId = v.node.nodeId) (epoch : s.epoch = v.epoch) :
    Quiet graphs (Line.atStage { line with tables } { pass with submitted := pass.submitted ++ [s] }
        (.submitting read visits))
      { pass with submitted := pass.submitted ++ [s], stage := .submitting read visits } := by
  obtain ⟨covers, reads, waits⟩ := quiet
  rw [stage] at covers reads waits
  obtain ⟨known, stand⟩ := reads
  have still : ∀ id, Still line (Line.atStage { line with tables }
      { pass with submitted := pass.submitted ++ [s] } (.submitting read visits)) id :=
    still_of_chunks rfl
  have stored : s ∈ tables.submissions := by
    rw [grown]
    exact List.mem_append_right _ (List.mem_singleton_self _)
  have open_ : tables.isOpen s.submissionId := by
    rw [FlowTables.isOpen, closures]
    apply isOpen_iff.mpr
    intro closed
    obtain ⟨c, inside, same⟩ := List.mem_map.mp closed
    exact fresh (same ▸ before.keyed.closureOf c inside)
  have kept : ∀ {id node epoch}, Settled line.tables pass.overtaken id node epoch →
      Settled tables pass.overtaken id node epoch := by
    intro id node epoch settled
    by_cases own : s.chunkId = id ∧ s.nodeId = node ∧ s.epoch = epoch
    · obtain ⟨rfl, rfl, rfl⟩ := own
      exact settled_of_open safe _ stored open_
    · obtain ⟨r, newest, closed⟩ := settled
      refine ⟨r, ?_, ?_⟩
      · rw [FlowTables.submissionForVisit, FlowTables.visit, grown, List.filter_append,
          List.filter_cons_of_neg (by simpa using own), List.filter_nil, List.append_nil]
        exact newest
      · rw [FlowTables.closedUnder, closures]
        exact closed
  refine ⟨?_, ⟨?_, ⟨stand.tail.distinct, ?_, ?_⟩⟩, ?_⟩
  · intro id node epoch' visit
    refine (covers id node epoch' (visit.still (still id))).imp_right ?_
    rintro (settled | ⟨w, inside, chunk', nodeId', epoch'⟩)
    · exact .inl (kept settled)
    · rcases List.mem_cons.mp inside with rfl | rest
      · left
        have settled := settled_of_open safe pass.overtaken stored open_
        rw [chunk, nodeId, epoch, chunk', nodeId', epoch'] at settled
        exact settled
      · exact .inr ⟨w, rest, chunk', nodeId', epoch'⟩
  · exact Known.still still (List.Subset.refl _) rfl known
  · exact fun w inside => (stand.stand w (List.mem_cons_of_mem _ inside)).still (still _) rfl
  · intro r listed w inside
    rcases List.mem_append.mp listed with submitted | new
    · exact stand.apart r submitted w (List.mem_cons_of_mem _ inside)
    · rw [List.mem_singleton.mp new, chunk]
      intro same
      exact (List.nodup_cons.mp stand.distinct).1 (List.mem_map.mpr ⟨w, inside, same.symm⟩)
  · intro r inside stays idle
    replace inside : r ∈ tables.submissions := inside
    replace stays : tables.isOpen r.submissionId := stays
    replace idle : ¬tables.hasOpenTurn r.submissionId := idle
    rw [withdrawalFor_of_place (still _).place]
    rw [grown] at inside
    rcases List.mem_append.mp inside with old | new
    · rw [FlowTables.isOpen, closures] at stays
      rw [FlowTables.hasOpenTurn, turns] at idle
      exact waits r old stays idle
    · left
      rw [List.mem_singleton.mp new]
      obtain ⟨-, row, found, delivering, current⟩ := holds_of_stands (stand.stand v List.mem_cons_self)
      rw [chunk, Line.facts, found]
      apply withdrawalFor_of_delivering delivering
      rw [isCurrent, nodeId, epoch]
      exact current

theorem quiet_readTurns {read : FactsById} (quiet : Quiet graphs line pass)
    (stage : pass.stage = .submitting read []) :
    Quiet graphs (line.atStage pass (.turned read
        ((line.tables.turns.filter (·.endedAt = none)).map (·.submissionId))))
      { pass with
        stage := .turned read
          ((line.tables.turns.filter (·.endedAt = none)).map (·.submissionId)) } := by
  have reads := quiet.reads
  have waits := quiet.waits
  rw [stage] at reads waits
  refine quiet.advance ?_ reads.1 ?_
  · intro id node epoch visit covered
    rw [stage] at covered
    rcases covered with settled | ⟨w, inside, -⟩
    · exact settled
    · cases inside
  · intro s inside open_ idle
    refine (waits s inside open_ idle).imp_right fun listed => ⟨listed, ?_⟩
    intro running
    obtain ⟨turn, turning, same⟩ := List.mem_map.mp running
    obtain ⟨stored, still⟩ := List.mem_filter.mp turning
    exact idle (hasOpenTurn_iff.mpr ⟨turn, stored, of_decide_eq_true still, same⟩)

theorem quiet_loadOutside {read : FactsById} {turning : List String}
    (quiet : Quiet graphs line pass) (stage : pass.stage = .turned read turning) :
    Quiet graphs (line.atStage pass (.closing (read ++ line.loadFactsFor
          ((pass.openSubs.map (·.chunkId)).dedup.filter (factsOf read · = none))) turning
            pass.openSubs []))
      { pass with
        stage := .closing (read ++ line.loadFactsFor
          ((pass.openSubs.map (·.chunkId)).dedup.filter (factsOf read · = none))) turning
            pass.openSubs [] } := by
  have reads := quiet.reads
  have waits := quiet.waits
  rw [stage] at reads waits
  refine quiet.advance ?_ ⟨?_, ?_⟩ waits
  · intro id node epoch visit covered
    rw [stage] at covered
    exact covered
  · intro id f found
    rw [factsOf_append] at found
    cases first : factsOf read id with
    | some f' =>
      rw [first, Option.some_or] at found
      cases found
      exact reads id _ first
    | none =>
      rw [first, Option.none_or, factsOf_loadFactsFor] at found
      split at found
      next =>
        obtain ⟨row, chunk, rfl⟩ := Option.map_eq_some_iff.mp found
        exact .inl ⟨row, chunk, rfl⟩
      next => cases found
  · intro s inside missing
    rw [factsOf_append, Option.or_eq_none_iff] at missing
    obtain ⟨first, second⟩ := missing
    rw [factsOf_loadFactsFor, if_pos] at second
    · exact Option.map_eq_none_iff.mp second
    · rw [List.mem_filter, List.mem_dedup, decide_eq_true_iff]
      exact ⟨List.mem_map_of_mem inside, first⟩

/-- The facts a submission is judged by put its chunk where it is, or the pass handled it. -/
theorem judged_by {read : FactsById} {turning : List String} {left stillOpen : List SubmissionRow}
    (reads : Reads graphs line pass (.closing read turning left stillOpen)) {s : SubmissionRow}
    (inside : s ∈ pass.openSubs) :
    withdrawalFor ((factsOf read s.chunkId).getD {}) s = withdrawalFor (line.facts s.chunkId) s ∨
      withdrawalFor ((factsOf read s.chunkId).getD {}) s ≠ none ∧
        (s.chunkId ∈ pass.refused ∨ ∀ node epoch, ¬ActionVisit graphs line s.chunkId node epoch) := by
  obtain ⟨known, missing⟩ := reads
  cases found : factsOf read s.chunkId with
  | none =>
    left
    rw [Line.facts, missing s inside found]
    rfl
  | some f =>
    rcases known _ f found with ⟨row, chunk, same⟩ | ⟨delivering, left, gone⟩
    · left
      rw [Line.facts, chunk]
      exact withdrawalFor_of_place same s
    · exact .inr ⟨withdrawalFor_ne_none delivering (left s inside rfl), gone⟩

theorem quiet_keep {read : FactsById} {turning : List String} {s : SubmissionRow}
    {left stillOpen : List SubmissionRow} (quiet : Quiet graphs line pass)
    (sound : PassSound line.tables pass)
    (stage : pass.stage = .closing read turning (s :: left) stillOpen)
    (stays : withdrawalFor ((factsOf read s.chunkId).getD {}) s = none ∨ s.submissionId ∈ turning) :
    Quiet graphs (line.atStage pass (.closing read turning left (stillOpen ++ [s])))
      { pass with stage := .closing read turning left (stillOpen ++ [s]) } := by
  have reads := quiet.reads
  have waits := quiet.waits
  have accounts := sound.accounts
  rw [stage] at reads waits accounts
  refine quiet.advance ?_ reads ?_
  · intro id node epoch visit covered
    rw [stage] at covered
    exact covered
  · intro r inside open_ idle
    rcases waits r inside open_ idle with keeps | ⟨listed, out⟩
    · exact .inl keeps
    · rcases List.mem_cons.mp listed with rfl | rest
      · left
        have none_ := stays.resolve_right out
        rcases judged_by reads (accounts.2.1 List.mem_cons_self) with same | ⟨leaves, -⟩
        · exact same.symm.trans none_
        · exact absurd none_ leaves
      · exact .inr ⟨rest, out⟩

theorem quiet_close {read : FactsById} {turning : List String} {s : SubmissionRow}
    {left stillOpen : List SubmissionRow} {outcome : Withdrawal} (quiet : Quiet graphs line pass)
    (floored : Floored line) (found : line.pass = some pass)
    (stage : pass.stage = .closing read turning (s :: left) stillOpen)
    (leaves : withdrawalFor ((factsOf read s.chunkId).getD {}) s = some outcome)
    (out : s.submissionId ∉ turning) (at_ : Instant) :
    Quiet graphs
      (Line.atStage
        { line with tables := (line.tables.close s.submissionId outcome at_).getD line.tables } pass
        (.closing read turning left stillOpen))
      { pass with stage := .closing read turning left stillOpen } := by
  have sound := floored.pass pass found
  obtain ⟨covers, reads, waits⟩ := quiet
  have accounts := sound.accounts
  rw [stage] at covers reads waits accounts
  have listed : s ∈ pass.openSubs := accounts.2.1 List.mem_cons_self
  have stored := sound.read listed
  have settles := close_settles (t := line.tables) s.submissionId outcome at_
  have closes := close_closes stored (mt (accounts.1 s.submissionId) out) outcome at_
  have still : ∀ id, Still line (Line.atStage
      { line with tables := (line.tables.close s.submissionId outcome at_).getD line.tables } pass
      (.closing read turning left stillOpen)) id := still_of_chunks rfl
  have others : ∀ id, id ≠ s.submissionId →
      ((line.tables.close s.submissionId outcome at_).getD line.tables).closedUnder id =
        some turnSuperseded → line.tables.closedUnder id = some turnSuperseded := by
    intro id other closed
    cases wrote : line.tables.close s.submissionId outcome at_ with
    | none =>
      rw [wrote] at closed
      exact closed
    | some after =>
      rw [wrote] at closed
      rw [FlowTables.close, if_neg (mt (accounts.1 s.submissionId) out)] at wrote
      obtain ⟨submission, -, -, -, rfl⟩ := closeSubmission_spec wrote
      exact closedUnder_cons_of_ne (t := line.tables) closed other.symm
  have newestOf : ∀ id nodeId epoch,
      ((line.tables.close s.submissionId outcome at_).getD line.tables).submissionForVisit id nodeId
        epoch = line.tables.submissionForVisit id nodeId epoch := by
    intro id nodeId epoch
    rw [FlowTables.submissionForVisit, FlowTables.visit, settles.submissions]
    rfl
  refine ⟨?_, ?_, ?_⟩
  · intro id node epoch visit
    have before := visit.still (still id)
    rcases covers id node epoch before with inside | settled
    · exact .inl inside
    · rcases judged_by reads listed with same | ⟨-, gone⟩
      · right
        obtain ⟨r, newest, closed⟩ := settled
        refine ⟨r, ?_, ?_⟩
        · exact (newestOf _ _ _).trans newest
        · intro superseded
          refine closed (others _ ?_ superseded)
          intro own
          -- the chunk delivers at the visit, so its own submission is not withdrawn
          obtain ⟨inside, visits⟩ := List.mem_filter.mp (List.argmax_mem newest)
          obtain ⟨chunk, nodeId, epochs⟩ := of_decide_eq_true visits
          have one := List.inj_on_of_nodup_map floored.safe.keyed.ids inside stored own
          subst one
          obtain ⟨⟨row, graph, rowFound, -, delivering, hub, epochIs⟩, -⟩ := before
          have keeps : withdrawalFor (line.facts r.chunkId) r = none := by
            rw [chunk, Line.facts, rowFound]
            apply withdrawalFor_of_delivering delivering
            rw [isCurrent, nodeId, epochs]
            exact (visitIsCurrent_of_hubNode hub _ _).mpr ⟨rfl, epochIs⟩
          rw [same, keeps] at leaves
          cases leaves
      · by_cases own : id = s.chunkId
        · rcases gone with inside | gone
          · exact .inl (own ▸ inside)
          · exact absurd (own ▸ before) (gone node epoch)
        · right
          obtain ⟨r, newest, closed⟩ := settled
          refine ⟨r, ?_, ?_⟩
          · exact (newestOf _ _ _).trans newest
          · intro superseded
            refine closed (others _ ?_ superseded)
            intro same
            obtain ⟨inside, visits⟩ := List.mem_filter.mp (List.argmax_mem newest)
            have one := List.inj_on_of_nodup_map floored.safe.keyed.ids inside stored same
            exact own ((of_decide_eq_true visits).1.symm.trans (congrArg _ one))
  · have kept : Reads graphs _ { pass with stage := .closing read turning left stillOpen }
        (.closing read turning left stillOpen) := reads.still still (List.Subset.refl _) rfl rfl
    exact kept
  · intro r inside open_ idle
    replace inside : r ∈ ((line.tables.close s.submissionId outcome at_).getD
      line.tables).submissions := inside
    rw [settles.submissions] at inside
    rw [withdrawalFor_of_place (still _).place]
    have idle' : ¬line.tables.hasOpenTurn r.submissionId := by
      intro running
      apply idle
      cases wrote : line.tables.close s.submissionId outcome at_ with
      | none => exact running
      | some after =>
        show FlowTables.hasOpenTurn _ _
        rw [FlowTables.hasOpenTurn]
        have turns := (close_frame wrote).2.2
        show (FlowTables.turns after).any _ = true
        rw [turns]
        exact running
    rcases waits r inside (settles.isOpen open_) idle' with keeps | ⟨pending, away⟩
    · exact .inl keeps
    · rcases List.mem_cons.mp pending with rfl | rest
      · exact absurd open_ closes
      · exact .inr ⟨rest, away⟩

/-! ## Any step -/

/-- A pass under which no chunk moved and no submit raised is quiet. -/
def Calm (graphs : List Graph) (line : Line) : Prop :=
  ∀ pass, line.pass = some pass → pass.moved = false → pass.raised = false → Quiet graphs line pass

theorem quiet_move (quiet : Quiet graphs line pass) (row : Option (String × ChunkFacts))
    (stays : Still line (line.setChunk id row) id) (moved : Bool) :
    Quiet graphs ((line.setChunk id row).noteMove line id false) { pass with moved } := by
  refine quiet.settles ?_ (Settles.refl _) (fun _ closed _ => closed) ?_ rfl rfl rfl rfl
    (List.Subset.refl _)
  · intro other
    by_cases own : other = id
    · rw [own]
      exact stays
    · exact still_setChunk own
  · exact fun s _ _ idle running => absurd running idle

theorem Calm.changes (floored : Floored line) (calm : Calm graphs line)
    (changes : Changes graphs line after) : Calm graphs after := by
  intro pass' next unmoved unraised
  cases changes with
  | move chunkId row =>
    obtain ⟨pass, found, rfl⟩ := Option.map_eq_some_iff.mp next
    obtain ⟨before, same⟩ := Bool.or_eq_false_iff.mp unmoved
    have stays : Still line (line.setChunk chunkId row) chunkId := by
      rw [decide_eq_false_iff_not, not_not] at same
      exact same.symm
    have quiet := calm pass found (Bool.or_eq_false_iff.mp before).1 unraised
    exact quiet_move quiet row stays _
  | lever chunkId graphId facts outcome at_ =>
    obtain ⟨pass, found, rfl⟩ := Option.map_eq_some_iff.mp next
    have lever := (Bool.or_eq_false_iff.mp (Bool.or_eq_false_iff.mp unmoved).1).2
    cases lever
  | endTurn closes wrote =>
    obtain ⟨pass, found, rfl⟩ := Option.map_eq_some_iff.mp next
    obtain ⟨closures, ends⟩ := turn_ends floored.safe closes wrote
    refine (calm pass found unmoved unraised).settles (still_of_chunks rfl)
      (endTurnLocked_settles wrote) ?_ ends rfl rfl rfl rfl (List.subset_append_left _ _)
    intro s closed missing
    refine (closures s closed).resolve_right ?_
    rintro ⟨rfl, superseded⟩
    apply missing
    rw [if_pos superseded]
    exact List.mem_append_right _ (List.mem_singleton_self _)
  | takeTurn idle wrote =>
    rw [idle] at next
    cases next
  | boot => cases next
  | abort => cases next
  | begin_ idle =>
    cases next
    exact quiet_begin floored
  | listLive found stage =>
    cases next
    exact quiet_listLive (calm _ found unmoved unraised) stage
  | loadFacts found stage =>
    cases next
    exact quiet_loadFacts (calm _ found unmoved unraised) stage
  | readStanding found stage =>
    cases next
    exact quiet_readStanding (calm _ found unmoved unraised) stage
  | skip found stage taken =>
    cases next
    exact quiet_skip (calm _ found unmoved unraised) stage taken
  | probe found stage =>
    cases next
    exact quiet_probe (calm _ found unmoved unraised) stage
  | escalate cause detail at_ found stage none_ =>
    cases next
    exact quiet_escalate (calm _ found unmoved unraised) (floored.pass _ found) stage none_ _ _ _ _
  | raise found stage =>
    cases next
    cases unraised
  | refuse row found stage =>
    cases next
    exact quiet_refuse (calm _ found unmoved unraised) (floored.pass _ found) stage row
  | submit id mint resources at_ found stage =>
    rename_i pass facts standing visits
    rcases submit_cases pass standing id mint resources at_ floored.safe with
      ⟨same, ⟨kept, none_⟩ | raised⟩ |
      ⟨tables, s, same, counted, -, safe, grown, closures, turns, fresh, chunk, nodeId, epoch, -⟩
    · rw [same, kept] at next ⊢
      cases next
      have quiet := calm _ found unmoved unraised
      refine quiet_unsubmitted quiet stage (none_.resolve_left ?_)
      intro gone
      have reads := quiet.reads
      rw [stage] at reads
      rw [(holds_of_stands (reads.2.stand standing List.mem_cons_self)).1] at gone
      cases gone
    · rw [same, raised] at next
      cases next
      cases unraised
    · rw [same, counted] at next ⊢
      cases next
      exact quiet_submitted (calm _ found unmoved unraised) stage safe grown closures turns
        floored.safe fresh chunk nodeId epoch
  | readTurns found stage =>
    cases next
    exact quiet_readTurns (calm _ found unmoved unraised) stage
  | loadOutside found stage =>
    cases next
    exact quiet_loadOutside (calm _ found unmoved unraised) stage
  | keep found stage stays =>
    cases next
    exact quiet_keep (calm _ found unmoved unraised) (floored.pass _ found) stage stays
  | close at_ found stage leaves out =>
    cases next
    exact quiet_close (calm _ found unmoved unraised) floored found stage leaves out at_
  | finish found stage => cases next

theorem calm_run (steps : List Step) :
    ∀ {line : Line}, Floored line → Calm graphs line →
      Floored (line.run graphs steps) ∧ Calm graphs (line.run graphs steps) := by
  induction steps with
  | nil => exact fun floored calm => ⟨floored, calm⟩
  | cons step rest ih =>
    intro line floored calm
    rcases @step_changes line graphs step with same | changes
    · have after := ih floored calm
      rw [← same] at after
      exact after
    · exact ih (floored.changes changes) (calm.changes floored changes)

end Blizzard.FlowSettling
