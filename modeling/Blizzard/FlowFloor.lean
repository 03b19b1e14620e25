import Blizzard.FlowSettling

/-! # What a reconcile comes to

The floor a driver's reconciles read from never passes a submission that is still open, and a
reconcile that no chunk moved under leaves each visit submitted, refused or answered. -/
namespace Blizzard.FlowFloor
open HubTables StatusLadder WorkflowGraph FlowLines FlowSafety FlowExclusion FlowReconcile
open FlowConvergence FlowSettling

theorem floored_empty : Floored {} where
  safe := lineInvariant_empty
  above := fun _ inside => nomatch inside
  below := fun n _ => Nat.zero_le n
  pass := fun _ found => nomatch found

theorem calm_empty (graphs : List Graph) : Calm graphs {} := fun _ found => nomatch found

/-- A settled visit has an open submission, or its newest was closed as it should be. -/
theorem settled_cases {t : FlowTables} {overtaken : List String} {id : ChunkId} {nodeId : String}
    {epoch : ℤ} (settled : Settled t overtaken id nodeId epoch) :
    (∃ s ∈ t.visit id nodeId epoch, t.isOpen s.submissionId) ∨
      ∃ s outcome, t.submissionForVisit id nodeId epoch = some s ∧
        t.closedUnder s.submissionId = some outcome ∧
        (outcome ≠ turnSuperseded ∨ s.submissionId ∈ overtaken) := by
  obtain ⟨s, newest, closed⟩ := settled
  cases outcome : t.closedUnder s.submissionId with
  | none =>
    refine .inl ⟨s, List.argmax_mem newest, ?_⟩
    apply isOpen_iff.mpr
    intro inside
    obtain ⟨c, listed, same⟩ := List.mem_map.mp inside
    rw [FlowTables.closedUnder, Option.map_eq_none_iff, List.find?_eq_none] at outcome
    exact outcome c listed (decide_eq_true same)
  | some outcome' =>
    refine .inr ⟨s, outcome', newest, outcome, ?_⟩
    by_cases superseded : outcome' = turnSuperseded
    · exact .inr (closed (superseded ▸ outcome))
    · exact .inl superseded

/-- In every run of the driver's reconciles, whatever moves, ends or is pulled between their steps,
the floor is at or under every open submission. A reconcile that no chunk moved under and no
submit raised in leaves every chunk delivering at a hub node with an action with an open
submission for its visit, refused, or with its newest closed otherwise than `superseded`, unless
the submission's own turn closed it so meanwhile; and no submission without a turn that its chunk
withdraws. -/
theorem reconcile_converges (graphs : List Graph) (steps : List Step) :
    let line := ({} : Line).run graphs steps
    (∀ s ∈ line.tables.submissions, line.tables.isOpen s.submissionId →
      line.floor ≤ s.arrival) ∧
    ∀ pass facts turning stillOpen, line.pass = some pass →
      pass.stage = .closing facts turning [] stillOpen → pass.moved = false →
      pass.raised = false →
      let after := line.step graphs (.advance .finish)
      (∀ id row graph node, after.chunk? id = some row →
        graphs.find? (·.graphId = row.graphId) = some graph → row.facts.status = .delivering →
        hubNodeOf row.facts graph = some node → node.action ≠ none →
        let epoch := row.facts.latestEpoch.getD 0
        (∃ s ∈ after.tables.visit id node.nodeId epoch, after.tables.isOpen s.submissionId) ∨
        id ∈ pass.refused ∨
        ∃ s outcome, after.tables.submissionForVisit id node.nodeId epoch = some s ∧
          after.tables.closedUnder s.submissionId = some outcome ∧
          (outcome ≠ turnSuperseded ∨ s.submissionId ∈ pass.overtaken)) ∧
      (∀ s ∈ after.tables.submissions, after.tables.isOpen s.submissionId →
        ¬after.tables.hasOpenTurn s.submissionId →
        withdrawalFor (after.facts s.chunkId) s = none) := by
  intro line
  obtain ⟨floored, calm⟩ := calm_run steps floored_empty (calm_empty graphs)
  refine ⟨floored.above, ?_⟩
  intro pass facts turning stillOpen found stage unmoved unraised after
  have quiet := calm pass found unmoved unraised
  have finished : after = { line with
      floor := nextFloor line.floor pass.openSubs (stillOpen ++ pass.submitted)
      pass := none } := by
    show line.step graphs (.advance .finish) = _
    rw [Line.step, found]
    show Line.advance line graphs pass .finish = _
    rw [Line.advance, stage]
  rw [finished]
  have visits := quiet.visits
  have waits := quiet.waits
  rw [stage] at visits waits
  refine ⟨?_, ?_⟩
  · intro id row graph node chunk pinned delivering hub action epoch
    have visit : ActionVisit graphs line id node epoch :=
      ⟨⟨row, graph, chunk, pinned, delivering, hub, rfl⟩, action⟩
    rcases visits id node epoch visit with refused | settled
    · exact .inr (.inl refused)
    · exact (settled_cases settled).imp_right .inr
  · intro s inside open_ idle
    rcases waits s inside open_ idle with none_ | pending
    · exact none_
    · cases pending.1

/-- A chunk delivering at a hub node that names an action. -/
private def landing : ChunkFacts where
  promoted := true
  transitions := [⟨"deliver", .hub, 1, 1, some "build", some "done", "g", "tr"⟩]

private def landingGraph : Graph where
  graphId := "g"
  name := "ship"
  entryNodeId := "build"
  nodes := [{ nodeId := "deliver", graphId := "g", name := "deliver", executor := .hub,
              action := some "land" }]
  edges := []

/-- A reconcile submits the visit and it takes its turn; while the next reconcile runs, after it
read the submission open, the turn finds its resources moved. -/
private def overtakenSteps : List Step :=
  [.move "c" (some ("g", landing)),
   .begin_, .advance .listLive, .advance .loadFacts, .advance .readStanding, .advance .probe,
   .advance (.decide (.holds "s" (fun _ => "f") [⟨"r", "main"⟩]) 2),
   .advance .readTurns, .advance .loadOutside, .advance .finish,
   .takeTurn "t" "s" [] [] 3,
   .begin_, .advance .listLive, .advance .loadFacts, .advance .readStanding,
   .endTurn "t" turnSuperseded (some turnSuperseded) 4,
   .advance .readTurns, .advance .loadOutside, .advance (.close 5)]

/-- A reconcile that no chunk moved under can leave a visit with no open submission, neither
refused nor answered: its turn closed it `superseded` after the pass saw it in line. -/
theorem overtaken_visit_unsubmitted :
    let line := ({} : Line).run [landingGraph] overtakenSteps
    let after := line.step [landingGraph] (.advance .finish)
    line.pass.map (fun pass => (pass.moved, pass.raised, pass.refused)) =
      some (false, false, []) ∧ after.pass = none ∧
    (after.chunk? "c").map (fun row => (row.facts.status, hubNodeOf row.facts landingGraph,
      row.facts.latestEpoch.getD 0)) = some (.delivering, landingGraph.nodes.head?, 0) ∧
    (∀ s ∈ after.tables.visit "c" "deliver" 0, after.tables.isOpen s.submissionId = false) ∧
    (after.tables.submissionForVisit "c" "deliver" 0).map
      (fun s => after.tables.closedUnder s.submissionId) = some (some turnSuperseded) := by
  decide +kernel

end Blizzard.FlowFloor
