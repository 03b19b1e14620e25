import Blizzard.ChunkLevers
import Blizzard.DependencyAcyclicity
import Blizzard.EpochFencing

/-! # Exclusive claims

The commands on the hub's chunks, what each does to the route tables, and the
exclusivity of a claim over every run: the claimant's route stays the live one
until a release that is later than it. -/
namespace Blizzard.ClaimExclusivity
open HubTables LatestRows RouteLiveness EpochFence FencedWrites FenceEffects StatusLadder
open FactLoading DependencyEdges DependencyAcyclicity WorkflowGraph ClaimAdmission ChunkLevers
open TransitionRuns EpochFencing

/-- One commit on the hub's chunks. -/
inductive ChunkCommand
  | claim (request : ClaimRequest)
  | release (request : ReleaseRequest)
  | detach (chunkId : ChunkId)
  | releaseHeld (chunkId : ChunkId) (runnerId : RunnerId) (lifecycleStands : Bool)
  | promote (chunkId : ChunkId)
  | demote (chunkId : ChunkId)
  | stop (chunkId : ChunkId) (by_ : String)
  | restart (request : RestartRequest)
  | edge (command : EdgeCommand)
  | write (w : ChunkWrite)

/-- The tables a command commits. -/
def ChunkCommand.exec (tables : Tables) (now : Instant) : ChunkCommand → Tables
  | .claim request => (ClaimAdmission.claim tables request now).1
  | .release request => (ChunkLevers.release tables request now).1
  | .detach chunkId => (ChunkLevers.detach tables chunkId now).1
  | .releaseHeld chunkId runnerId stands =>
    (ChunkLevers.releaseHeld tables chunkId runnerId stands now).1
  | .promote chunkId => (ChunkLevers.promote tables chunkId now).1
  | .demote chunkId => (ChunkLevers.demote tables chunkId now).1
  | .stop chunkId by_ => (ChunkLevers.stop tables chunkId by_ now).1
  | .restart request => (ChunkLevers.restart tables request now).1
  | .edge command => command.exec tables now
  | .write w => (FenceEffects.exec tables now w).1

/-- A route is only ever written by an admitted claim. -/
def ChunkCommand.isService : ChunkCommand → Bool
  | .write (.claim _) => false
  | _ => true

/-- A command at a clock reading no earlier than the last one. -/
def CommandStep (hub : Hub) (event : Instant × ChunkCommand) (hub' : Hub) : Prop :=
  hub.now ≤ event.1 ∧ event.2.isService = true ∧ hub' = ⟨event.1, event.2.exec hub.tables event.1⟩

/-- No route is created, and releases are stamped with the write's own instant. -/
def RoutesQuiet (tables tables' : Tables) (now : Instant) : Prop :=
  tables'.routeCreated = tables.routeCreated ∧
    ∃ released, tables'.routeReleased = tables.routeReleased ++ released ∧
      ∀ row ∈ released, row.releasedAt = now

theorem RoutesQuiet.of_eq {tables tables' : Tables} {now : Instant}
    (created : tables'.routeCreated = tables.routeCreated)
    (released : tables'.routeReleased = tables.routeReleased) : RoutesQuiet tables tables' now :=
  ⟨created, [], by simp [released], by simp⟩

theorem RoutesQuiet.refl (tables : Tables) (now : Instant) : RoutesQuiet tables tables now :=
  .of_eq rfl rfl

theorem RoutesQuiet.trans {t u v : Tables} {now : Instant} (h : RoutesQuiet t u now)
    (h' : RoutesQuiet u v now) : RoutesQuiet t v now := by
  obtain ⟨created, rel, eq, stamped⟩ := h
  obtain ⟨created', rel', eq', stamped'⟩ := h'
  refine ⟨created'.trans created, rel ++ rel', by rw [eq', eq, List.append_assoc], ?_⟩
  intro row hrow
  rcases List.mem_append.mp hrow with old | new
  · exact stamped row old
  · exact stamped' row new

theorem routesQuiet_released (tables : Tables) (chunkId : ChunkId) (cause reason : Option String)
    (now : Instant) :
    RoutesQuiet tables (recordRouteReleasedConn tables chunkId cause reason now) now :=
  ⟨rfl, [⟨chunkId, now, nextRouteSeq tables chunkId, cause, reason⟩], rfl, by simp⟩

/-- Every write but a claim leaves the created routes alone. -/
theorem routesQuiet_write {w : ChunkWrite} (free : ∀ route, w ≠ .claim route) (tables : Tables)
    (now : Instant) : RoutesQuiet tables (FenceEffects.exec tables now w).1 now := by
  have effect := exec_effect tables now w
  generalize (FenceEffects.exec tables now w).1 = tables' at effect ⊢
  cases effect with
  | quiet appends stamped => exact ⟨by simpa using appends.created_eq, _, appends.released_eq, stamped⟩
  | claim => exact absurd rfl (free _)
  | mint _ appends => exact .of_eq (by simpa using appends.created_eq) (by simpa using appends.released_eq)
  | restart appends _ _ =>
    exact .of_eq (by simpa using appends.created_eq) (by simpa using appends.released_eq)
  | hubLease appends stamped =>
    exact ⟨by simpa using appends.created_eq, _, appends.released_eq, stamped⟩

theorem routesQuiet_insertDependency {tables tables' : Tables} {row : DependencyRow} {now : Instant}
    (h : insertDependency tables row = some tables') : RoutesQuiet tables tables' now := by
  unfold insertDependency at h
  split at h
  · cases h
  · rw [← Option.some.inj h]
    exact .of_eq rfl rfl

theorem routesQuiet_mintFoldEdges {ids : ℕ → String} {mints : List FoldMint}
    {state state' : Tables × ℕ} (now : Instant) (h : mints.foldlM (mintFoldEdge ids) state = some state') :
    RoutesQuiet state.1 state'.1 now := by
  induction mints generalizing state with
  | nil =>
    obtain rfl := Option.some.inj h
    exact .refl _ _
  | cons mint mints ih =>
    rw [List.foldlM_cons, Option.bind_eq_bind, Option.bind_eq_some_iff] at h
    obtain ⟨next, first, rest⟩ := h
    obtain ⟨tables', inserted, rfl⟩ := Option.map_eq_some_iff.mp first
    exact (routesQuiet_insertDependency inserted).trans (ih rest)

theorem routesQuiet_recordFold {plan : FoldEdgePlan} {into : ChunkId} {ids : ℕ → String}
    {now : Instant} {targets : List ChunkId} {state state' : Tables × ℕ}
    (h : targets.foldlM (recordFoldTarget plan into ids now) state = some state') :
    RoutesQuiet state.1 state'.1 now := by
  induction targets generalizing state with
  | nil =>
    obtain rfl := Option.some.inj h
    exact .refl _ _
  | cons target targets ih =>
    rw [List.foldlM_cons, Option.bind_eq_bind, Option.bind_eq_some_iff] at h
    obtain ⟨next, first, rest⟩ := h
    unfold recordFoldTarget at first
    have minted := routesQuiet_mintFoldEdges now first
    exact ((RoutesQuiet.of_eq rfl rfl).trans minted).trans (ih rest)

theorem routesQuiet_edge (tables : Tables) (now : Instant) (command : EdgeCommand) :
    RoutesQuiet tables (command.exec tables now) now := by
  cases command with
  | declare dependent prerequisite by_ dependencyId =>
    simp only [EdgeCommand.exec, declare]
    split
    · split
      · exact .refl _ _
      · rename_i inserted
        exact routesQuiet_insertDependency inserted
    · exact .refl _ _
  | release dependent prerequisite by_ =>
    simp only [EdgeCommand.exec, DependencyEdges.release]
    split
    · exact .refl _ _
    · exact .of_eq rfl rfl
  | group survivor mergeIds ids =>
    simp only [EdgeCommand.exec, group]
    split
    · exact .refl _ _
    · split
      · exact .refl _ _
      · split
        · exact .refl _ _
        · split
          · exact .refl _ _
          · rename_i recorded
            exact routesQuiet_recordFold recorded
  | delete chunkId by_ =>
    simp only [EdgeCommand.exec, deleteChunk]
    split
    · exact .refl _ _
    · split
      · exact .refl _ _
      · split
        · exact .refl _ _
        · exact .of_eq rfl rfl

theorem routesQuiet_restart (tables : Tables) (request : RestartRequest) (now : Instant) :
    RoutesQuiet tables (ChunkLevers.restart tables request now).1 now := by
  unfold ChunkLevers.restart
  split
  · split
    · exact .refl _ _
    · rename_i write _
      have moves : RoutesQuiet tables (recordRestartConn tables write now).1 now :=
        routesQuiet_write (w := .restart write) (by simp) tables now
      split
      · rename_i moved done
        rw [done] at moves
        have arrives : RoutesQuiet moved (openGraphGateOnArrival moved request.chunkId
            (request.toGraph.getD request.graph) write.toNodeId
            (((loadFacts moved request.chunkId).bind (·.latestEpoch)).getD 0) request.decisionId
            none now).1 now := by
          unfold openGraphGateOnArrival
          split
          · exact routesQuiet_write (w := .decision _) (by simp) moved now
          · exact .refl _ _
        dsimp only
        split
        · rename_i gated arrived
          rw [arrived] at arrives
          exact moves.trans arrives
        · rename_i gated arrived
          rw [arrived] at arrives
          exact moves.trans arrives
        · exact .refl _ _
      · exact .refl _ _
  · exact .refl _ _

/-- Every command but an admitted claim leaves the created routes alone. -/
theorem routesQuiet_exec {command : ChunkCommand} (service : command.isService = true)
    (tables : Tables) (now : Instant)
    (unclaimed : ∀ request node, command = .claim request →
      (ClaimAdmission.claim tables request now).2 ≠ .ok node) :
    RoutesQuiet tables (command.exec tables now) now := by
  cases command with
  | claim request =>
    cases judged : (ClaimAdmission.claim tables request now).2 with
    | ok node => exact absurd judged (unclaimed request node rfl)
    | error refusal =>
      rw [ChunkCommand.exec, claim_eq_error judged]
      exact .refl _ _
  | release request =>
    simp only [ChunkCommand.exec, ChunkLevers.release]
    split
    · exact .refl _ _
    · split
      · exact .refl _ _
      · exact routesQuiet_released ..
  | detach chunkId =>
    simp only [ChunkCommand.exec, ChunkLevers.detach]
    split
    · exact .refl _ _
    · split
      · exact .refl _ _
      · exact routesQuiet_released ..
  | releaseHeld chunkId runnerId stands =>
    simp only [ChunkCommand.exec, ChunkLevers.releaseHeld]
    split
    · exact .refl _ _
    · split
      · exact .refl _ _
      · exact routesQuiet_released ..
  | promote chunkId =>
    simp only [ChunkCommand.exec, ChunkLevers.promote]
    split
    · exact .refl _ _
    · split
      · exact .refl _ _
      · split
        · exact .refl _ _
        · exact .of_eq rfl rfl
  | demote chunkId =>
    simp only [ChunkCommand.exec, ChunkLevers.demote]
    split
    · exact .refl _ _
    · split
      · exact .refl _ _
      · split
        · exact .refl _ _
        · exact .of_eq rfl rfl
  | stop chunkId by_ =>
    simp only [ChunkCommand.exec, ChunkLevers.stop]
    split
    · exact .refl _ _
    · split
      · exact .refl _ _
      · exact routesQuiet_write (w := .stop chunkId by_) (by simp) tables now
  | restart request => exact routesQuiet_restart tables request now
  | edge command => exact routesQuiet_edge tables now command
  | write w =>
    refine routesQuiet_write (fun route claims => ?_) tables now
    rw [claims] at service
    cases service

/-- No route row is stamped after the last clock reading. -/
structure RouteClock (hub : Hub) : Prop where
  created : ∀ row ∈ hub.tables.routeCreated, row.createdAt ≤ hub.now
  released : ∀ row ∈ hub.tables.routeReleased, row.releasedAt ≤ hub.now

theorem routeClock_minted (now : Instant) (chunks : ChunkTable) (graphNodes : List GraphNodeRow) :
    RouteClock ⟨now, .minted chunks graphNodes⟩ := by
  constructor <;> simp [Tables.minted]

theorem RouteClock.later {hub : Hub} {now : Instant} (clock : RouteClock hub)
    (later : hub.now ≤ now) : RouteClock ⟨now, hub.tables⟩ where
  created row hrow := (clock.created row hrow).trans later
  released row hrow := (clock.released row hrow).trans later

theorem RouteClock.quiet {tables tables' : Tables} {now : Instant}
    (clock : RouteClock ⟨now, tables⟩) (quiet : RoutesQuiet tables tables' now) :
    RouteClock ⟨now, tables'⟩ := by
  obtain ⟨created, released, eq, stamped⟩ := quiet
  constructor
  · intro row hrow
    exact clock.created row (created ▸ hrow)
  · intro row hrow
    rcases List.mem_append.mp (eq ▸ hrow) with old | new
    · exact clock.released row old
    · exact (stamped row new).le

/-- `row` is the chunk's newest route and no release is later: it is the live route. -/
structure HeldBy (tables : Tables) (chunkId : ChunkId) (row : RouteCreatedRow) : Prop where
  newest : Newest createdKey (createdRows tables chunkId) row
  unreleased : ∀ rel ∈ releasedRows tables chunkId, ¬ createdKey row < releasedKey rel

theorem HeldBy.routeOf {tables : Tables} {chunkId : ChunkId} {row : RouteCreatedRow}
    (held : HeldBy tables chunkId row) :
    ∃ route, routeOf tables chunkId = some route ∧ route.runnerId = row.runnerId ∧
      route.routeId = row.routeId :=
  routeOf_of_newest held.newest held.unreleased

/-- The route a claim writes is the chunk's live one. -/
theorem heldBy_claimed {tables : Tables} {now : Instant} (clock : RouteClock ⟨now, tables⟩)
    (route : RouteClaim) :
    ∃ row, HeldBy (recordRouteConn tables route now) route.chunkId row ∧
      row.runnerId = route.runnerId ∧ row.routeId = route.routeId ∧
      RouteClock ⟨now, recordRouteConn tables route now⟩ := by
  let row : RouteCreatedRow := ⟨route.routeId, route.chunkId, route.runnerId, route.workspaceId, now,
    nextRouteSeq tables route.chunkId⟩
  have created : (recordRouteConn tables route now).routeCreated = tables.routeCreated ++ [row] := by
    simp only [recordRouteConn, recordEpochOwner]
    split <;> rfl
  have released : (recordRouteConn tables route now).routeReleased = tables.routeReleased := by
    simp only [recordRouteConn, recordEpochOwner]
    split <;> rfl
  have rows : createdRows (recordRouteConn tables route now) route.chunkId =
      createdRows tables route.chunkId ++ [row] := by
    simp [createdRows, created, List.filter_append, row]
  have key : createdKey row = toLex (now, nextRouteSeq tables route.chunkId) := rfl
  refine ⟨row, ⟨?_, ?_⟩, rfl, rfl, ?_, ?_⟩
  · rw [rows]
    refine Newest.append_newer fun other hother => ?_
    exact createdKey_lt_next hother (clock.created other (mem_createdRows.mp hother).1)
  · intro rel hrel
    have old : rel ∈ releasedRows tables route.chunkId := by
      rwa [mem_releasedRows, released, ← mem_releasedRows] at hrel
    rw [key]
    exact (releasedKey_lt_next old (clock.released rel (mem_releasedRows.mp old).1)).not_gt
  · intro other hother
    rcases List.mem_append.mp (created ▸ hother) with old | new
    · exact clock.created other old
    · rw [List.mem_singleton.mp new]
  · intro rel hrel
    exact clock.released rel (released ▸ hrel)

/-- One command keeps the clock invariant. -/
theorem routeClock_step {hub hub' : Hub} {event : Instant × ChunkCommand}
    (step : CommandStep hub event hub') (clock : RouteClock hub) : RouteClock hub' := by
  obtain ⟨now, command⟩ := event
  obtain ⟨later, service, rfl⟩ := step
  have current := clock.later later
  by_cases claimed : ∃ request node, command = .claim request ∧
      (ClaimAdmission.claim hub.tables request now).2 = .ok node
  · obtain ⟨request, node, rfl, won⟩ := claimed
    obtain ⟨_, _, _, _, clocked⟩ := heldBy_claimed current request.route
    simpa only [ChunkCommand.exec, (claim_eq_ok won).1] using clocked
  · refine current.quiet (routesQuiet_exec service _ now fun request node same won => ?_)
    exact claimed ⟨request, node, same, won⟩

/-- A command that ends a holding leaves no live route, and wrote a release after it. -/
theorem heldBy_lost {hub hub' : Hub} {event : Instant × ChunkCommand} {chunkId : ChunkId}
    {row : RouteCreatedRow} (step : CommandStep hub event hub')
    (held : HeldBy hub.tables chunkId row) (lost : ¬ HeldBy hub'.tables chunkId row) :
    routeOf hub'.tables chunkId = none ∧
      ∃ rel ∈ hub'.tables.routeReleased, rel ∉ hub.tables.routeReleased ∧ rel.chunkId = chunkId := by
  obtain ⟨now, command⟩ := event
  obtain ⟨later, service, rfl⟩ := step
  have created : createdRows (command.exec hub.tables now) chunkId =
      createdRows hub.tables chunkId := by
    by_cases claimed : ∃ request node, command = .claim request ∧
        (ClaimAdmission.claim hub.tables request now).2 = .ok node
    · -- a claim won on another chunk: this one has a live route
      obtain ⟨request, node, rfl, won⟩ := claimed
      obtain ⟨writes, -, unheld, -⟩ := claim_eq_ok won
      have other : request.route.chunkId ≠ chunkId := by
        rintro rfl
        obtain ⟨route, live, -, -⟩ := held.routeOf
        rw [unheld] at live
        cases live
      rw [ChunkCommand.exec, writes]
      obtain ⟨row', appends, same, -, -, -⟩ := claim_rows hub.tables request.route now
      rw [createdRows, appends.created_eq, List.filter_append]
      simp [createdRows, same, other]
    · have quiet := routesQuiet_exec service hub.tables now fun request node same won =>
        claimed ⟨request, node, same, won⟩
      rw [createdRows, quiet.1]
      rfl
  have newest : Newest createdKey (createdRows (command.exec hub.tables now) chunkId) row :=
    created ▸ held.newest
  have released : ∃ rel ∈ releasedRows (command.exec hub.tables now) chunkId,
      createdKey row < releasedKey rel := by
    by_contra none
    exact lost ⟨newest, fun rel hrel above => none ⟨rel, hrel, above⟩⟩
  obtain ⟨rel, hrel, above⟩ := released
  obtain ⟨mem, same⟩ := mem_releasedRows.mp hrel
  constructor
  · cases live : routeOf (command.exec hub.tables now) chunkId with
    | none => rfl
    | some route =>
      obtain ⟨last, hlast, -, -, open_⟩ := routeOf_eq_some live
      rw [newest.unbeaten_getLast?] at hlast
      obtain rfl := Option.some.inj hlast
      exact absurd above (open_ rel hrel)
  · exact ⟨rel, mem, fun old => held.unreleased rel (mem_releasedRows.mpr ⟨old, same⟩) above, same⟩

/-- A chunk with a live route does not load as ready. -/
theorem not_ready_of_routeOf {tables : Tables} {chunkId : ChunkId} {facts : ChunkFacts}
    (live : (routeOf tables chunkId).isSome = true) (loaded : loadFacts tables chunkId = some facts) :
    facts.status ≠ .ready := by
  unfold loadFacts loadChunkFacts at loaded
  split at loaded
  · obtain rfl := Option.some.inj loaded
    exact (status_of_hasLiveRoute ((hasLiveRoute_eq_routeOf_isSome tables chunkId).trans live)).1
  · cases loaded

/-- In every reachable state a claim is won only on a ready, unheld chunk whose prerequisites are
all done; it leaves the chunk routed to its runner and not ready; and whenever a later claim of the
chunk is won, some command in between released the first one's live route. -/
theorem exclusive_claim {start : Instant} {chunks : ChunkTable} {graphNodes : List GraphNodeRow}
    {events : List (Instant × ChunkCommand)} {hub : Hub}
    (run : Runs CommandStep ⟨start, .minted chunks graphNodes⟩ events hub)
    {request : ClaimRequest} {now : Instant} {node : Node} {claimed : Hub}
    (step : CommandStep hub (now, .claim request) claimed)
    (won : (ClaimAdmission.claim hub.tables request now).2 = .ok node) :
    (∃ facts, loadFacts hub.tables request.route.chunkId = some facts ∧ facts.status = .ready) ∧
    routeOf hub.tables request.route.chunkId = none ∧
    (∀ e ∈ hub.tables.chunkDependencies, standing e = true →
      e.dependentChunkId = request.route.chunkId →
        ∃ facts, loadFacts hub.tables e.prerequisiteChunkId = some facts ∧ facts.status = .done) ∧
    (∃ route, routeOf claimed.tables request.route.chunkId = some route ∧
      route.runnerId = request.route.runnerId ∧ route.routeId = request.route.routeId) ∧
    (∀ facts, loadFacts claimed.tables request.route.chunkId = some facts → facts.status ≠ .ready) ∧
    ∀ between hub' again now' node', Runs CommandStep claimed between hub' →
      (ClaimAdmission.claim hub'.tables again now').2 = .ok node' →
      again.route.chunkId = request.route.chunkId →
        ∃ before event after held freed, between = before ++ event :: after ∧
          Runs CommandStep claimed before held ∧ CommandStep held event freed ∧
          Runs CommandStep freed after hub' ∧
          (∃ route, routeOf held.tables request.route.chunkId = some route ∧
            route.runnerId = request.route.runnerId ∧ route.routeId = request.route.routeId) ∧
          routeOf freed.tables request.route.chunkId = none ∧
          ∃ rel ∈ freed.tables.routeReleased, rel ∉ held.tables.routeReleased ∧
            rel.chunkId = request.route.chunkId := by
  have clock : RouteClock hub :=
    run.invariant (fun _ _ _ step => routeClock_step step) (routeClock_minted ..)
  obtain ⟨later, -, rfl⟩ := step
  obtain ⟨writes, ready, unheld, met⟩ := claim_eq_ok won
  obtain ⟨row, held, holder, routed, -⟩ := heldBy_claimed (clock.later later) request.route
  have held : HeldBy (ChunkCommand.exec hub.tables now (.claim request)) request.route.chunkId row := by
    rw [ChunkCommand.exec, writes]
    exact held
  obtain ⟨route, live, runner, id⟩ := held.routeOf
  refine ⟨ready, unheld, met, ⟨route, live, runner.trans holder, id.trans routed⟩, ?_, ?_⟩
  · intro facts loaded
    exact not_ready_of_routeOf (by rw [live]; rfl) loaded
  · intro between hub' again now' node' more won' same
    have lost : ¬ HeldBy hub'.tables request.route.chunkId row := fun still => by
      obtain ⟨route', live', -, -⟩ := still.routeOf
      rw [← same, (claim_eq_ok won').2.2.1] at live'
      cases live'
    obtain ⟨before, event, after, u, v, cut, first, kept, release, gone, rest⟩ :=
      more.first_loss (P := fun hub => HeldBy hub.tables request.route.chunkId row) held lost
    obtain ⟨freed, rel, hrel, fresh, on⟩ := heldBy_lost release kept gone
    obtain ⟨route', live', runner', id'⟩ := kept.routeOf
    exact ⟨before, event, after, u, v, cut, first, release, rest,
      ⟨route', live', runner'.trans holder, id'.trans routed⟩, freed, rel, hrel, fresh, on⟩

/-- `r1` claims the promoted chunk, an operator detaches it, and `r2` claims it. -/
theorem exclusive_claim_reclaimed : ∃ claimed freed route,
    routeOf claimed.tables "ch" = some route ∧ route.runnerId = "r1" ∧
    Runs CommandStep claimed [(3, .detach "ch")] freed ∧ routeOf freed.tables "ch" = none := by
  let node : Node := { nodeId := "nd", graphId := "gr", name := "build", executor := .runner }
  let registration (runnerId : RunnerId) : RunnerRegistration :=
    ⟨runnerId, some 0, false, false, none, [some "pj"]⟩
  let request (routeId : String) (runnerId : RunnerId) : ClaimRequest :=
    { route := ⟨routeId, "ch", runnerId, "ws", [], "t"⟩
      peeked := some (registration runnerId)
      registration := some (registration runnerId)
      graphs := fun _ => some ⟨"gr", "g", "nd", [node], []⟩
      eligible := fun _ _ _ => true }
  let start : Hub := ⟨0, .minted ⟨[⟨"ch", "pj", "gr", none⟩], by decide⟩ []⟩
  let promoted : Hub := ⟨1, ChunkCommand.exec start.tables 1 (.promote "ch")⟩
  let claimed : Hub := ⟨2, ChunkCommand.exec promoted.tables 2 (.claim (request "rt1" "r1"))⟩
  let freed : Hub := ⟨3, ChunkCommand.exec claimed.tables 3 (.detach "ch")⟩
  have run : Runs CommandStep start [(1, .promote "ch")] promoted := .single ⟨by decide, rfl, rfl⟩
  have step : CommandStep promoted (2, .claim (request "rt1" "r1")) claimed := ⟨by decide, rfl, rfl⟩
  have won : (ClaimAdmission.claim promoted.tables (request "rt1" "r1") 2).2 = .ok node := by
    decide +kernel
  have wonAgain : (ClaimAdmission.claim freed.tables (request "rt2" "r2") 4).2 = .ok node := by
    decide +kernel
  have detached : Runs CommandStep claimed [(3, .detach "ch")] freed :=
    .single ⟨by decide, rfl, rfl⟩
  obtain ⟨-, -, -, ⟨route, live, holder, -⟩, -, later⟩ := exclusive_claim run step won
  obtain ⟨-, -, -, -, -, -, -, -, -, -, -, rel, -⟩ := later _ freed _ 4 node detached wonAgain rfl
  exact ⟨claimed, freed, route, live, holder, detached, by decide +kernel⟩

end Blizzard.ClaimExclusivity
