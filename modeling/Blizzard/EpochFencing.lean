import Blizzard.FenceEffects
import Blizzard.TransitionRuns

/-! # Epoch fencing over runs

The invariant of the fencing tables, what a run keeps, and what a displaced
runner can no longer write. Each step is read through its effect alone. -/
namespace Blizzard.EpochFencing
open HubTables LatestRows RouteLiveness EpochFence FencedWrites FenceEffects TransitionRuns

/-- The hub's tables and the last clock reading a write was stamped with. -/
structure Hub where
  now : Instant
  tables : Tables

/-- A write stamped with a clock reading no earlier than the last one. -/
def HubStep (hub : Hub) (event : Instant × ChunkWrite) (hub' : Hub) : Prop :=
  hub.now ≤ event.1 ∧ hub' = ⟨event.1, (exec hub.tables event.1 event.2).1⟩

/-- The hub after a sequence of writes. -/
def Hub.after (hub : Hub) (events : List (Instant × ChunkWrite)) : Hub :=
  events.foldl (fun hub event => ⟨event.1, (exec hub.tables event.1 event.2).1⟩) hub

/-- Writes stamped by a clock that never steps back are a run. -/
theorem runs_after {hub : Hub} {events : List (Instant × ChunkWrite)}
    (clock : (hub.now :: events.map (·.1)).Pairwise (· ≤ ·)) :
    Runs HubStep hub events (hub.after events) := by
  induction events generalizing hub with
  | nil => exact .nil hub
  | cons event events ih =>
    obtain ⟨first, rest⟩ := List.pairwise_cons.mp clock
    exact .cons ⟨first event.1 (by simp), rfl⟩ (ih rest)

/-- What every reachable hub state satisfies. -/
structure FencingInvariant (hub : Hub) : Prop where
  created_stamped : ∀ row ∈ hub.tables.routeCreated, row.createdAt ≤ hub.now
  restart_pos : ∀ row ∈ hub.tables.chunkRestarts, 1 ≤ row.epoch
  runner_pos : ∀ row ∈ hub.tables.epochOwners, row.runnerId ≠ none → 1 ≤ row.epoch
  owner_unique : hub.tables.epochOwners.Pairwise fun a b => a.chunkId = b.chunkId → a.epoch ≠ b.epoch

theorem fencingInvariant_minted (now : Instant) (chunks : ChunkTable)
    (graphNodes : List GraphNodeRow) : FencingInvariant ⟨now, .minted chunks graphNodes⟩ := by
  constructor <;> simp [Tables.minted]

theorem latestEpoch_nonneg {tables : Tables}
    (h : ∀ row ∈ tables.chunkRestarts, 1 ≤ row.epoch) (chunkId : ChunkId) :
    0 ≤ latestEpoch tables chunkId := by
  have restarts : 0 ≤ maxOrZero (restartEpochs tables chunkId) := by
    refine maxOrZero_nonneg fun epoch hepoch => ?_
    simp only [restartEpochs, List.mem_map, List.mem_filter] at hepoch
    obtain ⟨row, ⟨hrow, -⟩, rfl⟩ := hepoch
    have := h row hrow
    omega
  exact restarts.trans ((le_max_right _ _).trans (le_max_left _ _))

/-- Appending an owner for an unowned epoch keeps one row per epoch. -/
theorem owner_unique_append {tables : Tables} {rows : List EpochOwnerRow}
    (h : tables.epochOwners.Pairwise fun a b => a.chunkId = b.chunkId → a.epoch ≠ b.epoch)
    (short : rows.length ≤ 1)
    (unowned : ∀ row ∈ rows, epochOwner tables row.chunkId row.epoch = none) :
    (tables.epochOwners ++ rows).Pairwise fun a b => a.chunkId = b.chunkId → a.epoch ≠ b.epoch := by
  refine List.pairwise_append.mpr ⟨h, ?_, fun a ha b hb same => ?_⟩
  · match rows, short with
    | [], _ => exact .nil
    | [row], _ => exact List.pairwise_singleton _ _
  · exact epochOwner_eq_none.mp (unowned b hb) a ha same

/-- An admitted mint that takes its epoch takes one above the newest. -/
theorem mint_takes_above {tables : Tables} {chunkId : ChunkId} {epoch : ℤ} {claimant : Claimant}
    (admitted : (mintAdmission tables chunkId epoch claimant.runnerId).refusal claimant = none)
    (unowned : epochOwner tables chunkId epoch = none) : latestEpoch tables chunkId < epoch := by
  rcases (refusal_eq_none admitted).2 with owned | ⟨-, above, -⟩
  · simp [mintAdmission, unowned] at owned
  · exact above

theorem fencingInvariant_step {hub hub' : Hub} {event : Instant × ChunkWrite}
    (step : HubStep hub event hub') (inv : FencingInvariant hub) : FencingInvariant hub' := by
  obtain ⟨now, w⟩ := event
  obtain ⟨clock, rfl⟩ := step
  have nonneg := latestEpoch_nonneg inv.restart_pos
  have older : ∀ row ∈ hub.tables.routeCreated, row.createdAt ≤ now :=
    fun row hrow => (inv.created_stamped row hrow).trans clock
  have effect := exec_effect hub.tables now w
  generalize (exec hub.tables now w).1 = tables' at effect ⊢
  cases effect with
  | quiet appends stamped =>
    constructor
    · simpa [appends.created_eq] using older
    · simpa [appends.restarts_eq] using inv.restart_pos
    · simpa [appends.owners_eq] using inv.runner_pos
    · simpa [appends.owners_eq] using inv.owner_unique
  | @claim route _ row appends chunk holder stamped next =>
    have epoch_pos := nonneg route.chunkId
    constructor
    · intro row' hrow'
      rcases List.mem_append.mp (appends.created_eq ▸ hrow') with old | fresh
      · exact older row' old
      · rw [List.mem_singleton.mp fresh, stamped]
    · simpa [appends.restarts_eq] using inv.restart_pos
    · intro owner howner named
      rcases List.mem_append.mp (appends.owners_eq ▸ howner) with old | fresh
      · exact inv.runner_pos owner old named
      · rw [List.mem_singleton.mp fresh]
        simp only
        omega
    · show tables'.epochOwners.Pairwise _
      rw [appends.owners_eq]
      refine owner_unique_append inv.owner_unique (by simp) fun owner howner => ?_
      rw [List.mem_singleton.mp howner]
      exact epochOwner_next _ _
  | @mint chunkId epoch claimant _ admitted appends =>
    have epoch_pos := nonneg chunkId
    constructor
    · simpa [appends.created_eq] using older
    · simpa [appends.restarts_eq] using inv.restart_pos
    · intro owner howner named
      rcases List.mem_append.mp (appends.owners_eq ▸ howner) with old | fresh
      · exact inv.runner_pos owner old named
      · obtain ⟨unowned, rfl⟩ := mem_ownerRows fresh
        have above := mint_takes_above admitted unowned
        simp only
        omega
    · show tables'.epochOwners.Pairwise _
      rw [appends.owners_eq]
      refine owner_unique_append inv.owner_unique (length_ownerRows_le _ _ _ _ _)
        fun owner howner => ?_
      obtain ⟨unowned, rfl⟩ := mem_ownerRows howner
      exact unowned
  | @restart w _ row appends chunk epoch =>
    have epoch_pos := nonneg w.chunkId
    constructor
    · simpa [appends.created_eq] using older
    · intro row' hrow'
      rcases List.mem_append.mp (appends.restarts_eq ▸ hrow') with old | fresh
      · exact inv.restart_pos row' old
      · rw [List.mem_singleton.mp fresh, epoch]
        omega
    · intro owner howner named
      rcases List.mem_append.mp (appends.owners_eq ▸ howner) with old | fresh
      · exact inv.runner_pos owner old named
      · exact absurd (by rw [List.mem_singleton.mp fresh]) named
    · show tables'.epochOwners.Pairwise _
      rw [appends.owners_eq]
      refine owner_unique_append inv.owner_unique (by simp) fun owner howner => ?_
      rw [List.mem_singleton.mp howner]
      exact epochOwner_next _ _
  | @hubLease _ chunkId epoch runnerId _ released appends stamped =>
    constructor
    · simpa [appends.created_eq] using older
    · simpa [appends.restarts_eq] using inv.restart_pos
    · intro owner howner named
      rcases List.mem_append.mp (appends.owners_eq ▸ howner) with old | fresh
      · exact inv.runner_pos owner old named
      · obtain ⟨-, rfl⟩ := mem_ownerRows fresh
        exact absurd rfl named
    · show tables'.epochOwners.Pairwise _
      rw [appends.owners_eq]
      refine owner_unique_append inv.owner_unique (length_ownerRows_le _ _ _ _ _)
        fun owner howner => ?_
      obtain ⟨unowned, rfl⟩ := mem_ownerRows howner
      exact unowned

theorem fencingInvariant_run {hub hub' : Hub} {events : List (Instant × ChunkWrite)}
    (run : Runs HubStep hub events hub') (inv : FencingInvariant hub) : FencingInvariant hub' :=
  run.invariant (P := FencingInvariant) (fun _ _ _ => fencingInvariant_step) inv

/-- What a step keeps: every recorded owner, and the latest epoch from below. -/
def FenceRises (chunkId : ChunkId) (hub hub' : Hub) : Prop :=
  (∀ epoch owner, epochOwner hub.tables chunkId epoch = some owner →
    epochOwner hub'.tables chunkId epoch = some owner) ∧
  latestEpoch hub.tables chunkId ≤ latestEpoch hub'.tables chunkId

theorem fenceRises_step {hub hub' : Hub} {event : Instant × ChunkWrite}
    (step : HubStep hub event hub') (inv : FencingInvariant hub) (chunkId : ChunkId) :
    FenceRises chunkId hub hub' := by
  have inv' := fencingInvariant_step step inv
  obtain ⟨clock, rfl⟩ := step
  obtain ⟨_, _, _, _, _, appends⟩ := (exec_effect hub.tables event.1 event.2).appends
  exact ⟨fun _ _ => epochOwner_append appends.owners_eq,
    appends.latestEpoch_le chunkId (latestEpoch_nonneg inv'.restart_pos chunkId)⟩

theorem fenceRises_run {hub hub' : Hub} {events : List (Instant × ChunkWrite)}
    (run : Runs HubStep hub events hub') (inv : FencingInvariant hub) (chunkId : ChunkId) :
    FenceRises chunkId hub hub' := by
  refine run.relates (I := FencingInvariant) (R := FenceRises chunkId)
    (fun _ => ⟨fun _ _ h => h, le_rfl⟩) ?_ (fun _ _ _ => fencingInvariant_step)
    (fun _ _ _ step hinv => fenceRises_step step hinv chunkId) inv
  exact fun h h' => ⟨fun epoch owner own => h'.1 epoch owner (h.1 epoch owner own), h.2.trans h'.2⟩

/-- Runner `runnerId` has lost the chunk: another runner made the newest claim,
and every epoch it owns is below the latest. -/
structure Displaced (chunkId : ChunkId) (runnerId : RunnerId) (tables : Tables) : Prop where
  newest_other : ∃ row, Newest createdKey (createdRows tables chunkId) row ∧ row.runnerId ≠ runnerId
  owned_below : ∀ row ∈ tables.epochOwners, row.chunkId = chunkId →
    row.runnerId = some runnerId → row.epoch < latestEpoch tables chunkId

theorem createdRows_append {tables tables' : Tables} {created : List RouteCreatedRow}
    (h : tables'.routeCreated = tables.routeCreated ++ created) (chunkId : ChunkId) :
    createdRows tables' chunkId =
      createdRows tables chunkId ++ created.filter (·.chunkId = chunkId) := by
  simp [createdRows, h]

/-- A claim's route row is the newest of its chunk. -/
theorem claim_newest {hub : Hub} {now : Instant} {chunkId : ChunkId} {row : RouteCreatedRow}
    (inv : FencingInvariant hub) (clock : hub.now ≤ now) (stamped : row.createdAt = now)
    (next : row.seq = nextRouteSeq hub.tables chunkId) :
    Newest createdKey (createdRows hub.tables chunkId ++ [row]) row := by
  refine Newest.append_newer fun other hother => ?_
  have older : other.createdAt ≤ now :=
    (inv.created_stamped other (mem_createdRows.mp hother).1).trans clock
  have key : createdKey row = toLex (now, nextRouteSeq hub.tables chunkId) := by
    rw [createdKey, createdFact, RouteCreatedFact.key, stamped, next]
  rw [key]
  exact createdKey_lt_next hother older

/-- No attempt of a displaced runner owns an epoch the fence still admits. -/
theorem Displaced.refuses {hub : Hub} {chunkId : ChunkId} {runnerId : RunnerId}
    (h : Displaced chunkId runnerId hub.tables) (inv : FencingInvariant hub) {epoch : ℤ}
    (owned : epochOwner hub.tables chunkId epoch = some (.runner runnerId)) :
    latestEpoch hub.tables chunkId ≠ 0 ∧ epoch < latestEpoch hub.tables chunkId := by
  obtain ⟨row, hrow, hid, hepoch, hrunner⟩ := epochOwner_eq_some owned
  have below := h.owned_below row hrow hid hrunner
  have positive := inv.runner_pos row hrow (by simp [hrunner, EpochOwner.runnerId])
  omega

/-- No lease mint of a displaced runner is admitted. -/
theorem Displaced.refuses_mint {hub : Hub} {chunkId : ChunkId} {claimant : Claimant}
    (h : Displaced chunkId claimant.runnerId hub.tables) (inv : FencingInvariant hub) (epoch : ℤ) :
    (mintAdmission hub.tables chunkId epoch claimant.runnerId).refusal claimant ≠ none := by
  intro admitted
  obtain ⟨above, owned | ⟨-, -, holds⟩⟩ := refusal_eq_none admitted
  · obtain ⟨minted, below⟩ := h.refuses inv owned
    exact absurd (above minted) (not_le.mpr below)
  · obtain ⟨row, newest, other⟩ := h.newest_other
    simp only [mintAdmission, Option.any_eq_true, decide_eq_true_eq] at holds
    obtain ⟨route, live, runner⟩ := holds
    exact other ((routeOf_runner_of_newest newest live).symm.trans runner)

/-- No fenced write of a displaced runner is admitted. -/
theorem Displaced.refuses_write {hub : Hub} {chunkId : ChunkId} {claimant : Claimant}
    (h : Displaced chunkId claimant.runnerId hub.tables) (inv : FencingInvariant hub) (epoch : ℤ)
    (admission : EpochAdmission) :
    fence hub.tables chunkId epoch admission (some claimant) ≠ none := by
  intro admitted
  obtain ⟨owned, above⟩ := fence_admits admitted
  obtain ⟨minted, below⟩ := h.refuses inv owned
  exact absurd (above minted) (not_le.mpr below)

/-- A claim by another runner displaces `runnerId`. -/
theorem displaced_of_claim {hub hub' : Hub} {now : Instant} {route : RouteClaim}
    {runnerId : RunnerId} (inv : FencingInvariant hub) (step : HubStep hub (now, .claim route) hub')
    (other : route.runnerId ≠ runnerId) : Displaced route.chunkId runnerId hub'.tables := by
  obtain ⟨clock, rfl⟩ := step
  obtain ⟨row, appends, chunk, holder, stamped, next⟩ := claim_rows hub.tables route now
  simp only [exec]
  generalize recordRouteConn hub.tables route now = tables' at appends ⊢
  constructor
  · refine ⟨row, ?_, holder ▸ other⟩
    rw [createdRows_append appends.created_eq]
    simpa [chunk] using claim_newest inv clock stamped next
  · intro owner howner hid hrunner
    have recorded : (⟨route.chunkId, latestEpoch hub.tables route.chunkId + 1, some route.runnerId,
        now⟩ : EpochOwnerRow) ∈ tables'.epochOwners := by
      simp [appends.owners_eq]
    have reserved := epoch_le_latestEpoch_of_owner recorded
    rcases List.mem_append.mp (appends.owners_eq ▸ howner) with old | fresh
    · have below := epoch_le_latestEpoch_of_owner old
      rw [hid] at below
      simp only at reserved
      omega
    · rw [List.mem_singleton.mp fresh] at hrunner
      exact absurd (Option.some.inj hrunner) other

/-- Rows of other chunks and other owners leave a displaced runner displaced. -/
theorem Displaced.keep {tables tables' : Tables} {chunkId : ChunkId} {runnerId : RunnerId}
    {l : List LeaseRow} {r : List RestartRow} {owners : List EpochOwnerRow}
    {created : List RouteCreatedRow} {d : List RouteReleasedRow}
    (h : Displaced chunkId runnerId tables) (appends : Appends tables tables' l r owners created d)
    (rises : latestEpoch tables chunkId ≤ latestEpoch tables' chunkId)
    (elsewhere : ∀ row ∈ created, row.chunkId ≠ chunkId)
    (others : ∀ row ∈ owners, row.chunkId = chunkId → row.runnerId ≠ some runnerId) :
    Displaced chunkId runnerId tables' := by
  constructor
  · have none_here : created.filter (·.chunkId = chunkId) = [] := by
      simpa using elsewhere
    rw [createdRows_append appends.created_eq, none_here, List.append_nil]
    exact h.newest_other
  · intro row hrow hid hrunner
    rcases List.mem_append.mp (appends.owners_eq ▸ hrow) with old | fresh
    · exact (h.owned_below row old hid hrunner).trans_le rises
    · exact absurd hrunner (others row fresh hid)

/-- Only a claim of its own gives a displaced runner the chunk back. -/
theorem displaced_step {hub hub' : Hub} {event : Instant × ChunkWrite} {chunkId : ChunkId}
    {runnerId : RunnerId} (step : HubStep hub event hub')
    (quiet : ∀ route, event.2 = .claim route → route.chunkId = chunkId → route.runnerId ≠ runnerId)
    (inv : FencingInvariant hub) (h : Displaced chunkId runnerId hub.tables) :
    Displaced chunkId runnerId hub'.tables := by
  have rises := (fenceRises_step step inv chunkId).2
  obtain ⟨now, w⟩ := event
  by_cases here : ∃ route, w = .claim route ∧ route.chunkId = chunkId
  · obtain ⟨route, rfl, rfl⟩ := here
    exact displaced_of_claim inv step (quiet route rfl rfl)
  · obtain ⟨clock, rfl⟩ := step
    have effect := exec_effect hub.tables now w
    simp only at rises ⊢
    generalize (exec hub.tables now w).1 = tables' at effect rises ⊢
    cases effect with
    | quiet appends _ => exact h.keep appends rises (by simp) (by simp)
    | @claim route _ row appends chunk holder _ _ =>
      have away : route.chunkId ≠ chunkId := fun same => here ⟨route, rfl, same⟩
      exact h.keep appends rises (by simpa [chunk] using away) (by simp [away])
    | @mint mintChunk epoch claimant _ admitted appends =>
      refine h.keep appends rises (by simp) fun row hrow hid mine => ?_
      obtain ⟨-, rfl⟩ := mem_ownerRows hrow
      obtain rfl : mintChunk = chunkId := hid
      obtain rfl : claimant.runnerId = runnerId := Option.some.inj mine
      exact h.refuses_mint inv epoch admitted
    | restart appends _ _ => exact h.keep appends rises (by simp) (by simp)
    | hubLease appends _ =>
      refine h.keep appends rises (by simp) fun row hrow _ mine => ?_
      obtain ⟨-, rfl⟩ := mem_ownerRows hrow
      cases mine

theorem displaced_run {hub hub' : Hub} {events : List (Instant × ChunkWrite)} {chunkId : ChunkId}
    {runnerId : RunnerId} (run : Runs HubStep hub events hub')
    (quiet : ∀ event ∈ events, ∀ route, event.2 = .claim route → route.chunkId = chunkId →
      route.runnerId ≠ runnerId)
    (inv : FencingInvariant hub) (h : Displaced chunkId runnerId hub.tables) :
    Displaced chunkId runnerId hub'.tables :=
  run.invariant_on (I := FencingInvariant) (P := fun hub => Displaced chunkId runnerId hub.tables)
    (Q := fun event => ∀ route, event.2 = .claim route → route.chunkId = chunkId →
      route.runnerId ≠ runnerId)
    (fun _ _ _ => fencingInvariant_step)
    (fun _ _ _ step labels hinv hd => displaced_step step labels hinv hd) quiet inv h

/-- A claimant-carrying write is recorded only through an admitting fence. -/
theorem recorded_fenced {tables : Tables} {now : Instant} {w : ChunkWrite} {chunkId : ChunkId}
    {epoch : ℤ} {claimant : Claimant} (carries : w.attempt = some (chunkId, epoch, claimant))
    (recorded : (exec tables now w).2 = .recorded) :
    ∃ admission, fence tables chunkId epoch admission (some claimant) = none := by
  cases w <;> simp only [ChunkWrite.attempt, Option.map_eq_some_iff, reduceCtorEq] at carries
  case transition w =>
    obtain ⟨_, hc, hcarries⟩ := carries
    cases hcarries
    refine ⟨w.admission, ?_⟩
    simp only [exec, recordTransitionConn, hc] at recorded
    split at recorded
    · cases recorded
    · assumption
  case migration w =>
    obtain ⟨_, hc, hcarries⟩ := carries
    cases hcarries
    refine ⟨w.admission, ?_⟩
    simp only [exec, recordMigrationConn, hc] at recorded
    split at recorded
    · cases recorded
    split at recorded
    · cases recorded
    · assumption
  case escalation w =>
    obtain ⟨_, hc, hcarries⟩ := carries
    cases hcarries
    refine ⟨w.admission, ?_⟩
    simp only [exec, recordEscalation, hc] at recorded
    split at recorded
    · cases recorded
    · assumption
  case question w =>
    obtain ⟨_, hc, hcarries⟩ := carries
    cases hcarries
    refine ⟨w.admission, ?_⟩
    simp only [exec, recordQuestion, hc] at recorded
    split at recorded
    · cases recorded
    split at recorded
    · cases recorded
    · assumption
  case decision w =>
    obtain ⟨_, hc, hcarries⟩ := carries
    cases hcarries
    refine ⟨w.admission, ?_⟩
    simp only [exec, recordDecisionLocked, recordDecisionConn, hc] at recorded
    split at recorded
    · cases recorded
    split at recorded
    · cases recorded
    · assumption

/-- A claimant-carrying write that is not recorded leaves the tables as they were. -/
theorem unrecorded_unchanged {tables : Tables} {now : Instant} {w : ChunkWrite}
    (carries : w.attempt.isSome = true) (unrecorded : (exec tables now w).2 ≠ .recorded) :
    (exec tables now w).1 = tables := by
  cases w <;> simp only [ChunkWrite.attempt, Option.isSome_none, Bool.false_eq_true] at carries
  case transition w =>
    simp only [exec, recordTransitionConn] at unrecorded ⊢
    split <;> [rfl; split] <;> simp_all
  case migration w =>
    simp only [exec, recordMigrationConn] at unrecorded ⊢
    split <;> [rfl; split] <;> simp_all
  case escalation w =>
    simp only [exec, recordEscalation] at unrecorded ⊢
    split <;> simp_all
  case question w =>
    simp only [exec, recordQuestion] at unrecorded ⊢
    split <;> [rfl; split] <;> [rfl; split] <;> simp_all
  case decision w =>
    simp only [exec, recordDecisionLocked, recordDecisionConn] at unrecorded ⊢
    split <;> [rfl; split] <;> [rfl; split] <;> simp_all

/-- Epoch fencing over any run from freshly minted chunks: a recorded claimant write
owns an epoch the fence has not passed; owners and the latest epoch only persist and
rise; and after another runner's claim nothing of `runnerId` is admitted until it claims. -/
theorem epoch_fencing (start : Instant) (chunks : ChunkTable) (graphNodes : List GraphNodeRow)
    {events : List (Instant × ChunkWrite)} {hub : Hub}
    (run : Runs HubStep ⟨start, .minted chunks graphNodes⟩ events hub) :
    (∀ now w chunkId epoch claimant, ChunkWrite.attempt w = some (chunkId, epoch, claimant) →
      (exec hub.tables now w).2 = .recorded →
        epochOwner hub.tables chunkId epoch = some (.runner claimant.runnerId) ∧
          latestEpoch hub.tables chunkId ≤ epoch) ∧
    (∀ later hub', Runs HubStep hub later hub' → ∀ chunkId, FenceRises chunkId hub hub') ∧
    (∀ now route runnerId later hub', RouteClaim.runnerId route ≠ runnerId →
      Runs HubStep hub ((now, .claim route) :: later) hub' →
      (∀ event ∈ later, ∀ again, event.2 = .claim again → again.chunkId = route.chunkId →
        again.runnerId ≠ runnerId) →
      ∀ now' epoch claimant, Claimant.runnerId claimant = runnerId →
        (∀ w, ChunkWrite.attempt w = some (route.chunkId, epoch, claimant) →
          (exec hub'.tables now' w).2 ≠ .recorded ∧ (exec hub'.tables now' w).1 = hub'.tables) ∧
        ∃ refusal, recordLeaseMinted hub'.tables route.chunkId epoch claimant now' =
          (hub'.tables, .refused refusal)) := by
  have inv := fencingInvariant_run run (fencingInvariant_minted start chunks graphNodes)
  refine ⟨?_, fun later hub' more chunkId => fenceRises_run more inv chunkId, ?_⟩
  · intro now w chunkId epoch claimant carries recorded
    obtain ⟨admission, admitted⟩ := recorded_fenced carries recorded
    obtain ⟨owned, above⟩ := fence_admits admitted
    refine ⟨owned, above fun unminted => ?_⟩
    -- a runner's epoch is positive, so the fence has risen with it
    obtain ⟨row, hrow, hid, -, hrunner⟩ := epochOwner_eq_some owned
    have positive := inv.runner_pos row hrow (by simp [hrunner, EpochOwner.runnerId])
    have below := epoch_le_latestEpoch_of_owner hrow
    rw [hid] at below
    omega
  · rintro now route _ later hub' other (_ | ⟨claimed, rest⟩) quiet now' epoch claimant rfl
    have inv₁ := fencingInvariant_step claimed inv
    have displaced := displaced_run rest quiet inv₁ (displaced_of_claim inv claimed other)
    have inv₂ := fencingInvariant_run rest inv₁
    constructor
    · intro w carries
      have unrecorded : (exec hub'.tables now' w).2 ≠ .recorded := by
        intro recorded
        obtain ⟨admission, admitted⟩ := recorded_fenced carries recorded
        exact displaced.refuses_write inv₂ epoch admission admitted
      exact ⟨unrecorded, unrecorded_unchanged (by simp [carries]) unrecorded⟩
    · obtain ⟨refusal, refused⟩ :=
        Option.ne_none_iff_exists'.mp (displaced.refuses_mint inv₂ epoch)
      exact ⟨refusal, by simp only [recordLeaseMinted, refused]⟩

/-- Runner `r1` claims and is reaped, `r2` claims: the epoch `r1` owned is refused it. -/
theorem epoch_fencing_reaped : ∃ hub refusal,
    Runs HubStep ⟨0, .minted ⟨[⟨"ch", "pj", "gr", none⟩], by decide⟩ []⟩
      [(1, .claim ⟨"rt1", "ch", "r1", "ws", [], "t1"⟩), (2, .release "ch" none none),
        (3, .claim ⟨"rt2", "ch", "r2", "ws", [], "t2"⟩)] hub ∧
    epochOwner hub.tables "ch" 1 = some (.runner "r1") ∧
    recordLeaseMinted hub.tables "ch" 1 ⟨"r1", none⟩ 4 = (hub.tables, .refused refusal) := by
  let start : Hub := ⟨0, .minted ⟨[⟨"ch", "pj", "gr", none⟩], by decide⟩ []⟩
  let reaped : List (Instant × ChunkWrite) :=
    [(1, .claim ⟨"rt1", "ch", "r1", "ws", [], "t1"⟩), (2, .release "ch" none none)]
  let reclaim : List (Instant × ChunkWrite) := [(3, .claim ⟨"rt2", "ch", "r2", "ws", [], "t2"⟩)]
  have first : Runs HubStep start reaped (start.after reaped) := runs_after (by decide)
  have second : Runs HubStep (start.after reaped) reclaim ((start.after reaped).after reclaim) :=
    runs_after (by decide)
  obtain ⟨-, refusal, refused⟩ := (epoch_fencing 0 _ [] first).2.2 3 _ "r1" [] _ (by decide)
    second (by simp) 4 1 ⟨"r1", none⟩ rfl
  exact ⟨_, refusal, first.trans second, by decide, refused⟩

end Blizzard.EpochFencing
