import Blizzard.FencedWrites

/-! # What a chunk write does to the fence

The chunk writes as one event type, and the five effects a write can have on
the tables the fence is derived from. -/
namespace Blizzard.FenceEffects
open HubTables LatestRows RouteLiveness EpochFence FencedWrites

/-- One chunk write. -/
inductive ChunkWrite
  | claim (route : RouteClaim)
  | release (chunkId : ChunkId) (cause reason : Option String)
  | rekey (chunkId : ChunkId) (tokenHash : String)
  | mint (chunkId : ChunkId) (epoch : ℤ) (claimant : Claimant)
  | restart (w : RestartWrite)
  | hubTransition (w : TransitionWrite) (releaseRoute : Bool)
  | bounceEscalation (w : EscalationWrite) (runnerId : RunnerId)
  | finalizeDelivery (w : TransitionWrite)
  | transition (w : TransitionWrite)
  | migration (w : MigrationWrite)
  | escalation (w : EscalationWrite)
  | question (w : QuestionWrite)
  | decision (w : DecisionWrite)
  | stop (chunkId : ChunkId) (stoppedBy : String)
  | complete (chunkId : ChunkId) (completedBy : String)
  deriving DecidableEq, Repr

/-- The tables a write commits and what it answers. -/
def exec (tables : Tables) (now : Instant) : ChunkWrite → Tables × WriteOutcome
  | .claim route => (recordRouteConn tables route now, .recorded)
  | .release chunkId cause reason =>
    (recordRouteReleasedConn tables chunkId cause reason now, .recorded)
  | .rekey chunkId tokenHash => (recordRouteToken tables chunkId tokenHash now, .recorded)
  | .mint chunkId epoch claimant => recordLeaseMinted tables chunkId epoch claimant now
  | .restart w => recordRestartConn tables w now
  | .hubTransition w releaseRoute => transitionConn tables w releaseRoute now
  | .bounceEscalation w runnerId => bounceEscalationConn tables w runnerId now
  | .finalizeDelivery w => FencedWrites.finalizeDelivery tables w now
  | .transition w => recordTransitionConn tables w now
  | .migration w => recordMigrationConn tables w now
  | .escalation w => recordEscalation tables w now
  | .question w => recordQuestion tables w now
  | .decision w => recordDecisionLocked tables w now
  | .stop chunkId stoppedBy => (recordStopLocked tables chunkId stoppedBy now, .recorded)
  | .complete chunkId completedBy =>
    (recordCompletionLocked tables chunkId completedBy now, .recorded)

/-- The chunk, epoch and attempt a claimant-carrying write speaks for. -/
def ChunkWrite.attempt : ChunkWrite → Option (ChunkId × ℤ × Claimant)
  | .transition w => w.claimant.map fun a => (w.chunkId, w.epoch, a)
  | .migration w => w.claimant.map fun a => (w.chunkId, w.epoch, a)
  | .escalation w => w.claimant.map fun a => (w.chunkId, w.epoch, a)
  | .question w => w.claimant.map fun a => (w.chunkId, w.epoch, a)
  | .decision w => w.claimant.map fun a => (w.chunkId, w.epoch, a)
  | _ => none

/-- `tables'` is `tables` with rows appended to the tables that decide the fence. -/
structure Appends (tables tables' : Tables) (leases : List LeaseRow) (restarts : List RestartRow)
    (owners : List EpochOwnerRow) (created : List RouteCreatedRow)
    (released : List RouteReleasedRow) : Prop where
  leases_eq : tables'.leaseFacts = tables.leaseFacts ++ leases
  restarts_eq : tables'.chunkRestarts = tables.chunkRestarts ++ restarts
  owners_eq : tables'.epochOwners = tables.epochOwners ++ owners
  created_eq : tables'.routeCreated = tables.routeCreated ++ created
  released_eq : tables'.routeReleased = tables.routeReleased ++ released

theorem Appends.refl (tables : Tables) : Appends tables tables [] [] [] [] [] := by
  constructor <;> simp

/-- The rows a hub lease at `epoch` adds to `epoch_owners`: none where an owner stands. -/
def ownerRows (tables : Tables) (chunkId : ChunkId) (epoch : ℤ) (owner : EpochOwner)
    (now : Instant) : List EpochOwnerRow :=
  if (epochOwner tables chunkId epoch).isSome then []
  else [⟨chunkId, epoch, owner.runnerId, now⟩]

/-- What one write can do to the fencing tables. -/
inductive FenceEffect (tables : Tables) (now : Instant) : ChunkWrite → Tables → Prop
  | quiet {w : ChunkWrite} {tables' : Tables} {released : List RouteReleasedRow}
      (appends : Appends tables tables' [] [] [] [] released)
      (stamped : ∀ row ∈ released, row.releasedAt = now) : FenceEffect tables now w tables'
  | claim {route : RouteClaim} {tables' : Tables} {row : RouteCreatedRow}
      (appends : Appends tables tables' [] []
        [⟨route.chunkId, latestEpoch tables route.chunkId + 1, some route.runnerId, now⟩] [row] [])
      (chunk : row.chunkId = route.chunkId) (holder : row.runnerId = route.runnerId)
      (stamped : row.createdAt = now) (next : row.seq = nextRouteSeq tables route.chunkId) :
      FenceEffect tables now (.claim route) tables'
  | mint {chunkId : ChunkId} {epoch : ℤ} {claimant : Claimant} {tables' : Tables}
      (admitted : (mintAdmission tables chunkId epoch claimant.runnerId).refusal claimant = none)
      (appends : Appends tables tables'
        [⟨chunkId, epoch, claimant.runnerId, now, claimant.leaseId⟩] []
        (ownerRows tables chunkId epoch (.runner claimant.runnerId) now) [] []) :
      FenceEffect tables now (.mint chunkId epoch claimant) tables'
  | restart {w : RestartWrite} {tables' : Tables} {row : RestartRow}
      (appends : Appends tables tables' [] [row]
        [⟨w.chunkId, latestEpoch tables w.chunkId + 1, none, now⟩] [] [])
      (chunk : row.chunkId = w.chunkId) (epoch : row.epoch = latestEpoch tables w.chunkId + 1) :
      FenceEffect tables now (.restart w) tables'
  | hubLease {w : ChunkWrite} {chunkId : ChunkId} {epoch : ℤ} {runnerId : RunnerId}
      {tables' : Tables} {released : List RouteReleasedRow}
      (appends : Appends tables tables' [⟨chunkId, epoch, runnerId, now, none⟩] []
        (ownerRows tables chunkId epoch .hub now) [] released)
      (stamped : ∀ row ∈ released, row.releasedAt = now) : FenceEffect tables now w tables'

theorem Appends.trans {t u v : Tables} {l l' : List LeaseRow} {r r' : List RestartRow}
    {o o' : List EpochOwnerRow} {c c' : List RouteCreatedRow} {d d' : List RouteReleasedRow}
    (h : Appends t u l r o c d) (h' : Appends u v l' r' o' c' d') :
    Appends t v (l ++ l') (r ++ r') (o ++ o') (c ++ c') (d ++ d') where
  leases_eq := by rw [h'.leases_eq, h.leases_eq, List.append_assoc]
  restarts_eq := by rw [h'.restarts_eq, h.restarts_eq, List.append_assoc]
  owners_eq := by rw [h'.owners_eq, h.owners_eq, List.append_assoc]
  created_eq := by rw [h'.created_eq, h.created_eq, List.append_assoc]
  released_eq := by rw [h'.released_eq, h.released_eq, List.append_assoc]

/-- A step that leaves the fencing tables alone after one that appends to them. -/
theorem Appends.then_quiet {t u v : Tables} {l : List LeaseRow} {r : List RestartRow}
    {o : List EpochOwnerRow} {c : List RouteCreatedRow} {d : List RouteReleasedRow}
    (h : Appends t u l r o c d) (h' : Appends u v [] [] [] [] []) : Appends t v l r o c d := by
  simpa using h.trans h'

/-- A carried release after a step that appends to the other fencing tables. -/
theorem Appends.then_released {t u v : Tables} {l : List LeaseRow} {r : List RestartRow}
    {o : List EpochOwnerRow} {c : List RouteCreatedRow} {d : List RouteReleasedRow}
    (h : Appends t u l r o c []) (h' : Appends u v [] [] [] [] d) : Appends t v l r o c d := by
  simpa using h.trans h'

theorem epochOwner_above_latest {tables : Tables} {chunkId : ChunkId} {epoch : ℤ}
    (h : latestEpoch tables chunkId < epoch) : epochOwner tables chunkId epoch = none := by
  refine epochOwner_eq_none.mpr fun row hrow hid same => ?_
  have hle := epoch_le_latestEpoch_of_owner hrow
  rw [hid, same] at hle
  omega

/-- The epoch a claim or a restart reserves has no owner yet. -/
theorem epochOwner_next (tables : Tables) (chunkId : ChunkId) :
    epochOwner tables chunkId (latestEpoch tables chunkId + 1) = none :=
  epochOwner_above_latest (by omega)

theorem recordEpochOwner_appends (tables : Tables) (chunkId : ChunkId) (epoch : ℤ)
    (owner : EpochOwner) (now : Instant) :
    Appends tables (recordEpochOwner tables chunkId epoch owner now) [] []
      (ownerRows tables chunkId epoch owner now) [] [] := by
  unfold recordEpochOwner ownerRows
  split
  · exact .refl tables
  · constructor <;> simp

theorem recordHubLease_appends (tables : Tables) (chunkId : ChunkId) (epoch : ℤ)
    (runnerId : RunnerId) (now : Instant) :
    Appends tables (recordHubLease tables chunkId epoch runnerId now)
      [⟨chunkId, epoch, runnerId, now, none⟩] [] (ownerRows tables chunkId epoch .hub now) [] [] := by
  have leased : Appends tables
      { tables with leaseFacts := tables.leaseFacts ++ [⟨chunkId, epoch, runnerId, now, none⟩] }
      [⟨chunkId, epoch, runnerId, now, none⟩] [] [] [] [] := by
    constructor <;> simp
  exact leased.trans (recordEpochOwner_appends _ chunkId epoch .hub now)

theorem insertArtifacts_appends (tables : Tables) (artifacts : List StoredArtifact) (now : Instant) :
    Appends tables (insertArtifacts tables artifacts now) [] [] [] [] [] := by
  induction artifacts generalizing tables with
  | nil => exact .refl tables
  | cons row rows ih =>
    have first : Appends tables (insertArtifact now tables row) [] [] [] [] [] := by
      constructor <;> simp [insertArtifact]
    exact first.then_quiet (ih _)

theorem answers_appends (answer answeredBy : String) (now : Instant) (ids : List String)
    (tables : Tables) :
    Appends tables (ids.foldl (answerQuestionOnce answer answeredBy now) tables)
      [] [] [] [] [] := by
  induction ids generalizing tables with
  | nil => exact .refl tables
  | cons id ids ih =>
    have first : Appends tables (answerQuestionOnce answer answeredBy now tables id)
        [] [] [] [] [] := by
      unfold answerQuestionOnce
      split <;> constructor <;> simp
    exact first.then_quiet (ih _)

/-- A carried release appends at most one row, stamped with the write's own instant. -/
theorem releaseRouteIf_appends (release : Bool) (tables : Tables) (chunkId : ChunkId)
    (now : Instant) : ∃ released, Appends tables (releaseRouteIf release tables chunkId now)
      [] [] [] [] released ∧ ∀ row ∈ released, row.releasedAt = now := by
  unfold releaseRouteIf
  split
  · refine ⟨[⟨chunkId, now, nextRouteSeq tables chunkId, none, none⟩], ?_, by simp⟩
    constructor <;> simp [recordRouteReleasedConn]
  · exact ⟨[], .refl tables, by simp⟩

theorem insertTransition_appends (tables : Tables) (w : TransitionWrite) (graphId : String)
    (now : Instant) : Appends tables (insertTransition tables w graphId now) [] [] [] [] [] := by
  constructor <;> simp [insertTransition]

theorem insertMigration_appends (tables : Tables) (w : MigrationWrite) (now : Instant) :
    Appends tables (insertMigration tables w now) [] [] [] [] [] := by
  constructor <;> simp [insertMigration]

theorem insertEscalation_appends (tables : Tables) (w : EscalationWrite) (now : Instant) :
    Appends tables (insertEscalation tables w now) [] [] [] [] [] := by
  constructor <;> simp [insertEscalation]

theorem insertDecision_appends (tables : Tables) (w : DecisionWrite) (projectId : String)
    (now : Instant) : Appends tables (insertDecision tables w projectId now) [] [] [] [] [] := by
  constructor <;> simp [insertDecision]

theorem insertQuestion_appends (tables : Tables) (w : QuestionWrite) (projectId : String)
    (now : Instant) : Appends tables (insertQuestion tables w projectId now) [] [] [] [] [] := by
  constructor <;> simp [insertQuestion]

theorem insertDeliveryLanded_appends (tables : Tables) (chunkId : ChunkId) (now : Instant) :
    Appends tables (insertDeliveryLanded tables chunkId now) [] [] [] [] [] := by
  constructor <;> simp [insertDeliveryLanded]

theorem recordRouteToken_appends (tables : Tables) (chunkId : ChunkId) (tokenHash : String)
    (now : Instant) : Appends tables (recordRouteToken tables chunkId tokenHash now)
      [] [] [] [] [] := by
  constructor <;> simp [recordRouteToken]

theorem repinByRestart_appends (tables : Tables) (w : RestartWrite) (fromGraphId : String)
    (epoch : ℤ) (now : Instant) :
    Appends tables (repinByRestart tables w fromGraphId epoch now) [] [] [] [] [] := by
  unfold repinByRestart
  split
  · exact .refl tables
  · constructor <;> simp

theorem insertRestart_appends (tables : Tables) (w : RestartWrite) (fromGraphId : String)
    (epoch : ℤ) (now : Instant) :
    Appends tables (insertRestart tables w fromGraphId epoch now) []
      [⟨w.chunkId, w.toGraphId.getD fromGraphId, w.fromNodeId, w.toGraphId.map fun _ => fromGraphId,
        w.toNodeId, epoch, w.decisionId, w.by_, now, w.note⟩] [] [] [] := by
  constructor <;> simp [insertRestart]

theorem FenceEffect.unchanged {tables : Tables} {now : Instant} {w : ChunkWrite} :
    FenceEffect tables now w tables :=
  .quiet (.refl tables) (by simp)

/-- An owner row recorded where no owner stands. -/
theorem recordEpochOwner_appends_unowned {tables : Tables} {chunkId : ChunkId} {epoch : ℤ}
    (owner : EpochOwner) (now : Instant) (unowned : epochOwner tables chunkId epoch = none) :
    Appends tables (recordEpochOwner tables chunkId epoch owner now) [] []
      [⟨chunkId, epoch, owner.runnerId, now⟩] [] [] := by
  have h := recordEpochOwner_appends tables chunkId epoch owner now
  rwa [ownerRows, unowned, Option.isSome_none, if_neg Bool.false_ne_true] at h

/-- A claim always writes its route and reserves the next epoch for its runner. -/
theorem claim_rows (tables : Tables) (route : RouteClaim) (now : Instant) :
    ∃ row : RouteCreatedRow, Appends tables (recordRouteConn tables route now) [] []
        [⟨route.chunkId, latestEpoch tables route.chunkId + 1, some route.runnerId, now⟩] [row] [] ∧
      row.chunkId = route.chunkId ∧ row.runnerId = route.runnerId ∧ row.createdAt = now ∧
      row.seq = nextRouteSeq tables route.chunkId := by
  have unowned := epochOwner_next tables route.chunkId
  have created : Appends tables (insertRouteCreated tables route now) [] [] []
      [⟨route.routeId, route.chunkId, route.runnerId, route.workspaceId, now,
        nextRouteSeq tables route.chunkId⟩] [] := by
    constructor <;> simp [insertRouteCreated]
  have minted := created.then_quiet (recordRouteToken_appends _ route.chunkId route.tokenHash now)
  exact ⟨_, minted.trans (recordEpochOwner_appends_unowned (.runner route.runnerId) now unowned),
    rfl, rfl, rfl, rfl⟩

theorem claim_effect (tables : Tables) (route : RouteClaim) (now : Instant) :
    FenceEffect tables now (.claim route) (recordRouteConn tables route now) := by
  obtain ⟨row, appends, chunk, holder, stamped, next⟩ := claim_rows tables route now
  exact .claim appends chunk holder stamped next

theorem release_effect (tables : Tables) (chunkId : ChunkId) (cause reason : Option String)
    (now : Instant) : FenceEffect tables now (.release chunkId cause reason)
      (recordRouteReleasedConn tables chunkId cause reason now) := by
  have appends : Appends tables (recordRouteReleasedConn tables chunkId cause reason now) [] [] []
      [] [⟨chunkId, now, nextRouteSeq tables chunkId, cause, reason⟩] := by
    constructor <;> simp [recordRouteReleasedConn]
  exact .quiet appends (by simp)

theorem mint_effect (tables : Tables) (chunkId : ChunkId) (epoch : ℤ) (claimant : Claimant)
    (now : Instant) : FenceEffect tables now (.mint chunkId epoch claimant)
      (recordLeaseMinted tables chunkId epoch claimant now).1 := by
  unfold recordLeaseMinted
  dsimp only
  split
  · exact .unchanged
  · rename_i admitted
    have owned : Appends tables
        (if (mintAdmission tables chunkId epoch claimant.runnerId).takesOwnership = true then
          recordEpochOwner tables chunkId epoch (.runner claimant.runnerId) now
        else tables) [] []
        (ownerRows tables chunkId epoch (.runner claimant.runnerId) now) [] [] := by
      split
      · exact recordEpochOwner_appends tables chunkId epoch _ now
      · rename_i kept
        have standing : (epochOwner tables chunkId epoch).isSome = true := by
          simpa [MintAdmission.takesOwnership, mintAdmission, Option.isSome_iff_ne_none] using kept
        rw [ownerRows, if_pos standing]
        exact .refl tables
    refine .mint admitted ?_
    constructor
    · simp [insertLease, owned.leases_eq]
    · simp [insertLease, owned.restarts_eq]
    · exact owned.owners_eq
    · exact owned.created_eq
    · exact owned.released_eq

theorem restart_effect (tables : Tables) (w : RestartWrite) (now : Instant) :
    FenceEffect tables now (.restart w) (recordRestartConn tables w now).1 := by
  unfold recordRestartConn
  dsimp only
  split
  · exact .unchanged
  · rename_i fromGraphId _
    have answered := answers_appends w.answer w.by_ now w.answeredQuestionIds tables
    have repinned := answered.then_quiet
      (repinByRestart_appends _ w fromGraphId (latestEpoch tables w.chunkId + 1) now)
    have moved := repinned.trans
      (insertRestart_appends _ w fromGraphId (latestEpoch tables w.chunkId + 1) now)
    refine .restart (moved.trans (recordEpochOwner_appends_unowned .hub now ?_)) rfl rfl
    refine epochOwner_eq_none.mpr fun owner howner hid => ?_
    rw [moved.owners_eq, List.append_nil, List.append_nil] at howner
    exact epochOwner_eq_none.mp (epochOwner_next tables w.chunkId) owner howner hid

theorem hubTransition_effect (tables : Tables) (w : TransitionWrite) (releaseRoute : Bool)
    (now : Instant) : FenceEffect tables now (.hubTransition w releaseRoute)
      (transitionConn tables w releaseRoute now).1 := by
  unfold transitionConn
  split
  · exact .unchanged
  split
  · exact .unchanged
  split
  · exact .unchanged
  rename_i graphId _
  have leased := recordHubLease_appends tables w.chunkId w.epoch w.runnerId now
  have moved := (leased.then_quiet (insertTransition_appends _ { w with decisionId := none } graphId
    now)).then_quiet (insertArtifacts_appends _ w.artifacts now)
  obtain ⟨released, carried, stamped⟩ := releaseRouteIf_appends releaseRoute
    (insertArtifacts (insertTransition (recordHubLease tables w.chunkId w.epoch w.runnerId now)
      { w with decisionId := none } graphId now) w.artifacts now) w.chunkId now
  exact .hubLease (moved.then_released carried) stamped

theorem bounceEscalation_effect (tables : Tables) (w : EscalationWrite) (runnerId : RunnerId)
    (now : Instant) : FenceEffect tables now (.bounceEscalation w runnerId)
      (bounceEscalationConn tables w runnerId now).1 := by
  unfold bounceEscalationConn
  split
  · exact .unchanged
  split
  · exact .unchanged
  exact .hubLease ((recordHubLease_appends tables w.chunkId w.epoch runnerId now).then_quiet
    (insertEscalation_appends _ _ now)) (by simp)

theorem finalizeDelivery_effect (tables : Tables) (w : TransitionWrite) (now : Instant) :
    FenceEffect tables now (.finalizeDelivery w) (FencedWrites.finalizeDelivery tables w now).1 := by
  unfold FencedWrites.finalizeDelivery
  split
  · exact .unchanged
  split
  · exact .unchanged
  rename_i graphId _
  have leased := recordHubLease_appends tables w.chunkId w.epoch w.runnerId now
  have landed := leased.then_quiet (insertDeliveryLanded_appends _ w.chunkId now)
  have moved := landed.then_quiet
    (insertTransition_appends _ { w with decisionId := none } graphId now)
  obtain ⟨released, carried, stamped⟩ := releaseRouteIf_appends true
    (insertTransition
      (insertDeliveryLanded (recordHubLease tables w.chunkId w.epoch w.runnerId now) w.chunkId now)
      { w with decisionId := none } graphId now) w.chunkId now
  exact .hubLease (moved.then_released carried) stamped

theorem transition_effect (tables : Tables) (w : TransitionWrite) (now : Instant) :
    FenceEffect tables now (.transition w) (recordTransitionConn tables w now).1 := by
  unfold recordTransitionConn
  split
  · exact .unchanged
  split
  · exact .unchanged
  rename_i graphId _
  exact .quiet ((insertTransition_appends tables w graphId now).then_quiet
    (insertArtifacts_appends _ w.artifacts now)) (by simp)

theorem migration_effect (tables : Tables) (w : MigrationWrite) (now : Instant) :
    FenceEffect tables now (.migration w) (recordMigrationConn tables w now).1 := by
  unfold recordMigrationConn
  split
  · exact .unchanged
  split
  · exact .unchanged
  obtain ⟨released, carried, stamped⟩ := releaseRouteIf_appends w.releaseRoute
    (insertMigration tables w now) w.chunkId now
  exact .quiet (((insertMigration_appends tables w now).trans carried).then_quiet
    (insertArtifacts_appends _ w.artifacts now)) stamped

theorem escalation_effect (tables : Tables) (w : EscalationWrite) (now : Instant) :
    FenceEffect tables now (.escalation w) (recordEscalation tables w now).1 := by
  unfold recordEscalation
  split
  · exact .unchanged
  exact .quiet (insertEscalation_appends tables w now) (by simp)

theorem question_effect (tables : Tables) (w : QuestionWrite) (now : Instant) :
    FenceEffect tables now (.question w) (recordQuestion tables w now).1 := by
  unfold recordQuestion
  split
  · exact .unchanged
  split
  · exact .unchanged
  split
  · exact .unchanged
  exact .quiet (insertQuestion_appends tables w _ now) (by simp)

theorem decision_effect (tables : Tables) (w : DecisionWrite) (now : Instant) :
    FenceEffect tables now (.decision w) (recordDecisionLocked tables w now).1 := by
  unfold recordDecisionLocked recordDecisionConn
  split
  · exact .unchanged
  split
  · exact .unchanged
  split
  · exact .unchanged
  rename_i projectId _
  exact .quiet ((insertDecision_appends tables w projectId now).then_quiet
    (insertArtifacts_appends _ w.artifacts now)) (by simp)

theorem insertStopped_appends (tables : Tables) (chunkId : ChunkId) (stoppedBy : String)
    (now : Instant) : Appends tables (insertStopped tables chunkId stoppedBy now)
      [] [] [] [] [] := by
  constructor <;> simp [insertStopped]

theorem insertCompleted_appends (tables : Tables) (chunkId : ChunkId) (completedBy : String)
    (now : Instant) : Appends tables (insertCompleted tables chunkId completedBy now)
      [] [] [] [] [] := by
  constructor <;> simp [insertCompleted]

theorem stop_effect (tables : Tables) (chunkId : ChunkId) (stoppedBy : String) (now : Instant) :
    FenceEffect tables now (.stop chunkId stoppedBy)
      (recordStopLocked tables chunkId stoppedBy now) := by
  obtain ⟨released, carried, stamped⟩ := releaseRouteIf_appends
    (routeOf (insertStopped tables chunkId stoppedBy now) chunkId).isSome
    (insertStopped tables chunkId stoppedBy now) chunkId now
  exact .quiet ((insertStopped_appends tables chunkId stoppedBy now).trans carried) stamped

theorem completion_effect (tables : Tables) (chunkId : ChunkId) (completedBy : String)
    (now : Instant) : FenceEffect tables now (.complete chunkId completedBy)
      (recordCompletionLocked tables chunkId completedBy now) := by
  obtain ⟨released, carried, stamped⟩ := releaseRouteIf_appends
    (routeOf (insertCompleted tables chunkId completedBy now) chunkId).isSome
    (insertCompleted tables chunkId completedBy now) chunkId now
  exact .quiet ((insertCompleted_appends tables chunkId completedBy now).trans carried) stamped

/-- Every write is one of the five effects. -/
theorem exec_effect (tables : Tables) (now : Instant) (w : ChunkWrite) :
    FenceEffect tables now w (exec tables now w).1 := by
  cases w with
  | claim route => exact claim_effect tables route now
  | release chunkId cause reason => exact release_effect tables chunkId cause reason now
  | rekey chunkId tokenHash =>
    exact .quiet (recordRouteToken_appends tables chunkId tokenHash now) (by simp)
  | mint chunkId epoch claimant => exact mint_effect tables chunkId epoch claimant now
  | restart w => exact restart_effect tables w now
  | hubTransition w releaseRoute => exact hubTransition_effect tables w releaseRoute now
  | bounceEscalation w runnerId => exact bounceEscalation_effect tables w runnerId now
  | finalizeDelivery w => exact finalizeDelivery_effect tables w now
  | transition w => exact transition_effect tables w now
  | migration w => exact migration_effect tables w now
  | escalation w => exact escalation_effect tables w now
  | question w => exact question_effect tables w now
  | decision w => exact decision_effect tables w now
  | stop chunkId stoppedBy => exact stop_effect tables chunkId stoppedBy now
  | complete chunkId completedBy => exact completion_effect tables chunkId completedBy now

theorem Appends.latestEpoch_le {t t' : Tables} {l : List LeaseRow} {r : List RestartRow}
    {o : List EpochOwnerRow} {c : List RouteCreatedRow} {d : List RouteReleasedRow}
    (h : Appends t t' l r o c d) (chunkId : ChunkId) (nonneg : 0 ≤ latestEpoch t' chunkId) :
    latestEpoch t chunkId ≤ latestEpoch t' chunkId := by
  refine EpochFence.latestEpoch_le nonneg (fun row hrow hid => ?_) (fun row hrow hid => ?_)
    (fun row hrow hid => ?_)
  · rw [← hid]
    exact epoch_le_latestEpoch_of_lease (by rw [h.leases_eq]; exact List.mem_append_left _ hrow)
  · rw [← hid]
    exact epoch_le_latestEpoch_of_restart (by rw [h.restarts_eq]; exact List.mem_append_left _ hrow)
  · rw [← hid]
    exact epoch_le_latestEpoch_of_owner (by rw [h.owners_eq]; exact List.mem_append_left _ hrow)

theorem mem_ownerRows {tables : Tables} {chunkId : ChunkId} {epoch : ℤ} {owner : EpochOwner}
    {now : Instant} {row : EpochOwnerRow}
    (h : row ∈ ownerRows tables chunkId epoch owner now) :
    epochOwner tables chunkId epoch = none ∧ row = ⟨chunkId, epoch, owner.runnerId, now⟩ := by
  unfold ownerRows at h
  split at h
  · simp at h
  · rename_i unowned
    exact ⟨by simpa using unowned, List.mem_singleton.mp h⟩

theorem length_ownerRows_le (tables : Tables) (chunkId : ChunkId) (epoch : ℤ) (owner : EpochOwner)
    (now : Instant) : (ownerRows tables chunkId epoch owner now).length ≤ 1 := by
  unfold ownerRows
  split <;> simp

/-- Every effect appends to the fencing tables. -/
theorem FenceEffect.appends {tables tables' : Tables} {now : Instant} {w : ChunkWrite}
    (effect : FenceEffect tables now w tables') :
    ∃ l r o c d, Appends tables tables' l r o c d := by
  cases effect with
  | quiet appends _ => exact ⟨_, _, _, _, _, appends⟩
  | claim appends _ _ _ _ => exact ⟨_, _, _, _, _, appends⟩
  | mint _ appends => exact ⟨_, _, _, _, _, appends⟩
  | restart appends _ _ => exact ⟨_, _, _, _, _, appends⟩
  | hubLease appends _ => exact ⟨_, _, _, _, _, appends⟩

end Blizzard.FenceEffects
