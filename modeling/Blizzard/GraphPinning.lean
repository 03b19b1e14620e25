import Blizzard.FenceEffects
import Blizzard.FactLoading

/-! # What a chunk write does to pins and transitions

A write keeps every chunk in its reads and appends at most the one transition it
is for, stamped with the pin its chunk had when it was written. -/
namespace Blizzard.GraphPinning
open HubTables RouteLiveness EpochFence FencedWrites FenceEffects FactLoading

/-- The chunk a transition write moves, and the node it moves it to. -/
def target : ChunkWrite → Option (ChunkId × String)
  | .hubTransition w _ => some (w.chunkId, w.toNodeId)
  | .finalizeDelivery w => some (w.chunkId, w.toNodeId)
  | .transition w => some (w.chunkId, w.toNodeId)
  | _ => none

/-- The same chunks are readable, and the same transitions are on record. -/
structure Frame (tables tables' : Tables) : Prop where
  grouped : tables'.chunkGrouped = tables.chunkGrouped
  deleted : tables'.chunkDeleted = tables.chunkDeleted
  ids : tables'.chunks.rows.map (·.chunkId) = tables.chunks.rows.map (·.chunkId)
  transitions : tables'.transitions = tables.transitions

variable {tables middle tables' : Tables} {now : Instant}

theorem Frame.refl (tables : Tables) : Frame tables tables := ⟨rfl, rfl, rfl, rfl⟩

theorem Frame.trans (first : Frame tables middle) (second : Frame middle tables') :
    Frame tables tables' :=
  ⟨second.grouped.trans first.grouped, second.deleted.trans first.deleted,
    second.ids.trans first.ids, second.transitions.trans first.transitions⟩

theorem update_ids (table : ChunkTable) (id : ChunkId) (change : ChunkRow → ChunkRow) :
    (table.update id change).rows.map (·.chunkId) = table.rows.map (·.chunkId) := by
  simp only [ChunkTable.update, List.map_map]
  refine List.map_congr_left fun row _ => ?_
  simp only [Function.comp_apply]
  split <;> rfl

theorem recordEpochOwner_frame (tables : Tables) (chunkId : ChunkId) (epoch : ℤ)
    (owner : EpochOwner) (now : Instant) :
    Frame tables (recordEpochOwner tables chunkId epoch owner now) := by
  rw [recordEpochOwner]
  split <;> exact ⟨rfl, rfl, rfl, rfl⟩

theorem recordHubLease_frame (tables : Tables) (chunkId : ChunkId) (epoch : ℤ)
    (runnerId : RunnerId) (now : Instant) :
    Frame tables (recordHubLease tables chunkId epoch runnerId now) := by
  have leased : Frame tables { tables with
      leaseFacts := tables.leaseFacts ++ [{ chunkId, epoch, runnerId, mintedAt := now }] } :=
    ⟨rfl, rfl, rfl, rfl⟩
  exact leased.trans (recordEpochOwner_frame _ chunkId epoch .hub now)

theorem insertArtifacts_frame (tables : Tables) (artifacts : List StoredArtifact) (now : Instant) :
    Frame tables (insertArtifacts tables artifacts now) := by
  induction artifacts generalizing tables with
  | nil => exact .refl tables
  | cons artifact rest ih =>
    have first : Frame tables (insertArtifact now tables artifact) := ⟨rfl, rfl, rfl, rfl⟩
    exact first.trans (ih (insertArtifact now tables artifact))

theorem answers_frame (answer answeredBy : String) (now : Instant) (ids : List String)
    (tables : Tables) : Frame tables (ids.foldl (answerQuestionOnce answer answeredBy now) tables) := by
  induction ids generalizing tables with
  | nil => exact .refl tables
  | cons id rest ih =>
    have first : Frame tables (answerQuestionOnce answer answeredBy now tables id) := by
      rw [answerQuestionOnce]
      split <;> exact ⟨rfl, rfl, rfl, rfl⟩
    exact first.trans (ih (answerQuestionOnce answer answeredBy now tables id))

theorem releaseRouteIf_frame (release : Bool) (tables : Tables) (chunkId : ChunkId) (now : Instant) :
    Frame tables (releaseRouteIf release tables chunkId now) := by
  rw [releaseRouteIf]
  split <;> exact ⟨rfl, rfl, rfl, rfl⟩

theorem repinByRestart_frame (tables : Tables) (w : RestartWrite) (fromGraphId : String) (epoch : ℤ)
    (now : Instant) : Frame tables (repinByRestart tables w fromGraphId epoch now) := by
  rw [repinByRestart]
  split
  · exact .refl tables
  · exact ⟨rfl, rfl, update_ids .., rfl⟩

theorem insertMigration_frame (tables : Tables) (w : MigrationWrite) (now : Instant) :
    Frame tables (insertMigration tables w now) :=
  ⟨rfl, rfl, update_ids .., rfl⟩

/-- What one write does: the frame, and at most the transition it is for. -/
structure Pinning (tables tables' : Tables) (w : ChunkWrite) : Prop where
  grouped : tables'.chunkGrouped = tables.chunkGrouped
  deleted : tables'.chunkDeleted = tables.chunkDeleted
  ids : tables'.chunks.rows.map (·.chunkId) = tables.chunks.rows.map (·.chunkId)
  transitions : ∃ more, tables'.transitions = tables.transitions ++ more ∧
    ∀ t ∈ more, target w = some (t.chunkId, t.toNodeId) ∧
      graphIdOf tables t.chunkId = some t.graphId

variable {w : ChunkWrite}

theorem Frame.pinning (frame : Frame tables tables') : Pinning tables tables' w :=
  ⟨frame.grouped, frame.deleted, frame.ids, [], by rw [frame.transitions, List.append_nil],
    by simp⟩

/-- A transition inserted between two frames is stamped with the pin the write read. -/
theorem pinning_insert {t : TransitionWrite} {graphId : String} (first : Frame tables middle)
    (last : Frame (insertTransition middle t graphId now) tables')
    (moves : target w = some (t.chunkId, t.toNodeId))
    (pin : graphIdOf tables t.chunkId = some graphId) : Pinning tables tables' w where
  grouped := last.grouped.trans first.grouped
  deleted := last.deleted.trans first.deleted
  ids := last.ids.trans first.ids
  transitions := by
    have same : (insertTransition middle t graphId now).transitions = tables.transitions ++
        [⟨t.transitionId, t.chunkId, graphId, t.fromNodeId, t.toNodeId, t.choiceName, t.decisionId,
          t.epoch, t.runnerId, now⟩] := by
      rw [insertTransition, first.transitions]
    refine ⟨_, last.transitions.trans same, ?_⟩
    intro row inside
    rw [List.mem_singleton.mp inside]
    exact ⟨moves, pin⟩

theorem transition_pinning (tables : Tables) (t : TransitionWrite) (now : Instant) :
    Pinning tables (recordTransitionConn tables t now).1 (.transition t) := by
  rw [recordTransitionConn]
  split
  · exact (Frame.refl tables).pinning
  · split
    · exact (Frame.refl tables).pinning
    next graphId pin =>
      exact pinning_insert (.refl tables) (insertArtifacts_frame _ t.artifacts now) rfl pin

theorem hubTransition_pinning (tables : Tables) (t : TransitionWrite) (releaseRoute : Bool)
    (now : Instant) :
    Pinning tables (transitionConn tables t releaseRoute now).1 (.hubTransition t releaseRoute) := by
  rw [transitionConn]
  split
  · exact (Frame.refl tables).pinning
  · split
    · exact (Frame.refl tables).pinning
    · split
      · exact (Frame.refl tables).pinning
      next graphId pin =>
        exact pinning_insert (t := { t with decisionId := none })
          (recordHubLease_frame tables t.chunkId t.epoch t.runnerId now)
          ((insertArtifacts_frame _ t.artifacts now).trans (releaseRouteIf_frame ..)) rfl pin

theorem finalizeDelivery_pinning (tables : Tables) (t : TransitionWrite) (now : Instant) :
    Pinning tables (FencedWrites.finalizeDelivery tables t now).1 (.finalizeDelivery t) := by
  rw [FencedWrites.finalizeDelivery]
  split
  · exact (Frame.refl tables).pinning
  · split
    · exact (Frame.refl tables).pinning
    next graphId pin =>
      have landed : Frame (recordHubLease tables t.chunkId t.epoch t.runnerId now)
          (insertDeliveryLanded (recordHubLease tables t.chunkId t.epoch t.runnerId now) t.chunkId
            now) := ⟨rfl, rfl, rfl, rfl⟩
      exact pinning_insert (t := { t with decisionId := none })
        ((recordHubLease_frame tables t.chunkId t.epoch t.runnerId now).trans landed)
        ⟨rfl, rfl, rfl, rfl⟩ rfl pin

theorem mint_frame (tables : Tables) (chunkId : ChunkId) (epoch : ℤ) (claimant : Claimant)
    (now : Instant) : Frame tables (recordLeaseMinted tables chunkId epoch claimant now).1 := by
  rw [recordLeaseMinted]
  dsimp only
  split
  · exact .refl tables
  · split
    · exact (recordEpochOwner_frame tables chunkId epoch _ now).trans ⟨rfl, rfl, rfl, rfl⟩
    · exact ⟨rfl, rfl, rfl, rfl⟩

theorem restart_frame (tables : Tables) (w : RestartWrite) (now : Instant) :
    Frame tables (recordRestartConn tables w now).1 := by
  rw [recordRestartConn]
  dsimp only
  split
  · exact .refl tables
  next graphId _ =>
    have answered := answers_frame w.answer w.by_ now w.answeredQuestionIds tables
    have repinned := answered.trans
      (repinByRestart_frame _ w graphId (latestEpoch tables w.chunkId + 1) now)
    refine Frame.trans ?_ (recordEpochOwner_frame ..)
    exact repinned.trans ⟨rfl, rfl, rfl, rfl⟩

theorem migration_frame (tables : Tables) (w : MigrationWrite) (now : Instant) :
    Frame tables (recordMigrationConn tables w now).1 := by
  rw [recordMigrationConn]
  split
  · exact .refl tables
  · split
    · exact .refl tables
    · exact ((insertMigration_frame tables w now).trans (releaseRouteIf_frame ..)).trans
        (insertArtifacts_frame ..)

theorem bounceEscalation_frame (tables : Tables) (w : EscalationWrite) (runnerId : RunnerId)
    (now : Instant) : Frame tables (bounceEscalationConn tables w runnerId now).1 := by
  rw [bounceEscalationConn]
  split
  · exact .refl tables
  · split
    · exact .refl tables
    · exact (recordHubLease_frame tables w.chunkId w.epoch runnerId now).trans ⟨rfl, rfl, rfl, rfl⟩

theorem escalation_frame (tables : Tables) (w : EscalationWrite) (now : Instant) :
    Frame tables (recordEscalation tables w now).1 := by
  rw [recordEscalation]
  split <;> exact ⟨rfl, rfl, rfl, rfl⟩

theorem question_frame (tables : Tables) (w : QuestionWrite) (now : Instant) :
    Frame tables (recordQuestion tables w now).1 := by
  rw [recordQuestion]
  split
  · exact .refl tables
  · split
    · exact .refl tables
    · split <;> exact ⟨rfl, rfl, rfl, rfl⟩

theorem decision_frame (tables : Tables) (w : DecisionWrite) (now : Instant) :
    Frame tables (recordDecisionLocked tables w now).1 := by
  rw [recordDecisionLocked, recordDecisionConn]
  split
  · exact .refl tables
  · split
    · exact .refl tables
    · split
      · exact .refl tables
      next projectId _ =>
        have decided : Frame tables (insertDecision tables w projectId now) := ⟨rfl, rfl, rfl, rfl⟩
        exact decided.trans (insertArtifacts_frame ..)

/-- Every write keeps the frame, a transition write but for its own row. -/
theorem exec_pinning (tables : Tables) (now : Instant) (w : ChunkWrite) :
    Pinning tables (exec tables now w).1 w := by
  cases w with
  | claim route =>
    have claimed : Frame tables (recordRouteConn tables route now) := by
      have minted : Frame tables (recordRouteToken (insertRouteCreated tables route now)
          route.chunkId route.tokenHash now) := ⟨rfl, rfl, rfl, rfl⟩
      exact minted.trans (recordEpochOwner_frame ..)
    exact claimed.pinning
  | release chunkId cause reason =>
    exact Frame.pinning ⟨rfl, rfl, rfl, rfl⟩
  | rekey chunkId tokenHash => exact Frame.pinning ⟨rfl, rfl, rfl, rfl⟩
  | mint chunkId epoch claimant => exact (mint_frame tables chunkId epoch claimant now).pinning
  | restart w => exact (restart_frame tables w now).pinning
  | hubTransition t releaseRoute => exact hubTransition_pinning tables t releaseRoute now
  | bounceEscalation w runnerId => exact (bounceEscalation_frame tables w runnerId now).pinning
  | finalizeDelivery t => exact finalizeDelivery_pinning tables t now
  | transition t => exact transition_pinning tables t now
  | migration w => exact (migration_frame tables w now).pinning
  | escalation w => exact (escalation_frame tables w now).pinning
  | question w => exact (question_frame tables w now).pinning
  | decision w => exact (decision_frame tables w now).pinning
  | stop chunkId stoppedBy =>
    have stopped : Frame tables (insertStopped tables chunkId stoppedBy now) := ⟨rfl, rfl, rfl, rfl⟩
    exact (stopped.trans (releaseRouteIf_frame ..)).pinning
  | complete chunkId completedBy =>
    have completed : Frame tables (insertCompleted tables chunkId completedBy now) :=
      ⟨rfl, rfl, rfl, rfl⟩
    exact (completed.trans (releaseRouteIf_frame ..)).pinning

end Blizzard.GraphPinning
