import Blizzard.StatusLadder

/-! # The moves over a held chunk

What a runner decides about a chunk it holds with no active lease, from one hub
view: FILL over an interrupted claim, ADVANCE over the held chunk. The two share
`ownsNodeEntry`, which says whose entry the current node is. -/
namespace Blizzard.HeldChunkMoves
open HubTables (ChunkId)
open StatusLadder (ChunkStatus terminalStatuses)

/-- A status as the runner parsed it; `unrecognized` satisfies no status test. -/
inductive HubStatus
  | known (status : ChunkStatus)
  | unrecognized (raw : String)
  deriving DecidableEq, Repr

structure ChunkPause where
  setBy : String
  setAt : String
  deriving DecidableEq, Repr

/-- The chunk's newest gate decision, `transitioned` once its resolving transition is recorded. -/
structure ChunkGate where
  resolvedChoice : Option String
  transitioned : Bool
  deriving DecidableEq, Repr

structure ChunkState where
  chunkId : ChunkId
  status : HubStatus
  routeRunnerId : Option String
  pause : Option ChunkPause
  latestEpoch : Option ℤ
  restartEpochs : List ℤ
  decision : Option ChunkGate
  deriving DecidableEq, Repr

def ChunkState.running (view : ChunkState) : Prop := view.status = .known .running

/-- A decided gate whose transition is not recorded. -/
def ChunkState.resolves (view : ChunkState) : Bool :=
  view.decision.any fun gate => gate.resolvedChoice.isSome && !gate.transitioned

def routedAway (view : ChunkState) (runnerId : String) : Bool :=
  decide (view.routeRunnerId ≠ some runnerId)

/-! ## Takeovers -/

structure OpenTakeover where
  chunkId : ChunkId
  referenceEpoch : Option ℤ
  fenceEpoch : Option ℤ
  holdEpoch : Option ℤ
  deriving DecidableEq, Repr

def OpenTakeover.ceiling (takeover : OpenTakeover) : Option ℤ :=
  ([takeover.referenceEpoch, takeover.fenceEpoch, takeover.holdEpoch].filterMap id).max?

/-- A takeover recording no epoch holds the whole chunk. -/
def OpenTakeover.holds (takeover : OpenTakeover) (chunkId : ChunkId) (epoch : Option ℤ) : Bool :=
  if chunkId ≠ takeover.chunkId then false
  else match takeover.ceiling, epoch with
    | some ceiling, some epoch => decide (epoch ≤ ceiling)
    | _, _ => true

/-- Every open takeover of a runner, at most one over a chunk. -/
structure TakeoverHolds where
  takeovers : List OpenTakeover
  onePerChunk : (takeovers.map (·.chunkId)).Nodup

def TakeoverHolds.holds (open_ : TakeoverHolds) (chunkId : ChunkId) (epoch : Option ℤ) : Bool :=
  open_.takeovers.any (·.holds chunkId epoch)

def TakeoverHolds.covers (open_ : TakeoverHolds) (chunkId : ChunkId) : Bool :=
  open_.takeovers.any fun t => decide (t.chunkId = chunkId)

/-- The chunk's own open takeover. -/
def TakeoverHolds.openFor (open_ : TakeoverHolds) (chunkId : ChunkId) : Option OpenTakeover :=
  open_.takeovers.find? fun t => decide (t.chunkId = chunkId)

/-! ## The two decisions -/

/-- Whether FILL, not ADVANCE, spawns a running chunk's lease-less current node. -/
def ownsNodeEntry (view : ChunkState) (localEpoch : ℤ) (openEscalationEpoch : Option ℤ)
    (leaseInBindingTenure : Bool) : Bool :=
  if view.latestEpoch = some localEpoch then decide (openEscalationEpoch ≠ some localEpoch)
  else if view.latestEpoch.any fun hub => decide (localEpoch < hub ∧ hub ∈ view.restartEpochs) then
    true
  else !leaseInBindingTenure

inductive InterruptedClaimMove
  | resumeRequeued | adopt | reclaim | releaseRequeuedElsewhere | releaseOtherRunner
  | releaseNoRoute | hold | holdStatusUnrecognized | holdTakenOver
  deriving DecidableEq, Repr

/-- A pending requeue outranks everything; a resolved gate is left to ADVANCE. -/
def interruptedClaimMove (view : ChunkState) (runnerId : String) (requeued braked : Bool)
    (takeover : Option OpenTakeover) : InterruptedClaimMove :=
  if requeued then
    if view.routeRunnerId ≠ some runnerId then .releaseRequeuedElsewhere
    else match view.status with
      | .known status =>
        if view.pause.isSome ∨ status ∈ terminalStatuses ∨ status = .paused then .hold
        else .resumeRequeued
      | .unrecognized _ => if view.pause.isSome then .hold else .holdStatusUnrecognized
  else if view.decision.isSome then .hold
  else if view.status = .known .running ∧ view.routeRunnerId = some runnerId then
    if takeover.any (·.holds view.chunkId view.latestEpoch) then .holdTakenOver else .adopt
  else if view.status = .known .ready then if braked then .hold else .reclaim
  else match view.routeRunnerId with
    | none => .releaseNoRoute
    | some route => if route ≠ runnerId then .releaseOtherRunner else .hold

inductive HeldChunkMove
  | releaseDone | releaseStopped | releaseDetachedGate | resolveGate | spawnAdvanced | pollHubNode
  | hold
  deriving DecidableEq, Repr

/-- The moves an open takeover suppresses. -/
def takeoverSuppressedHeldMoves : List HeldChunkMove := [.resolveGate, .spawnAdvanced]

def heldChunkReadsLocalEpoch (view : ChunkState) : Bool :=
  decide (view.status = .known .running) && view.latestEpoch.isSome

/-- A running chunk at a hub epoch above this runner's own. -/
def entering (view : ChunkState) (localEpoch : ℤ) : Bool :=
  decide (view.status = .known .running) && view.latestEpoch.any fun hub => decide (localEpoch < hub)

/-- The move before any takeover is weighed. -/
def heldChunkMoveCore (view : ChunkState) (runnerId : String) (localLatestEpoch : ℤ)
    (leaseInBindingTenure : Bool) : HeldChunkMove :=
  if view.status = .known .done then .releaseDone
  else if view.status = .known .stopped then .releaseStopped
  else if view.decision.isSome && routedAway view runnerId then .releaseDetachedGate
  else if view.resolves then .resolveGate
  else if entering view localLatestEpoch &&
      !ownsNodeEntry view localLatestEpoch none leaseInBindingTenure then .spawnAdvanced
  else if view.status = .known .delivering then .pollHubNode
  else .hold

def heldChunkMove (view : ChunkState) (runnerId : String) (localLatestEpoch : ℤ)
    (leaseInBindingTenure takenOver : Bool) : HeldChunkMove :=
  let move := heldChunkMoveCore view runnerId localLatestEpoch leaseInBindingTenure
  if takenOver ∧ move ∈ takeoverSuppressedHeldMoves then .hold else move

/-! ## What the moves say -/

variable {view : ChunkState} {runnerId : String} {localEpoch : ℤ} {tenure takenOver : Bool}

theorem TakeoverHolds.openFor_of_mem {open_ : TakeoverHolds} {takeover : OpenTakeover}
    (inside : takeover ∈ open_.takeovers) : open_.openFor takeover.chunkId = some takeover := by
  obtain ⟨takeovers, distinct⟩ := open_
  induction takeovers with
  | nil => cases inside
  | cons first rest ih =>
    rw [List.map_cons, List.nodup_cons] at distinct
    rcases List.mem_cons.mp inside with rfl | later
    · simp [openFor]
    · have other : first.chunkId ≠ takeover.chunkId := by
        intro same
        exact distinct.1 (same ▸ List.mem_map_of_mem later)
      have found := ih distinct.2 later
      simpa [openFor, other] using found

theorem OpenTakeover.chunk_of_holds {takeover : OpenTakeover} {chunkId : ChunkId}
    {epoch : Option ℤ} (holds : takeover.holds chunkId epoch) : takeover.chunkId = chunkId := by
  by_contra other
  simp [OpenTakeover.holds, Ne.symm other] at holds

theorem TakeoverHolds.covers_of_holds {open_ : TakeoverHolds} {chunkId : ChunkId}
    {epoch : Option ℤ} (holds : open_.holds chunkId epoch) : open_.covers chunkId := by
  obtain ⟨takeover, inside, held⟩ := List.any_eq_true.mp holds
  exact List.any_eq_true.mpr ⟨takeover, inside, decide_eq_true (OpenTakeover.chunk_of_holds held)⟩

theorem TakeoverHolds.not_holds {open_ : TakeoverHolds} {chunkId : ChunkId} {epoch : Option ℤ}
    (uncovered : open_.covers chunkId = false) : open_.holds chunkId epoch = false := by
  rw [Bool.eq_false_iff] at uncovered ⊢
  exact mt TakeoverHolds.covers_of_holds uncovered

variable {requeued braked : Bool} {takeover : Option OpenTakeover}

/-- A pending requeue takes no start but its own. -/
theorem interruptedClaimMove_requeued :
    interruptedClaimMove view runnerId true braked takeover ≠ .adopt ∧
      interruptedClaimMove view runnerId true braked takeover ≠ .reclaim := by
  simp only [interruptedClaimMove, if_true]
  by_cases away : view.routeRunnerId ≠ some runnerId
  · simp [away]
  · rw [if_neg away]
    cases view.status with
    | known status => dsimp only; split <;> simp
    | unrecognized raw => dsimp only; split <;> simp

/-- With no requeue a claim is adopted or made again by its status, and only at no gate. -/
theorem interruptedClaimMove_fresh :
    interruptedClaimMove view runnerId false braked takeover ≠ .resumeRequeued ∧
    (interruptedClaimMove view runnerId false braked takeover = .adopt ↔
      view.decision = none ∧
        (view.status = .known .running ∧ view.routeRunnerId = some runnerId) ∧
          takeover.any (·.holds view.chunkId view.latestEpoch) = false) ∧
    (interruptedClaimMove view runnerId false braked takeover = .reclaim →
      view.decision = none ∧ view.status = .known .ready) := by
  simp only [interruptedClaimMove]
  by_cases gated : view.decision.isSome
  · have some_ : view.decision ≠ none := by
      intro none_
      simp [none_] at gated
    simp [gated, some_]
  · have none_ : view.decision = none := by simpa using gated
    by_cases ours : view.status = .known .running ∧ view.routeRunnerId = some runnerId
    · cases takeover.any (·.holds view.chunkId view.latestEpoch) <;> simp [none_, ours]
    · by_cases ready : view.status = .known .ready
      · cases braked <;> simp [none_, ready]
      · cases routed : view.routeRunnerId with
        | none => simp [none_, ready]
        | some route =>
          have elsewhere : view.status = .known .running → route ≠ runnerId := by
            intro running same
            exact ours ⟨running, by rw [routed, same]⟩
          by_cases mine : route = runnerId <;> simp_all

theorem entering_iff :
    entering view localEpoch ↔
      view.status = .known .running ∧ ∃ hub, view.latestEpoch = some hub ∧ localEpoch < hub := by
  simp [entering, Option.any_eq_true]

theorem heldChunkMoveCore_spawnAdvanced
    (move : heldChunkMoveCore view runnerId localEpoch tenure = .spawnAdvanced) :
    entering view localEpoch ∧ ownsNodeEntry view localEpoch none tenure = false := by
  simp only [heldChunkMoveCore] at move
  split at move
  · cases move
  · split at move
    · cases move
    · split at move
      · cases move
      · split at move
        · cases move
        · split at move
          next enters =>
            rw [Bool.and_eq_true, Bool.not_eq_true'] at enters
            exact enters
          · split at move <;> cases move

theorem heldChunkMoveCore_resolveGate
    (move : heldChunkMoveCore view runnerId localEpoch tenure = .resolveGate) : view.resolves := by
  simp only [heldChunkMoveCore] at move
  split at move
  · cases move
  · split at move
    · cases move
    · split at move
      · cases move
      · split at move
        next resolves => exact resolves
        · split at move
          · cases move
          · split at move <;> cases move

/-- At no gate, a running chunk's move is the entry itself or nothing. -/
theorem heldChunkMoveCore_running (running : view.status = .known .running)
    (ungated : view.decision = none) :
    heldChunkMoveCore view runnerId localEpoch tenure = .spawnAdvanced ↔
      entering view localEpoch ∧ ownsNodeEntry view localEpoch none tenure = false := by
  constructor
  · exact heldChunkMoveCore_spawnAdvanced
  · intro enters
    simp [heldChunkMoveCore, running, ungated, ChunkState.resolves, enters.1, enters.2]

theorem heldChunkMove_takenOver :
    heldChunkMove view runnerId localEpoch tenure true ∉ takeoverSuppressedHeldMoves := by
  simp only [heldChunkMove, true_and]
  split
  · decide
  next free => exact free

/-- A start of ADVANCE is its unsuppressed move, with no takeover over it. -/
theorem heldChunkMove_suppressed {move : HeldChunkMove} (start : move ∈ takeoverSuppressedHeldMoves) :
    heldChunkMove view runnerId localEpoch tenure takenOver = move ↔
      takenOver = false ∧ heldChunkMoveCore view runnerId localEpoch tenure = move := by
  cases takenOver with
  | false => simp [heldChunkMove]
  | true =>
    have free := @heldChunkMove_takenOver view runnerId localEpoch tenure
    constructor
    · intro same
      exact absurd (same ▸ start) free
    · intro never
      cases never.1

/-- An equal hub epoch is never entered as a newer one. -/
theorem not_entering_of_eq (same : view.latestEpoch = some localEpoch) :
    entering view localEpoch = false := by
  rw [Bool.eq_false_iff]
  intro enters
  obtain ⟨-, hub, at_, above⟩ := entering_iff.mp enters
  rw [same, Option.some.injEq] at at_
  exact absurd above (at_ ▸ lt_irrefl _)

/-- Above the local epoch the open escalation decides nothing. -/
theorem ownsNodeEntry_of_entering (enters : entering view localEpoch) (escalation : Option ℤ) :
    ownsNodeEntry view localEpoch escalation tenure = ownsNodeEntry view localEpoch none tenure := by
  obtain ⟨-, hub, at_, above⟩ := entering_iff.mp enters
  have apart : view.latestEpoch ≠ some localEpoch := by
    rw [at_]
    intro same
    exact absurd above (Option.some.inj same ▸ lt_irrefl _)
  simp [ownsNodeEntry, apart]

end Blizzard.HeldChunkMoves
