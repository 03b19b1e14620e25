import Blizzard.HeldChunkMoves
import Blizzard.TakeoverStore

/-! # The two drivers of a held chunk in one tick

FILL reconciles the chunk's interrupted claim and ADVANCE then drives the chunk,
both over one hub view and the runner's own history of the chunk. A start is what
either decides; what comes of a start is the launch's own: nothing, the
environments given back, or one minted lease. -/
namespace Blizzard.HeldChunkDrivers
open HubTables (ChunkId Instant)
open LatestRows HeldChunkMoves TakeoverStore

structure MintedLease where
  epoch : ℤ
  createdAt : Instant
  closed : Bool
  deriving DecidableEq, Repr

/-- What the runner's store holds of one chunk. -/
structure History where
  leases : List MintedLease
  fenceEpochs : List ℤ
  /-- The epoch floor of each release of the chunk. -/
  releaseFloors : List ℤ
  /-- When each held environment was bound. -/
  bindings : List Instant
  openEscalation : Option ℤ

namespace History

variable (history : History)

def latestEpoch : ℤ :=
  max (maxOrZero (history.leases.map (·.epoch))) (maxOrZero history.fenceEpochs)

def hasLeaseInBindingTenure (boundAt : Instant) : Bool :=
  history.leases.any fun l =>
    decide (boundAt ≤ l.createdAt ∧ maxOrZero history.releaseFloors < l.epoch)

def leaseInBindingTenure : Bool :=
  match history.bindings.min? with
  | some boundAt => history.hasLeaseInBindingTenure boundAt
  | none => false

/-- Held with no active lease: the chunks either pass looks at. -/
def held : Bool := !history.bindings.isEmpty && history.leases.all (·.closed)

def releaseChunk : History := { history with bindings := [] }

end History

variable (view : ChunkState) (runnerId : String) (requeued braked : Bool) (open_ : TakeoverHolds)
  (history : History)

/-- The node envelope the hub answers with, its epoch at or above the view's. -/
structure NodeEnvelope where
  epoch : ℤ
  current : ∀ hub, view.latestEpoch = some hub → hub ≤ epoch

/-- What came of a start; `closed` where the mint was an escalation's own. -/
inductive Spawned
  | withheld
  | released
  | minted (envelope : NodeEnvelope view) (createdAt : Instant) (closed : Bool)

variable {view} in
def Spawned.mints : Spawned view → ℕ
  | .minted .. => 1
  | _ => 0

variable {view} in
def Spawned.after : Spawned view → History
  | .withheld => history
  | .released => history.releaseChunk
  | .minted envelope createdAt closed =>
    { history with
      leases := history.leases ++
        [⟨nextLeaseEpoch history.latestEpoch envelope.epoch, createdAt, closed⟩] }

/-! ## FILL -/

/-- FILL's move; only a running chunk's weighs the takeover. -/
def fillMove : InterruptedClaimMove :=
  interruptedClaimMove view runnerId requeued braked
    (if view.status = .known .running then open_.openFor view.chunkId else none)

/-- FILL decides to spawn the current node. -/
def fillSpawns : Bool :=
  match fillMove view runnerId requeued braked open_ with
  | .resumeRequeued => true
  | .adopt => ownsNodeEntry view history.latestEpoch history.openEscalation
      history.leaseInBindingTenure
  | _ => false

/-- FILL spawns, or claims again and spawns once the claim is won. -/
def fillStarts : Bool :=
  fillSpawns view runnerId requeued braked open_ history ||
    decide (fillMove view runnerId requeued braked open_ = .reclaim)

def fillMints (came : Spawned view) : ℕ :=
  if fillStarts view runnerId requeued braked open_ history then came.mints else 0

/-- The history FILL leaves. -/
def reconcile (came : Spawned view) : History :=
  if fillStarts view runnerId requeued braked open_ history then came.after history
  else match fillMove view runnerId requeued braked open_ with
    | .releaseRequeuedElsewhere => history.releaseChunk
    | .releaseOtherRunner => history.releaseChunk
    | .releaseNoRoute => history.releaseChunk
    | _ => history

/-! ## ADVANCE -/

/-- The local epoch is read only where the decision compares against it. -/
def localEpoch : ℤ :=
  if heldChunkReadsLocalEpoch view || open_.covers view.chunkId then history.latestEpoch else 0

def advanceMove : HeldChunkMove :=
  heldChunkMove view runnerId (localEpoch view open_ history)
    (entering view (localEpoch view open_ history) && history.leaseInBindingTenure)
    (open_.holds view.chunkId (some (localEpoch view open_ history)))

/-- ADVANCE decides to spawn the current node. -/
def advanceSpawns : Bool := decide (advanceMove view runnerId open_ history = .spawnAdvanced)

/-- ADVANCE spawns, or resolves a gate and spawns the node the hub answers with. -/
def advanceStarts : Bool :=
  advanceSpawns view runnerId open_ history ||
    decide (advanceMove view runnerId open_ history = .resolveGate)

def advanceMints (came : Spawned view) : ℕ :=
  if history.held && advanceStarts view runnerId open_ history then came.mints else 0

/-- The leases the two passes mint, ADVANCE over the history FILL left. -/
def tickMints (fillCame advanceCame : Spawned view) : ℕ :=
  fillMints view runnerId requeued braked open_ history fillCame +
    advanceMints view runnerId open_
      (reconcile view runnerId requeued braked open_ history fillCame) advanceCame

/-! ## What each pass decides -/

variable {view runnerId requeued braked open_ history}

theorem localEpoch_of_reads (reads : heldChunkReadsLocalEpoch view ∨ open_.covers view.chunkId) :
    localEpoch view open_ history = history.latestEpoch := by
  simp [localEpoch, reads]

theorem reads_of_running {hub : ℤ} (running : view.status = .known .running)
    (at_ : view.latestEpoch = some hub) : heldChunkReadsLocalEpoch view := by
  simp [heldChunkReadsLocalEpoch, running, at_]

/-- ADVANCE enters only a running chunk above the runner's own epoch that FILL does not own. -/
theorem advanceSpawns_iff : advanceSpawns view runnerId open_ history ↔
    open_.holds view.chunkId (some (localEpoch view open_ history)) = false ∧
      heldChunkMoveCore view runnerId (localEpoch view open_ history)
        (entering view (localEpoch view open_ history) && history.leaseInBindingTenure)
        = .spawnAdvanced := by
  have start : HeldChunkMove.spawnAdvanced ∈ takeoverSuppressedHeldMoves := by decide
  rw [advanceSpawns, decide_eq_true_eq, advanceMove, heldChunkMove_suppressed start]

theorem advanceSpawns_entering (spawns : advanceSpawns view runnerId open_ history) :
    entering view history.latestEpoch ∧
      ownsNodeEntry view history.latestEpoch none history.leaseInBindingTenure = false := by
  obtain ⟨enters, unowned⟩ := heldChunkMoveCore_spawnAdvanced (advanceSpawns_iff.mp spawns).2
  obtain ⟨running, hub, at_, -⟩ := entering_iff.mp enters
  have same : localEpoch view open_ history = history.latestEpoch :=
    localEpoch_of_reads (.inl (reads_of_running running at_))
  rw [same] at enters unowned
  rw [enters, Bool.true_and] at unowned
  exact ⟨enters, unowned⟩

theorem advanceStarts_cases (starts : advanceStarts view runnerId open_ history) :
    advanceSpawns view runnerId open_ history ∨ view.resolves := by
  rw [advanceStarts, Bool.or_eq_true, decide_eq_true_eq] at starts
  rcases starts with spawns | gate
  · exact .inl spawns
  · have start : HeldChunkMove.resolveGate ∈ takeoverSuppressedHeldMoves := by decide
    rw [advanceMove, heldChunkMove_suppressed start] at gate
    exact .inr (heldChunkMoveCore_resolveGate gate.2)

/-- No start is taken under a takeover of the local epoch. -/
theorem advanceStarts_not_held (starts : advanceStarts view runnerId open_ history) :
    open_.holds view.chunkId (some (localEpoch view open_ history)) = false := by
  rw [advanceStarts, Bool.or_eq_true, decide_eq_true_eq] at starts
  rcases starts with spawns | gate
  · exact (advanceSpawns_iff.mp spawns).1
  · have start : HeldChunkMove.resolveGate ∈ takeoverSuppressedHeldMoves := by decide
    rw [advanceMove, heldChunkMove_suppressed start] at gate
    exact gate.1

/-- With no requeue FILL spawns what it adopts and owns. -/
theorem fillSpawns_iff : fillSpawns view runnerId false braked open_ history ↔
    (view.decision = none ∧
      (view.status = .known .running ∧ view.routeRunnerId = some runnerId) ∧
        (open_.openFor view.chunkId).any (·.holds view.chunkId view.latestEpoch) = false) ∧
      ownsNodeEntry view history.latestEpoch history.openEscalation
        history.leaseInBindingTenure := by
  have shape := @interruptedClaimMove_fresh view runnerId braked
    (if view.status = .known .running then open_.openFor view.chunkId else none)
  constructor
  · intro spawns
    rw [fillSpawns] at spawns
    split at spawns
    next resumed => exact absurd resumed shape.1
    next adopted =>
      have adopts := shape.2.1.mp adopted
      rw [if_pos adopts.2.1.1] at adopts
      exact ⟨adopts, spawns⟩
    · cases spawns
  · rintro ⟨adopts, owned⟩
    have adopted : fillMove view runnerId false braked open_ = .adopt := by
      apply shape.2.1.mpr
      rw [if_pos adopts.2.1.1]
      exact adopts
    rw [fillSpawns, adopted]
    exact owned

theorem fillStarts_cases (starts : fillStarts view runnerId false braked open_ history) :
    view.decision = none ∧
      (fillSpawns view runnerId false braked open_ history ∨ view.status = .known .ready) := by
  rw [fillStarts, Bool.or_eq_true, decide_eq_true_eq] at starts
  rcases starts with spawns | reclaim
  · exact ⟨(fillSpawns_iff.mp spawns).1.1, .inl spawns⟩
  · have ready := interruptedClaimMove_fresh.2.2 reclaim
    exact ⟨ready.1, .inr ready.2⟩

theorem resolves_of_ungated (ungated : view.decision = none) : view.resolves = false := by
  simp [ChunkState.resolves, ungated]

theorem openFor_any_of_not_covers (uncovered : open_.covers view.chunkId = false)
    (epoch : Option ℤ) : (open_.openFor view.chunkId).any (·.holds view.chunkId epoch) = false := by
  rw [Option.any_eq_false]
  intro takeover found
  exact absurd (List.any_eq_true.mpr ⟨takeover, List.mem_of_find?_eq_some found,
    List.find?_some found⟩) (Bool.eq_false_iff.mp uncovered)

/-! ## One driver -/

/-- A free running chunk routed here: no gate, no requeue and no takeover over it. -/
structure Free (view : ChunkState) (runnerId : String) (open_ : TakeoverHolds) : Prop where
  running : view.status = .known .running
  routed : view.routeRunnerId = some runnerId
  ungated : view.decision = none
  untaken : open_.covers view.chunkId = false

theorem Free.fillSpawns_iff (free : Free view runnerId open_) :
    fillSpawns view runnerId false braked open_ history ↔
      ownsNodeEntry view history.latestEpoch history.openEscalation
        history.leaseInBindingTenure := by
  rw [HeldChunkDrivers.fillSpawns_iff]
  have adopts := openFor_any_of_not_covers free.untaken view.latestEpoch
  exact and_iff_right ⟨free.ungated, ⟨free.running, free.routed⟩, adopts⟩

/-- A newer hub epoch of a free chunk is entered by exactly one of the two. -/
theorem Free.one_spawns (free : Free view runnerId open_) {hub : ℤ}
    (at_ : view.latestEpoch = some hub) (above : history.latestEpoch < hub) :
    fillSpawns view runnerId false braked open_ history ↔
      ¬ advanceSpawns view runnerId open_ history := by
  have reads := @localEpoch_of_reads view open_ history (.inl (reads_of_running free.running at_))
  have enters : entering view history.latestEpoch :=
    entering_iff.mpr ⟨free.running, hub, at_, above⟩
  rw [free.fillSpawns_iff, ownsNodeEntry_of_entering enters, advanceSpawns_iff, reads,
    heldChunkMoveCore_running free.running free.ungated, enters]
  simp [TakeoverHolds.not_holds free.untaken]

/-- An equal hub epoch is FILL's, unless its own escalation there is still open. -/
theorem Free.fill_spawns_at_local (free : Free view runnerId open_)
    (same : view.latestEpoch = some history.latestEpoch) :
    fillSpawns view runnerId false braked open_ history ↔
      history.openEscalation ≠ some history.latestEpoch := by
  rw [free.fillSpawns_iff]
  simp [ownsNodeEntry, same]

theorem advance_never_spawns_at_local (same : view.latestEpoch = some history.latestEpoch) :
    advanceSpawns view runnerId open_ history = false := by
  rw [Bool.eq_false_iff]
  intro spawns
  have enters := (advanceSpawns_entering spawns).1
  rw [not_entering_of_eq same] at enters
  cases enters

/-- With no requeue the two never both start. -/
theorem not_both_start (fills : fillStarts view runnerId false braked open_ history) :
    advanceStarts view runnerId open_ history = false := by
  rw [Bool.eq_false_iff]
  intro advances
  obtain ⟨ungated, started⟩ := fillStarts_cases fills
  rcases advanceStarts_cases advances with spawns | resolves
  · obtain ⟨enters, unowned⟩ := advanceSpawns_entering spawns
    have running := (entering_iff.mp enters).1
    rcases started with filled | ready
    · have owned := (fillSpawns_iff.mp filled).2
      rw [ownsNodeEntry_of_entering enters, unowned] at owned
      cases owned
    · rw [running] at ready
      cases ready
  · rw [resolves_of_ungated ungated] at resolves
    cases resolves

/-- A takeover that holds both epochs keeps both passes off a running chunk. -/
theorem neither_starts_under {takeover : OpenTakeover} (inside : takeover ∈ open_.takeovers)
    (running : view.status = .known .running)
    (holdsHub : takeover.holds view.chunkId view.latestEpoch)
    (holdsLocal : takeover.holds view.chunkId (some history.latestEpoch)) :
    fillStarts view runnerId false braked open_ history = false ∧
      advanceStarts view runnerId open_ history = false := by
  have chunk := OpenTakeover.chunk_of_holds holdsHub
  have covered : open_.covers view.chunkId :=
    List.any_eq_true.mpr ⟨takeover, inside, decide_eq_true chunk⟩
  constructor
  · rw [Bool.eq_false_iff]
    intro fills
    rcases (fillStarts_cases fills).2 with spawns | ready
    · have unheld := (fillSpawns_iff.mp spawns).1.2.2
      rw [← chunk, TakeoverHolds.openFor_of_mem inside, chunk] at unheld
      rw [Option.any_some, holdsHub] at unheld
      cases unheld
    · rw [running] at ready
      cases ready
  · rw [Bool.eq_false_iff]
    intro advances
    have unheld := advanceStarts_not_held advances
    rw [localEpoch_of_reads (.inr covered)] at unheld
    have held : open_.holds view.chunkId (some history.latestEpoch) :=
      List.any_eq_true.mpr ⟨takeover, inside, holdsLocal⟩
    rw [held] at unheld
    cases unheld

/-! ## Mints -/

theorem Spawned.mints_le_one (came : Spawned view) : came.mints ≤ 1 := by
  cases came <;> simp [Spawned.mints]

/-- A lease FILL minted lies above the hub epoch both passes read. -/
theorem mint_above {envelope : NodeEnvelope view} {createdAt : Instant} {closed : Bool} {hub : ℤ}
    (at_ : view.latestEpoch = some hub) :
    hub < (Spawned.after history (.minted envelope createdAt closed)).latestEpoch := by
  have above : hub < nextLeaseEpoch history.latestEpoch envelope.epoch := by
    rw [nextLeaseEpoch, Int.lt_add_one_iff]
    exact le_trans (envelope.current hub at_) (le_max_right _ _)
  refine lt_of_lt_of_le above (le_trans (le_maxOrZero ?_) (le_max_left _ _))
  simp [Spawned.after]

/-- Whatever FILL minted, ADVANCE does not enter the chunk as advanced. -/
theorem advance_never_spawns_after_mint {envelope : NodeEnvelope view} {createdAt : Instant}
    {closed : Bool} : advanceSpawns view runnerId open_
      (Spawned.after history (.minted envelope createdAt closed)) = false := by
  rw [Bool.eq_false_iff]
  intro spawns
  obtain ⟨-, hub, at_, above⟩ := entering_iff.mp (advanceSpawns_entering spawns).1
  exact absurd above (lt_asymm (mint_above at_))

theorem not_held_of_open_mint {envelope : NodeEnvelope view} {createdAt : Instant} :
    (Spawned.after history (.minted envelope createdAt false)).held = false := by
  simp [Spawned.after, History.held]

/-- FILL takes no start without a requeue from a view whose gate ADVANCE resolves. -/
theorem requeued_of_resolves (fills : fillStarts view runnerId requeued braked open_ history)
    (resolves : view.resolves) : requeued = true := by
  cases requeued with
  | true => rfl
  | false =>
    rw [resolves_of_ungated (fillStarts_cases fills).1] at resolves
    cases resolves

/-- Both passes mint only past a requeued lease closed at once and a gate left to resolve. -/
theorem both_mint {fillCame advanceCame : Spawned view}
    (filled : fillMints view runnerId requeued braked open_ history fillCame ≠ 0)
    (advanced : advanceMints view runnerId open_
      (reconcile view runnerId requeued braked open_ history fillCame) advanceCame ≠ 0) :
    requeued = true ∧ view.resolves ∧
      ∃ envelope createdAt, fillCame = .minted envelope createdAt true := by
  rw [fillMints, ite_ne_right_iff] at filled
  obtain ⟨fills, minted⟩ := filled
  rw [reconcile, if_pos fills, advanceMints, ite_ne_right_iff, Bool.and_eq_true] at advanced
  obtain ⟨⟨held, advances⟩, -⟩ := advanced
  cases fillCame with
  | withheld => exact absurd rfl minted
  | released => exact absurd rfl minted
  | minted envelope createdAt closed =>
    have resolves : view.resolves := by
      rcases advanceStarts_cases advances with spawns | gate
      · rw [advance_never_spawns_after_mint] at spawns
        cases spawns
      · exact gate
    cases closed with
    | true => exact ⟨requeued_of_resolves fills resolves, resolves, envelope, createdAt, rfl⟩
    | false =>
      rw [not_held_of_open_mint] at held
      cases held

theorem fillMints_le_one (fillCame : Spawned view) :
    fillMints view runnerId requeued braked open_ history fillCame ≤ 1 := by
  rw [fillMints]
  split
  · exact fillCame.mints_le_one
  · exact Nat.zero_le 1

theorem advanceMints_le_one (advanceCame : Spawned view) :
    advanceMints view runnerId open_ history advanceCame ≤ 1 := by
  rw [advanceMints]
  split
  · exact advanceCame.mints_le_one
  · exact Nat.zero_le 1

/-- A running chunk at epoch 1 whose gate is decided and not yet transitioned. -/
def gatedView : ChunkState :=
  { chunkId := "ch_1", status := .known .running, routeRunnerId := some "rn_1", pause := none,
    latestEpoch := some 1, restartEpochs := [], decision := some ⟨some "approve", false⟩ }

def gatedHistory : History :=
  { leases := [⟨1, 0, true⟩], fenceEpochs := [], releaseFloors := [], bindings := [0],
    openEscalation := none }

def gatedEnvelope : NodeEnvelope gatedView := ⟨1, fun _ at_ => le_of_eq (Option.some.inj at_).symm⟩

end Blizzard.HeldChunkDrivers
