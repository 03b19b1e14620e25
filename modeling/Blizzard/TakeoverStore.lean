import Blizzard.RunnerLeases
import Mathlib.Data.String.Basic

/-! # Takeover rows and the admission of a takeover

The takeovers and their ends beside a runner's leases, the latest epoch of a
chunk over both, and the two decisions a request takes over what it read: whether
a takeover may open, and with which fence, and whether one ends. -/
namespace Blizzard.TakeoverStore
open HubTables (ChunkId Instant)
open LatestRows RunnerLeases

/-- A row of `takeovers`; `fenceEpoch` is set only where a live worker was displaced. -/
structure TakeoverRow where
  takeoverId : String
  chunkId : ChunkId
  fenceEpoch : Option ℤ
  holdEpoch : ℤ
  openedAt : Instant
  deriving DecidableEq, Repr

structure Store where
  rows : Rows := {}
  takeovers : List TakeoverRow := []
  takeoverEnds : List String := []

variable (store : Store) (chunkId : ChunkId)

def fenceEpochs : List ℤ :=
  (store.takeovers.filter fun t => decide (t.chunkId = chunkId)).filterMap (·.fenceEpoch)

/-- The highest epoch this runner knows of the chunk, minted or fenced, or `0`. -/
def latestEpoch : ℤ := max (leaseEpochMax store.rows chunkId) (maxOrZero (fenceEpochs store chunkId))

def openTakeovers : List TakeoverRow :=
  store.takeovers.filter fun t => decide (t.chunkId = chunkId ∧ t.takeoverId ∉ store.takeoverEnds)

/-- The chunk's newest open takeover, by opening instant and then by id. -/
def openTakeoverForChunk : Option TakeoverRow :=
  (unbeaten (fun t => toLex (t.openedAt, t.takeoverId)) (openTakeovers store chunkId)).getLast?

def activeLeaseForChunk : Option LeaseRow := (openLeases store.rows chunkId).getLast?

def recordTakeover (takeover : TakeoverRow) : Store :=
  { store with takeovers := store.takeovers ++ [takeover] }

def recordTakeoverEnd (takeoverId : String) : Store :=
  { store with takeoverEnds := store.takeoverEnds ++ [takeoverId] }

/-! ## Admission -/

inductive TakeoverState | free | held
  deriving DecidableEq, Repr

inductive TakeoverVerb | enter | endOwn | endOther
  deriving DecidableEq, Repr

inductive TakeoverVerdict | apply | noOp | refuse
  deriving DecidableEq, Repr

/-- Which takeover verbs are legal from which state. -/
def takeoverTransitions : TakeoverState → TakeoverVerb → TakeoverVerdict
  | .free, .enter => .apply
  | .free, .endOwn => .noOp
  | .free, .endOther => .noOp
  | .held, .enter => .refuse
  | .held, .endOwn => .apply
  | .held, .endOther => .refuse

def stateOf : Option TakeoverRow → TakeoverState
  | none => .free
  | some _ => .held

inductive Refusal | chunkNotTakeable | liveWorkerConflict | submissionPending | endedElsewhere
  deriving DecidableEq, Repr

/-- The chunk-keyed facts an open reads; `referenceSession` is the session of the active lease,
else of the newest lease that has one. -/
structure TakeoverOpenScope where
  openTakeover : Option TakeoverRow
  bindings : List String
  activeLease : Option LeaseRow
  referenceSession : Option String
  latestEpoch : ℤ
  requeuePending : Bool
  activeParked : Bool
  submissionPending : Bool

structure TakeoverAdmission where
  session : String
  workdir : String
  live : Bool
  fenceEpoch : Option ℤ
  holdEpoch : ℤ
  deriving DecidableEq, Repr

def admitTakeover (scope : TakeoverOpenScope) (force : Bool) : Except Refusal TakeoverAdmission :=
  if takeoverTransitions (stateOf scope.openTakeover) .enter = .refuse then .error .chunkNotTakeable
  else match scope.bindings with
    | [] => .error .chunkNotTakeable
    | workdir :: _ =>
      let live := scope.activeLease.isSome && !scope.activeParked
      if scope.requeuePending then .error .chunkNotTakeable
      else if live && !force then .error .liveWorkerConflict
      else if live && scope.submissionPending then .error .submissionPending
      else match scope.referenceSession with
        | none => .error .chunkNotTakeable
        | some session => .ok
          { session := session, workdir := workdir, live := live,
            fenceEpoch := if live then some (scope.latestEpoch + 1) else none,
            holdEpoch := scope.latestEpoch }

/-- The open takeover that ending `takeoverId` closes, `none` when there is nothing to close. -/
def takeoverClosing (openTakeover : Option TakeoverRow) (takeoverId : String) :
    Except Refusal (Option TakeoverRow) :=
  let verb : TakeoverVerb :=
    if openTakeover.all fun t => decide (t.takeoverId = takeoverId) then .endOwn else .endOther
  match takeoverTransitions (stateOf openTakeover) verb with
  | .refuse => .error .endedElsewhere
  | .apply => .ok openTakeover
  | .noOp => .ok none

/-- One above both floors. -/
def nextLeaseEpoch (localLatest hubFloor : ℤ) : ℤ := max localLatest hubFloor + 1

variable {store chunkId}

theorem mem_openTakeovers {takeover : TakeoverRow} : takeover ∈ openTakeovers store chunkId ↔
    takeover ∈ store.takeovers ∧ takeover.chunkId = chunkId ∧
      takeover.takeoverId ∉ store.takeoverEnds := by
  simp [openTakeovers]

theorem openTakeoverForChunk_eq_none :
    openTakeoverForChunk store chunkId = none ↔ openTakeovers store chunkId = [] := by
  have same := @unbeaten_getLast?_map_key _ _ _ (fun t : TakeoverRow => toLex (t.openedAt, t.takeoverId))
    (openTakeovers store chunkId)
  rw [openTakeoverForChunk, ← List.argmax_eq_none (f := fun t : TakeoverRow =>
    toLex (t.openedAt, t.takeoverId)), ← Option.map_eq_none_iff, same, Option.map_eq_none_iff]

theorem lease_le_latestEpoch {lease : LeaseRow} (inside : lease ∈ store.rows.leases)
    (chunk : lease.chunkId = chunkId) : lease.epoch ≤ latestEpoch store chunkId := by
  have listed : lease.epoch ∈ (store.rows.leases.filter fun l => decide (l.chunkId = chunkId)).map
      (·.epoch) := List.mem_map_of_mem (List.mem_filter.mpr ⟨inside, decide_eq_true chunk⟩)
  exact le_trans (le_maxOrZero listed) (le_max_left _ _)

theorem fence_le_latestEpoch {takeover : TakeoverRow} {fence : ℤ}
    (inside : takeover ∈ store.takeovers) (chunk : takeover.chunkId = chunkId)
    (fenced : takeover.fenceEpoch = some fence) : fence ≤ latestEpoch store chunkId := by
  have listed : fence ∈ fenceEpochs store chunkId :=
    List.mem_filterMap.mpr ⟨takeover, List.mem_filter.mpr ⟨inside, decide_eq_true chunk⟩, fenced⟩
  exact le_trans (le_maxOrZero listed) (le_max_right _ _)

/-- An admitted takeover found none open, and fences one above the epoch it read or not at all. -/
theorem admitTakeover_ok {scope : TakeoverOpenScope} {force : Bool} {admission : TakeoverAdmission}
    (admitted : admitTakeover scope force = .ok admission) :
    scope.openTakeover = none ∧ admission.holdEpoch = scope.latestEpoch ∧
      (admission.fenceEpoch = none ∨ admission.fenceEpoch = some (scope.latestEpoch + 1)) := by
  simp only [admitTakeover] at admitted
  split at admitted
  · cases admitted
  next enters =>
    have free : scope.openTakeover = none := by
      cases found : scope.openTakeover with
      | none => rfl
      | some row =>
        rw [found] at enters
        exact absurd rfl enters
    split at admitted
    · cases admitted
    · split at admitted
      · cases admitted
      · split at admitted
        · cases admitted
        · split at admitted
          · cases admitted
          · split at admitted
            · cases admitted
            · cases admitted
              refine ⟨free, rfl, ?_⟩
              dsimp only
              split
              · exact .inr rfl
              · exact .inl rfl

/-- Only the open takeover itself is ever closed. -/
theorem takeoverClosing_ok {openTakeover : Option TakeoverRow} {takeoverId : String}
    {record : TakeoverRow} (closing : takeoverClosing openTakeover takeoverId = .ok (some record)) :
    openTakeover = some record ∧ record.takeoverId = takeoverId := by
  cases openTakeover with
  | none => simp [takeoverClosing, stateOf, takeoverTransitions] at closing
  | some row =>
    by_cases own : row.takeoverId = takeoverId
    · simp [takeoverClosing, stateOf, takeoverTransitions, own] at closing
      exact ⟨by rw [closing], closing ▸ own⟩
    · simp [takeoverClosing, stateOf, takeoverTransitions, own] at closing

end Blizzard.TakeoverStore
