import Blizzard.RouteLiveness
import Blizzard.TerminalPredicates

/-! # The write fence

Which epochs a write accepts, who owns an epoch, and the two in-transaction
checks every claimant-carrying write passes: `fence` for a fact of an attempt
and `MintAdmission.refusal` for a runner's own lease mint. -/
namespace Blizzard.EpochFence
open HubTables LatestRows RouteLiveness TerminalPredicates

/-- Which epochs a write accepts, against the chunk's newest. -/
inductive EpochAdmission | current | atOrAbove | above
  deriving DecidableEq, Repr

/-- `newest = 0` means no epoch has been minted yet, which every admission accepts. -/
def EpochAdmission.admits (admission : EpochAdmission) (epoch newest : ℤ) : Bool :=
  if newest = 0 then true
  else
    match admission with
    | .current => decide (epoch = newest)
    | .atOrAbove => decide (newest ≤ epoch)
    | .above => decide (newest < epoch)

/-- Why a fenced write was refused; `latest` is `none` for terminality. -/
structure FenceRefusal where
  epoch : ℤ
  latest : Option ℤ
  detail : String
  deriving DecidableEq, Repr

def FenceRefusal.terminal (epoch : ℤ) : FenceRefusal :=
  ⟨epoch, none, "chunk is terminal"⟩

def FenceRefusal.stale (epoch latest : ℤ) : FenceRefusal :=
  ⟨epoch, some latest, "stale epoch " ++ toString epoch ++ "; chunk is at " ++ toString latest⟩

def FenceRefusal.displaced (epoch latest : ℤ) : FenceRefusal :=
  ⟨epoch, some latest,
    "displaced attempt: epoch " ++ toString epoch ++ " is not this attempt's"⟩

/-- Who took one epoch of a chunk: the hub or one runner. -/
inductive EpochOwner | hub | runner (runnerId : RunnerId)
  deriving DecidableEq, Repr

/-- The `runner_id` column an owner is stored as, `NULL` for the hub. -/
def EpochOwner.runnerId : EpochOwner → Option RunnerId
  | .hub => none
  | .runner runnerId => some runnerId

/-- The runner attempt a write speaks for. -/
structure Claimant where
  runnerId : RunnerId
  leaseId : Option String := none
  deriving DecidableEq, Repr

/-- An unowned or hub-owned epoch is no attempt's; the leases must match when both are known. -/
def Claimant.owns (claimant : Claimant) (owner : Option EpochOwner)
    (owningLeaseId : Option String) : Bool :=
  match owner with
  | none => false
  | some .hub => false
  | some (.runner runnerId) =>
    if runnerId ≠ claimant.runnerId then false
    else
      match owningLeaseId, claimant.leaseId with
      | none, _ => true
      | _, none => true
      | some owning, some lease => decide (owning = lease)

/-- The chunk's state a runner's lease mint is admitted against. -/
structure MintAdmission where
  epoch : ℤ
  newest : ℤ
  terminal : Bool
  owner : Option EpochOwner
  owningLeaseId : Option String
  holdsRoute : Bool
  deriving DecidableEq, Repr

/-- `none` when the mint lands. -/
def MintAdmission.refusal (admission : MintAdmission) (claimant : Claimant) :
    Option FenceRefusal :=
  if admission.terminal then some (.terminal admission.epoch)
  else if !EpochAdmission.atOrAbove.admits admission.epoch admission.newest then
    some (.stale admission.epoch admission.newest)
  else if admission.owner.isSome then
    if claimant.owns admission.owner admission.owningLeaseId then none
    else some (.displaced admission.epoch admission.newest)
  else if decide (admission.newest < admission.epoch) && admission.holdsRoute then none
  else some (.displaced admission.epoch admission.newest)

def MintAdmission.takesOwnership (admission : MintAdmission) : Bool :=
  admission.owner.isNone

def leaseEpochs (tables : Tables) (chunkId : ChunkId) : List ℤ :=
  (tables.leaseFacts.filter (·.chunkId = chunkId)).map (·.epoch)

def restartEpochs (tables : Tables) (chunkId : ChunkId) : List ℤ :=
  (tables.chunkRestarts.filter (·.chunkId = chunkId)).map (·.epoch)

def ownerEpochs (tables : Tables) (chunkId : ChunkId) : List ℤ :=
  (tables.epochOwners.filter (·.chunkId = chunkId)).map (·.epoch)

/-- The newest lease, restart or ownership epoch of the chunk. -/
def latestEpoch (tables : Tables) (chunkId : ChunkId) : ℤ :=
  max (max (maxOrZero (leaseEpochs tables chunkId)) (maxOrZero (restartEpochs tables chunkId)))
    (maxOrZero (ownerEpochs tables chunkId))

/-- The owner recorded for one epoch, `none` while it is unowned. -/
def epochOwner (tables : Tables) (chunkId : ChunkId) (epoch : ℤ) : Option EpochOwner :=
  match tables.epochOwners.find? fun row =>
      decide (row.chunkId = chunkId) && decide (row.epoch = epoch) with
  | none => none
  | some row =>
    match row.runnerId with
    | none => some .hub
    | some runnerId => some (.runner runnerId)

/-- The lease that owns an epoch: the earliest mint at it that named one. -/
def owningLeaseId (tables : Tables) (chunkId : ChunkId) (epoch : ℤ) : Option String :=
  (tables.leaseFacts.find? fun row =>
    decide (row.chunkId = chunkId) && decide (row.epoch = epoch) && row.leaseId.isSome).bind
      (·.leaseId)

/-- Record `owner` for the epoch unless it already has one. -/
def recordEpochOwner (tables : Tables) (chunkId : ChunkId) (epoch : ℤ) (owner : EpochOwner)
    (now : Instant) : Tables :=
  if (epochOwner tables chunkId epoch).isSome then tables
  else
    { tables with
      epochOwners := tables.epochOwners ++ [⟨chunkId, epoch, owner.runnerId, now⟩] }

/-- A hub mint: its lease row and the epoch's hub ownership, together. -/
def recordHubLease (tables : Tables) (chunkId : ChunkId) (epoch : ℤ) (runnerId : RunnerId)
    (now : Instant) : Tables :=
  recordEpochOwner
    { tables with leaseFacts := tables.leaseFacts ++ [{ chunkId, epoch, runnerId, mintedAt := now }] }
    chunkId epoch .hub now

/-- The in-transaction write fence: terminality, then staleness, then displacement. -/
def fence (tables : Tables) (chunkId : ChunkId) (epoch : ℤ) (admission : EpochAdmission)
    (claimant : Option Claimant) : Option FenceRefusal :=
  let newest := latestEpoch tables chunkId
  if chunkIsTerminal tables chunkId then some (.terminal epoch)
  else if !admission.admits epoch newest then some (.stale epoch newest)
  else
    match claimant with
    | none => none
    | some attempt =>
      if attempt.owns (epochOwner tables chunkId epoch) (owningLeaseId tables chunkId epoch) then
        none
      else some (.displaced epoch newest)

/-- The state a runner's mint at `epoch` is admitted against. -/
def mintAdmission (tables : Tables) (chunkId : ChunkId) (epoch : ℤ) (runnerId : RunnerId) :
    MintAdmission where
  epoch := epoch
  newest := latestEpoch tables chunkId
  terminal := chunkIsTerminal tables chunkId
  owner := epochOwner tables chunkId epoch
  owningLeaseId := owningLeaseId tables chunkId epoch
  holdsRoute := (routeOf tables chunkId).any fun route => decide (route.runnerId = runnerId)

theorem admits_of_newest_ne_zero {admission : EpochAdmission} {epoch newest : ℤ}
    (h : admission.admits epoch newest = true) (minted : newest ≠ 0) : newest ≤ epoch := by
  simp only [EpochAdmission.admits, minted, if_false] at h
  cases admission with
  | current => exact (of_decide_eq_true h).ge
  | atOrAbove => exact of_decide_eq_true h
  | above => exact (of_decide_eq_true h).le

theorem owns_runner {claimant : Claimant} {owner : Option EpochOwner} {lease : Option String}
    (h : claimant.owns owner lease = true) : owner = some (.runner claimant.runnerId) := by
  unfold Claimant.owns at h
  split at h
  · cases h
  · cases h
  · split at h
    · cases h
    · rename_i same
      rw [not_not.mp same]

/-- What an admitted claimant-carrying write says of the fence it passed. -/
theorem fence_admits {tables : Tables} {chunkId : ChunkId} {epoch : ℤ} {admission : EpochAdmission}
    {claimant : Claimant} (h : fence tables chunkId epoch admission (some claimant) = none) :
    epochOwner tables chunkId epoch = some (.runner claimant.runnerId) ∧
      (latestEpoch tables chunkId ≠ 0 → latestEpoch tables chunkId ≤ epoch) := by
  simp only [fence] at h
  split at h
  · cases h
  · split at h
    · cases h
    · rename_i admitted
      split at h
      · rename_i owned
        exact ⟨owns_runner owned, admits_of_newest_ne_zero (by simpa using admitted)⟩
      · cases h

/-- What an admitted mint says of the state it was admitted against. -/
theorem refusal_eq_none {admission : MintAdmission} {claimant : Claimant}
    (h : admission.refusal claimant = none) :
    (admission.newest ≠ 0 → admission.newest ≤ admission.epoch) ∧
      (admission.owner = some (.runner claimant.runnerId) ∨
        (admission.owner = none ∧ admission.newest < admission.epoch ∧
          admission.holdsRoute = true)) := by
  unfold MintAdmission.refusal at h
  split at h
  · cases h
  · split at h
    · cases h
    · rename_i admitted
      refine ⟨admits_of_newest_ne_zero (by simpa using admitted), ?_⟩
      split at h
      · split at h
        · rename_i owned
          exact .inl (owns_runner owned)
        · cases h
      · rename_i unowned
        split at h
        · rename_i fresh
          simp only [Bool.and_eq_true, decide_eq_true_eq] at fresh
          exact .inr ⟨by simpa using unowned, fresh.1, fresh.2⟩
        · cases h

theorem epochOwner_eq_some {tables : Tables} {chunkId : ChunkId} {epoch : ℤ} {owner : EpochOwner}
    (h : epochOwner tables chunkId epoch = some owner) :
    ∃ row ∈ tables.epochOwners, row.chunkId = chunkId ∧ row.epoch = epoch ∧
      row.runnerId = owner.runnerId := by
  unfold epochOwner at h
  split at h
  · cases h
  · rename_i row found
    have hrow := List.find?_some found
    simp only [Bool.and_eq_true, decide_eq_true_eq] at hrow
    refine ⟨row, List.mem_of_find?_eq_some found, hrow.1, hrow.2, ?_⟩
    split at h
    · rename_i hub
      obtain rfl := Option.some.inj h
      exact hub
    · rename_i runnerId named
      obtain rfl := Option.some.inj h
      exact named

theorem epochOwner_eq_none {tables : Tables} {chunkId : ChunkId} {epoch : ℤ} :
    epochOwner tables chunkId epoch = none ↔
      ∀ row ∈ tables.epochOwners, row.chunkId = chunkId → row.epoch ≠ epoch := by
  have hfind : epochOwner tables chunkId epoch = none ↔
      tables.epochOwners.find? (fun row =>
        decide (row.chunkId = chunkId) && decide (row.epoch = epoch)) = none := by
    unfold epochOwner
    split
    · simp [*]
    · rename_i row found
      cases hr : row.runnerId <;> simp [found]
  rw [hfind, List.find?_eq_none]
  simp only [Bool.and_eq_true, decide_eq_true_eq, not_and, ne_eq]

/-- An owner already recorded survives every append to `epoch_owners`. -/
theorem epochOwner_append {tables : Tables} {chunkId : ChunkId} {epoch : ℤ} {owner : EpochOwner}
    {rows : List EpochOwnerRow} {tables' : Tables}
    (appended : tables'.epochOwners = tables.epochOwners ++ rows)
    (h : epochOwner tables chunkId epoch = some owner) :
    epochOwner tables' chunkId epoch = some owner := by
  unfold epochOwner at h ⊢
  cases found : tables.epochOwners.find? fun row =>
      decide (row.chunkId = chunkId) && decide (row.epoch = epoch) with
  | none => simp [found] at h
  | some row =>
    rw [appended, List.find?_append, found]
    simpa [found] using h

theorem epoch_le_latestEpoch_of_owner {tables : Tables} {row : EpochOwnerRow}
    (h : row ∈ tables.epochOwners) : row.epoch ≤ latestEpoch tables row.chunkId := by
  have hmem : row.epoch ∈ ownerEpochs tables row.chunkId :=
    List.mem_map_of_mem (by simpa using h)
  exact (le_maxOrZero hmem).trans (le_max_right _ _)

theorem epoch_le_latestEpoch_of_lease {tables : Tables} {row : LeaseRow}
    (h : row ∈ tables.leaseFacts) : row.epoch ≤ latestEpoch tables row.chunkId := by
  have hmem : row.epoch ∈ leaseEpochs tables row.chunkId :=
    List.mem_map_of_mem (by simpa using h)
  exact (le_maxOrZero hmem).trans ((le_max_left _ _).trans (le_max_left _ _))

theorem epoch_le_latestEpoch_of_restart {tables : Tables} {row : RestartRow}
    (h : row ∈ tables.chunkRestarts) : row.epoch ≤ latestEpoch tables row.chunkId := by
  have hmem : row.epoch ∈ restartEpochs tables row.chunkId :=
    List.mem_map_of_mem (by simpa using h)
  exact (le_maxOrZero hmem).trans ((le_max_right _ _).trans (le_max_left _ _))

/-- The latest epoch is `0` or some row's own. -/
theorem latestEpoch_le {tables : Tables} {chunkId : ChunkId} {bound : ℤ} (nonneg : 0 ≤ bound)
    (leases : ∀ row ∈ tables.leaseFacts, row.chunkId = chunkId → row.epoch ≤ bound)
    (restarts : ∀ row ∈ tables.chunkRestarts, row.chunkId = chunkId → row.epoch ≤ bound)
    (owners : ∀ row ∈ tables.epochOwners, row.chunkId = chunkId → row.epoch ≤ bound) :
    latestEpoch tables chunkId ≤ bound := by
  have column {epochs : List ℤ} (h : ∀ e ∈ epochs, e ≤ bound) : maxOrZero epochs ≤ bound := by
    rcases maxOrZero_eq_zero_or_mem epochs with zero | mem
    · exact zero.trans_le nonneg
    · exact h _ mem
  refine max_le (max_le (column ?_) (column ?_)) (column ?_)
  · simp only [leaseEpochs, List.mem_map, List.mem_filter, decide_eq_true_eq]
    rintro _ ⟨row, ⟨hrow, hid⟩, rfl⟩
    exact leases row hrow hid
  · simp only [restartEpochs, List.mem_map, List.mem_filter, decide_eq_true_eq]
    rintro _ ⟨row, ⟨hrow, hid⟩, rfl⟩
    exact restarts row hrow hid
  · simp only [ownerEpochs, List.mem_map, List.mem_filter, decide_eq_true_eq]
    rintro _ ⟨row, ⟨hrow, hid⟩, rfl⟩
    exact owners row hrow hid

end Blizzard.EpochFence
