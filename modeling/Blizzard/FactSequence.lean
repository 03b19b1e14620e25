import Blizzard.HubTables
import Mathlib.Tactic.Common

/-! # A runner host's sequenced facts

Bindings, releases, pause parks and their resumes are numbered per runner by one
counter, in the transaction that writes the row. The store judges a closer against
its opener by that number; the invariant checker re-derives the parks by their
instants. -/
namespace Blizzard.FactSequence
open HubTables

/-- A row of a sequenced fact table: the runner and number its one door stamps on it. -/
structure Sequenced (α : Type) where
  runnerId : RunnerId
  seq : ℕ
  values : α
  deriving DecidableEq, Repr

structure EnvBinding where
  chunkId : ChunkId
  environmentId : String
  workdir : String
  boundAt : Instant
  workspaceId : Option String
  projectId : Option String
  deriving DecidableEq, Repr

structure BindingRelease where
  chunkId : ChunkId
  environmentId : String
  releasedAt : Instant
  deriving DecidableEq, Repr

structure PausePark where
  leaseId : String
  chunkId : ChunkId
  parkedAt : Instant
  deriving DecidableEq, Repr

structure PauseParkResume where
  leaseId : String
  resumedAt : Instant
  deriving DecidableEq, Repr

/-- A row of `lease_closures`, which no counter numbers. -/
structure LeaseClosure where
  runnerId : RunnerId
  leaseId : String
  closedAt : Instant
  deriving DecidableEq, Repr

/-- The tables every runner of the host writes; a runner with no counter row has issued `0`. -/
structure HostStore where
  factCounters : RunnerId → ℕ := fun _ => 0
  envBindings : List (Sequenced EnvBinding) := []
  bindingReleases : List (Sequenced BindingRelease) := []
  pauseParks : List (Sequenced PausePark) := []
  pauseParkResumes : List (Sequenced PauseParkResume) := []
  leaseClosures : List LeaseClosure := []

/-! ## Writes -/

/-- The next number of a runner's counter. -/
def HostStore.nextSeq (store : HostStore) (runnerId : RunnerId) : ℕ :=
  store.factCounters runnerId + 1

def HostStore.advanceCounter (store : HostStore) (runnerId : RunnerId) : HostStore :=
  { store with factCounters := fun other =>
      if other = runnerId then store.nextSeq runnerId else store.factCounters other }

/-- The row a runner's next sequenced insert writes. -/
def HostStore.factRow {α : Type} (store : HostStore) (runnerId : RunnerId) (values : α) :
    Sequenced α :=
  ⟨runnerId, store.nextSeq runnerId, values⟩

def recordBinding (store : HostStore) (runnerId : RunnerId) (binding : EnvBinding) : HostStore :=
  { store.advanceCounter runnerId with
    envBindings := store.envBindings ++ [store.factRow runnerId binding] }

def recordRelease (store : HostStore) (runnerId : RunnerId) (release : BindingRelease) : HostStore :=
  { store.advanceCounter runnerId with
    bindingReleases := store.bindingReleases ++ [store.factRow runnerId release] }

def recordPausePark (store : HostStore) (runnerId : RunnerId) (park : PausePark) : HostStore :=
  { store.advanceCounter runnerId with
    pauseParks := store.pauseParks ++ [store.factRow runnerId park] }

def recordPauseParkResume (store : HostStore) (runnerId : RunnerId) (resume : PauseParkResume) :
    HostStore :=
  { store.advanceCounter runnerId with
    pauseParkResumes := store.pauseParkResumes ++ [store.factRow runnerId resume] }

def recordClosure (store : HostStore) (runnerId : RunnerId) (leaseId : String)
    (closedAt : Instant) : HostStore :=
  { store with leaseClosures := store.leaseClosures ++ [⟨runnerId, leaseId, closedAt⟩] }

/-! ## The store's predicates -/

/-- No release of the bound runner's was appended after the binding. -/
def heldBinding (store : HostStore) (runnerId : RunnerId) (row : Sequenced EnvBinding) : Bool :=
  !store.bindingReleases.any fun release =>
    decide (release.runnerId = runnerId) &&
      decide (release.values.chunkId = row.values.chunkId) &&
      decide (release.values.environmentId = row.values.environmentId) &&
      decide (row.seq < release.seq)

/-- No resume of the bound runner's was appended after the park. -/
def unresumedPausePark (store : HostStore) (runnerId : RunnerId) (row : Sequenced PausePark) :
    Bool :=
  !store.pauseParkResumes.any fun resume =>
    decide (resume.runnerId = runnerId) && decide (resume.values.leaseId = row.values.leaseId) &&
      decide (row.seq < resume.seq)

/-- No closing row of the bound runner's names the park's lease. -/
def pauseParkLeaseUnclosed (store : HostStore) (runnerId : RunnerId) (row : Sequenced PausePark) :
    Bool :=
  !store.leaseClosures.any fun closure =>
    decide (closure.runnerId = runnerId) && decide (closure.leaseId = row.values.leaseId)

def openPausePark (store : HostStore) (runnerId : RunnerId) (row : Sequenced PausePark) : Bool :=
  unresumedPausePark store runnerId row && pauseParkLeaseUnclosed store runnerId row

/-- The binding rows the stores keep, each asked of the store bound to its runner. -/
def keptBindings (store : HostStore) : List (Sequenced EnvBinding) :=
  store.envBindings.filter fun row => heldBinding store row.runnerId row

/-- The parks the stores keep open, each asked of the store bound to its runner. -/
def keptParks (store : HostStore) : List (Sequenced PausePark) :=
  store.pauseParks.filter fun row => openPausePark store row.runnerId row

/-! ## The checker's mirrors -/

/-- `UniqueEnvBinding._held_bindings`. -/
def heldBindings (store : HostStore) : List (ChunkId × String × Option String) :=
  (store.envBindings.filter fun row =>
    !store.bindingReleases.any fun release =>
      decide (release.values.chunkId = row.values.chunkId) &&
        decide (release.values.environmentId = row.values.environmentId) &&
        decide (release.runnerId = row.runnerId) && decide (row.seq < release.seq)).map
    fun row => (row.values.chunkId, row.values.environmentId, row.values.workspaceId)

/-- The instants of a lease's resumes. -/
def resumesOf (store : HostStore) (leaseId : String) : List Instant :=
  (store.pauseParkResumes.filter fun resume => resume.values.leaseId = leaseId).map fun resume =>
    resume.values.resumedAt

/-- `OneOpenPauseParkPerLease._open_pause_parks`. -/
def openPauseParks (store : HostStore) : List (String × Instant) :=
  let closed := store.leaseClosures.map (·.leaseId)
  (store.pauseParks.map fun row => (row.values.leaseId, row.values.parkedAt)).filter fun park =>
    decide (park.1 ∉ closed) &&
      !(resumesOf store park.1).any fun resumedAt => decide (park.2 ≤ resumedAt)

end Blizzard.FactSequence
