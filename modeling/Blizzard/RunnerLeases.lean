import Blizzard.HubTables
import Blizzard.LatestRows

/-! # A runner's lease rows

The lease, context, closure and takeover rows of one runner store, in insertion
order, and the reads over them that a mint and a failed attempt rest on. A
closure's reason decides whether its attempt spent a retry, and whether it
completed the node-step. -/
namespace Blizzard.RunnerLeases
open HubTables LatestRows

/-- `lease_closures.reason`, the two store-only mint reasons included. -/
inductive ClosureReason
  | transitioned | reaped | failed | escalated | parked | released | preempted
  | ownerUnresolvableMint | noAcceptableHarnessMint
  deriving DecidableEq, Repr

def mintReasons : List ClosureReason := [.ownerUnresolvableMint, .noAcceptableHarnessMint]

/-- The reasons that close a completed node-step; the newest one at a node ends its visit. -/
def completedStepReasons : List ClosureReason := [.transitioned, .parked]

/-- The reasons whose attempt spends no retry. -/
def unspentReasons : List ClosureReason := [.preempted, .released] ++ mintReasons

/-- The reasons whose attempt spends a retry. -/
def spentReasons : List ClosureReason := [.failed, .reaped, .escalated]

/-- Every closure completes the step, spends a retry or spends none, and only one of the three. -/
theorem reason_cases (reason : ClosureReason) :
    (reason ∈ completedStepReasons ∧ reason ∉ unspentReasons ∧ reason ∉ spentReasons) ∨
      (reason ∉ completedStepReasons ∧ reason ∈ unspentReasons ∧ reason ∉ spentReasons) ∨
      (reason ∉ completedStepReasons ∧ reason ∉ unspentReasons ∧ reason ∈ spentReasons) := by
  cases reason <;> decide

structure LeaseRow where
  leaseId : String
  chunkId : ChunkId
  epoch : ℤ
  deriving DecidableEq, Repr

/-- A row of `lease_context`, written with its lease. -/
structure ContextRow where
  leaseId : String
  chunkId : ChunkId
  nodeId : String
  retriesMax : ℕ
  deriving DecidableEq, Repr

structure ClosureRow where
  leaseId : String
  chunkId : ChunkId
  nodeId : String
  reason : ClosureReason
  deriving DecidableEq, Repr

structure Rows where
  leases : List LeaseRow := []
  contexts : List ContextRow := []
  closures : List ClosureRow := []

variable (rows : Rows) (chunkId : ChunkId) (nodeId : String)

def closedIds : List String := rows.closures.map (·.leaseId)

/-- The chunk's leases with no closure row. -/
def openLeases : List LeaseRow :=
  rows.leases.filter fun l => decide (l.chunkId = chunkId ∧ l.leaseId ∉ closedIds rows)

/-- The greatest lease epoch of the chunk, `0` for none. -/
def leaseEpochMax : ℤ :=
  maxOrZero ((rows.leases.filter fun l => decide (l.chunkId = chunkId)).map (·.epoch))

def unspent : List String :=
  (rows.closures.filter fun x => decide (x.reason ∈ unspentReasons)).map (·.leaseId)

def atNode : List String :=
  (rows.contexts.filter fun c => decide (c.chunkId = chunkId ∧ c.nodeId = nodeId)).map (·.leaseId)

def completed : List String :=
  (rows.closures.filter fun x => decide (x.reason ∈ completedStepReasons ∧
    x.leaseId ∈ atNode rows chunkId nodeId)).map (·.leaseId)

/-- The epoch of the newest completed step at the node. -/
def visitBoundary : ℤ :=
  maxOrZero ((rows.leases.filter fun l =>
    decide (l.leaseId ∈ completed rows chunkId nodeId)).map (·.epoch))

def inVisit : List String :=
  (rows.leases.filter fun l => decide (l.leaseId ∈ atNode rows chunkId nodeId ∧
    visitBoundary rows chunkId nodeId < l.epoch)).map (·.leaseId)

/-- The leases of the visit the retry budget counts, its open one included. -/
def countedAttempts : List ContextRow :=
  rows.contexts.filter fun c => decide ((c.chunkId = chunkId ∧ c.nodeId = nodeId) ∧
    c.leaseId ∈ inVisit rows chunkId nodeId ∧ c.leaseId ∉ unspent rows)

def attemptCount : ℕ := (countedAttempts rows chunkId nodeId).length

/-- One mint: the lease and its context commit together. -/
def insertLease (lease : LeaseRow) (context : ContextRow) : Rows :=
  { rows with leases := rows.leases ++ [lease], contexts := rows.contexts ++ [context] }

def recordClosure (closure : ClosureRow) : Rows :=
  { rows with closures := rows.closures ++ [closure] }

variable {rows chunkId nodeId}

theorem mem_closedIds {id : String} : id ∈ closedIds rows ↔ ∃ x ∈ rows.closures, x.leaseId = id := by
  simp [closedIds]

theorem mem_unspent {id : String} :
    id ∈ unspent rows ↔ ∃ x ∈ rows.closures, x.reason ∈ unspentReasons ∧ x.leaseId = id := by
  simp [unspent, and_assoc]

theorem mem_atNode {id : String} : id ∈ atNode rows chunkId nodeId ↔
    ∃ c ∈ rows.contexts, (c.chunkId = chunkId ∧ c.nodeId = nodeId) ∧ c.leaseId = id := by
  simp [atNode, and_assoc]

theorem mem_completed {id : String} : id ∈ completed rows chunkId nodeId ↔
    ∃ x ∈ rows.closures, x.reason ∈ completedStepReasons ∧ x.leaseId = id ∧
      id ∈ atNode rows chunkId nodeId := by
  simp only [completed, List.mem_map, List.mem_filter, decide_eq_true_eq]
  constructor
  · rintro ⟨x, ⟨inside, reason, node⟩, rfl⟩
    exact ⟨x, inside, reason, rfl, node⟩
  · rintro ⟨x, inside, reason, rfl, node⟩
    exact ⟨x, ⟨inside, reason, node⟩, rfl⟩

theorem maxOrZero_lt {values : List ℤ} {bound : ℤ} (positive : 0 < bound) :
    maxOrZero values < bound ↔ ∀ v ∈ values, v < bound := by
  constructor
  · intro below v mem
    exact lt_of_le_of_lt (le_maxOrZero mem) below
  · intro below
    rcases maxOrZero_eq_zero_or_mem values with zero | mem
    · rw [zero]
      exact positive
    · exact below _ mem

/-- A positive epoch is past the visit's boundary when it is past every completed step's. -/
theorem visitBoundary_lt {bound : ℤ} (positive : 0 < bound) :
    visitBoundary rows chunkId nodeId < bound ↔
      ∀ l ∈ rows.leases, l.leaseId ∈ completed rows chunkId nodeId → l.epoch < bound := by
  rw [visitBoundary, maxOrZero_lt positive]
  simp only [List.forall_mem_map, List.mem_filter, decide_eq_true_eq, and_imp]

theorem leaseEpochMax_lt {bound : ℤ} (positive : 0 < bound) :
    leaseEpochMax rows chunkId < bound ↔
      ∀ l ∈ rows.leases, l.chunkId = chunkId → l.epoch < bound := by
  rw [leaseEpochMax, maxOrZero_lt positive]
  simp only [List.forall_mem_map, List.mem_filter, decide_eq_true_eq, and_imp]

theorem mem_inVisit {id : String} : id ∈ inVisit rows chunkId nodeId ↔
    ∃ l ∈ rows.leases, (l.leaseId ∈ atNode rows chunkId nodeId ∧
      visitBoundary rows chunkId nodeId < l.epoch) ∧ l.leaseId = id := by
  simp [inVisit, and_assoc]

end Blizzard.RunnerLeases
