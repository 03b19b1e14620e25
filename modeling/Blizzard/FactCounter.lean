import Blizzard.HubTables
import Blizzard.OpenFacts
import Mathlib.Logic.Function.Basic

/-! # The fact counter of a runner store

The sequenced fact tables of one runner, as one list of rows in commit order, and
the transactions of its concurrent writers. A writer advances the counter row
under its lock before it inserts; the first advance of a store finds no row, and
the writers that saw none race to create it. -/
namespace Blizzard.FactCounter
open HubTables (ChunkId Instant)
open OpenFacts

/-- A row of one of the sequenced tables. -/
inductive Fact
  | envBinding (chunkId : ChunkId) (environmentId : String)
  | bindingRelease (chunkId : ChunkId) (environmentId : String)
  | pausePark (leaseId : String)
  | pauseParkResume (leaseId : String)
  | requeue (chunkId : ChunkId)
  | lease (leaseId : String) (chunkId : ChunkId)
  deriving DecidableEq, Repr

structure FactRow where
  seq : ℕ
  fact : Fact
  recordedAt : Instant
  deriving DecidableEq, Repr

/-- Where a writer stands before it holds the counter. -/
inductive Phase
  | idle
  /-- Its advance found no counter row. -/
  | missed (fact : Fact) (recordedAt : Instant)
  /-- Its insert of the counter row lost to a committed one. -/
  | beaten (fact : Fact) (recordedAt : Instant)
  deriving DecidableEq, Repr

/-- The open transaction that holds the counter's row lock, with what it wrote. -/
structure Holder where
  writer : ℕ
  lastSeq : ℕ
  rows : List FactRow

structure Store where
  /-- The committed counter row. -/
  lastSeq : Option ℕ := none
  rows : List FactRow := []
  closedLeases : List String := []
  phase : ℕ → Phase := fun _ => .idle
  holder : Option Holder := none

inductive Event
  | advance (writer : ℕ) (fact : Fact) (recordedAt : Instant)
  | create (writer : ℕ)
  | retry (writer : ℕ)
  | commit (writer : ℕ)
  | rollback (writer : ℕ)
  | closeLease (leaseId : String)

variable (store : Store) (writer : ℕ) (fact : Fact) (recordedAt : Instant)

/-- The writer takes the lock at `last` and inserts its row under the next number. -/
def insertFactRow (last : ℕ) : Store :=
  { store with
    holder := some ⟨writer, last + 1, [⟨last + 1, fact, recordedAt⟩]⟩,
    phase := Function.update store.phase writer .idle }

/-- A further row in the transaction that already holds the lock. -/
def Holder.insertFactRow (holder : Holder) : Holder :=
  { holder with
    lastSeq := holder.lastSeq + 1,
    rows := holder.rows ++ [⟨holder.lastSeq + 1, fact, recordedAt⟩] }

def setPhase (phase : Phase) : Store :=
  { store with phase := Function.update store.phase writer phase }

/-- The update of the counter row: queued behind its lock, and without effect where there is no
committed row to update. -/
def advance : Store :=
  if store.phase writer ≠ .idle then store
  else match store.holder, store.lastSeq with
    | some holder, last =>
      if holder.writer = writer then
        { store with holder := some (holder.insertFactRow fact recordedAt) }
      else if last.isSome then store
      else setPhase store writer (.missed fact recordedAt)
    | none, some last => insertFactRow store writer fact recordedAt last
    | none, none => setPhase store writer (.missed fact recordedAt)

/-- The insert of the counter row: queued behind another's open insert, refused by a committed
row. -/
def create : Store :=
  match store.phase writer, store.holder, store.lastSeq with
  | .missed fact recordedAt, none, none => insertFactRow store writer fact recordedAt 0
  | .missed fact recordedAt, none, some _ => setPhase store writer (.beaten fact recordedAt)
  | _, _, _ => store

def retry : Store :=
  match store.phase writer, store.holder, store.lastSeq with
  | .beaten fact recordedAt, none, some last => insertFactRow store writer fact recordedAt last
  | _, _, _ => store

def commit : Store :=
  match store.holder with
  | some holder =>
    if holder.writer = writer then
      { store with
        lastSeq := some holder.lastSeq, rows := store.rows ++ holder.rows, holder := none }
    else store
  | none => store

def rollback : Store :=
  match store.holder with
  | some holder =>
    if holder.writer = writer then { store with holder := none } else setPhase store writer .idle
  | none => setPhase store writer .idle

def step (store : Store) : Event → Store
  | .advance writer fact recordedAt => advance store writer fact recordedAt
  | .create writer => create store writer
  | .retry writer => retry store writer
  | .commit writer => commit store writer
  | .rollback writer => rollback store writer
  | .closeLease leaseId => { store with closedLeases := store.closedLeases ++ [leaseId] }

def run (store : Store) (events : List Event) : Store := events.foldl step store

/-! ## The reads -/

def isBinding (chunkId : ChunkId) (environmentId : String) (row : FactRow) : Bool :=
  decide (row.fact = .envBinding chunkId environmentId)

def isRelease (chunkId : ChunkId) (environmentId : String) (row : FactRow) : Bool :=
  decide (row.fact = .bindingRelease chunkId environmentId)

def isPark (leaseId : String) (row : FactRow) : Bool := decide (row.fact = .pausePark leaseId)

def isResume (leaseId : String) (row : FactRow) : Bool :=
  decide (row.fact = .pauseParkResume leaseId)

def isRequeue (chunkId : ChunkId) (row : FactRow) : Bool := decide (row.fact = .requeue chunkId)

def isLeaseOf (chunkId : ChunkId) (row : FactRow) : Bool :=
  match row.fact with
  | .lease _ chunk => decide (chunk = chunkId)
  | _ => false

variable {store writer fact recordedAt}

/-- A binding no release of the same chunk and environment was appended after. -/
def HeldBinding (store : Store) (chunkId : ChunkId) (environmentId : String) : Prop :=
  Standing (·.seq) (isBinding chunkId environmentId) (isRelease chunkId environmentId) store.rows

/-- A park no resume of its lease was appended after, of a lease that is not closed. -/
def OpenPausePark (store : Store) (leaseId : String) : Prop :=
  Standing (·.seq) (isPark leaseId) (isResume leaseId) store.rows ∧ leaseId ∉ store.closedLeases

/-- A requeue no lease of the chunk was minted after. -/
def UnconsumedRequeue (store : Store) (chunkId : ChunkId) : Prop :=
  Standing (·.seq) (isRequeue chunkId) (isLeaseOf chunkId) store.rows

/-! ## Numbering -/

/-- Rows numbered without a gap from `start`, in their order. -/
def Numbered (start : ℕ) (rows : List FactRow) : Prop :=
  rows.map (·.seq) = List.range' start rows.length

theorem Numbered.append {start : ℕ} {rows more : List FactRow} (h : Numbered start rows)
    (h' : Numbered (start + rows.length) more) : Numbered start (rows ++ more) := by
  rw [Numbered, List.map_append, h, h', List.range'_append_1, List.length_append]

theorem Numbered.single (row : FactRow) : Numbered row.seq [row] := rfl

theorem Numbered.sorted {start : ℕ} {rows : List FactRow} (h : Numbered start rows) :
    rows.Pairwise fun a b => a.seq < b.seq := by
  have rising : (rows.map (·.seq)).Pairwise (· < ·) := by
    rw [h]
    exact List.pairwise_lt_range'
  exact List.pairwise_map.mp rising

/-- The committed rows are numbered from one up to the counter, and the holder's follow them. -/
structure Lawful (store : Store) : Prop where
  numbered : Numbered 1 store.rows
  counted : store.lastSeq.getD 0 = store.rows.length
  held : ∀ holder ∈ store.holder, Numbered (store.rows.length + 1) holder.rows ∧
    holder.lastSeq = store.rows.length + holder.rows.length

theorem lawful_empty : Lawful {} := by
  refine ⟨rfl, rfl, ?_⟩
  intro holder never
  cases never

theorem lawful_insertFactRow {last : ℕ} (lawful : Lawful store)
    (counter : store.lastSeq.getD 0 = last) :
    Lawful (insertFactRow store writer fact recordedAt last) := by
  refine ⟨lawful.numbered, lawful.counted, ?_⟩
  intro holder is_
  cases is_
  have length : store.rows.length = last := lawful.counted.symm.trans counter
  refine ⟨?_, ?_⟩
  · rw [show (insertFactRow store writer fact recordedAt last).rows = store.rows from rfl, length]
    exact Numbered.single _
  · rw [show (insertFactRow store writer fact recordedAt last).rows = store.rows from rfl, length]
    rfl

theorem lawful_further {holder : Holder} (lawful : Lawful store) (holds : store.holder = some holder) :
    Lawful { store with holder := some (holder.insertFactRow fact recordedAt) } := by
  refine ⟨lawful.numbered, lawful.counted, ?_⟩
  intro later is_
  cases is_
  obtain ⟨numbered, last⟩ := lawful.held holder holds
  constructor
  · apply Numbered.append numbered
    have next : store.rows.length + 1 + holder.rows.length = holder.lastSeq + 1 := by omega
    rw [next]
    exact Numbered.single _
  · simp only [Holder.insertFactRow, List.length_append, List.length_singleton]
    omega

theorem lawful_setPhase {phase : Phase} (lawful : Lawful store) :
    Lawful (setPhase store writer phase) :=
  ⟨lawful.numbered, lawful.counted, lawful.held⟩

theorem lawful_advance (lawful : Lawful store) : Lawful (advance store writer fact recordedAt) := by
  rw [advance]
  split
  · exact lawful
  · split
    next holder holds =>
      split
      · exact lawful_further lawful holds
      · split
        · exact lawful
        · exact lawful_setPhase lawful
    next last _ counter => exact lawful_insertFactRow lawful (by rw [counter, Option.getD_some])
    · exact lawful_setPhase lawful

theorem lawful_create (lawful : Lawful store) : Lawful (create store writer) := by
  rw [create]
  split
  next counter => exact lawful_insertFactRow lawful (by rw [counter, Option.getD_none])
  · exact lawful_setPhase lawful
  · exact lawful

theorem lawful_retry (lawful : Lawful store) : Lawful (retry store writer) := by
  rw [retry]
  split
  next counter => exact lawful_insertFactRow lawful (by rw [counter, Option.getD_some])
  · exact lawful

theorem lawful_commit (lawful : Lawful store) : Lawful (commit store writer) := by
  rw [commit]
  split
  next holder holds =>
    split
    · obtain ⟨numbered, last⟩ := lawful.held holder holds
      refine ⟨?_, ?_, ?_⟩
      · apply Numbered.append lawful.numbered
        rw [Nat.add_comm]
        exact numbered
      · rw [Option.getD_some, List.length_append, last]
      · intro later never
        cases never
    · exact lawful
  · exact lawful

theorem lawful_rollback (lawful : Lawful store) : Lawful (rollback store writer) := by
  rw [rollback]
  split
  · split
    · refine ⟨lawful.numbered, lawful.counted, ?_⟩
      intro later never
      cases never
    · exact lawful_setPhase lawful
  · exact lawful_setPhase lawful

theorem lawful_step (lawful : Lawful store) (event : Event) : Lawful (step store event) := by
  cases event with
  | advance writer fact recordedAt => exact lawful_advance lawful
  | create writer => exact lawful_create lawful
  | retry writer => exact lawful_retry lawful
  | commit writer => exact lawful_commit lawful
  | rollback writer => exact lawful_rollback lawful
  | closeLease leaseId => exact ⟨lawful.numbered, lawful.counted, lawful.held⟩

theorem lawful_run (lawful : Lawful store) (events : List Event) : Lawful (run store events) := by
  induction events generalizing store with
  | nil => exact lawful
  | cons event rest ih => exact ih (lawful_step lawful event)

/-! ## Appending -/

@[simp] theorem insertFactRow_rows {last : ℕ} :
    (insertFactRow store writer fact recordedAt last).rows = store.rows := rfl

@[simp] theorem setPhase_rows {phase : Phase} : (setPhase store writer phase).rows = store.rows := rfl

/-- Only a commit shows rows, and it shows them after every row committed before. -/
theorem step_rows (event : Event) : ∃ more, (step store event).rows = store.rows ++ more := by
  cases event with
  | advance writer fact recordedAt =>
    refine ⟨[], ?_⟩
    rw [List.append_nil, step, advance]
    split
    · rfl
    · split
      · split
        · rfl
        · split <;> rfl
      · rfl
      · rfl
  | create writer =>
    refine ⟨[], ?_⟩
    rw [List.append_nil, step, create]
    split <;> rfl
  | retry writer =>
    refine ⟨[], ?_⟩
    rw [List.append_nil, step, retry]
    split <;> rfl
  | commit writer =>
    rw [step, commit]
    split
    next holder _ =>
      split
      · exact ⟨holder.rows, rfl⟩
      · exact ⟨[], (List.append_nil _).symm⟩
    · exact ⟨[], (List.append_nil _).symm⟩
  | rollback writer =>
    refine ⟨[], ?_⟩
    rw [List.append_nil, step, rollback]
    split
    · split <;> rfl
    · rfl
  | closeLease leaseId => exact ⟨[], (List.append_nil _).symm⟩

/-! ## What is open -/

theorem binding_not_release (chunkId : ChunkId) (environmentId : String) (row : FactRow)
    (binding : isBinding chunkId environmentId row) :
    isRelease chunkId environmentId row = false := by
  simp only [isBinding, decide_eq_true_eq] at binding
  simp [isRelease, binding]

theorem park_not_resume (leaseId : String) (row : FactRow) (park : isPark leaseId row) :
    isResume leaseId row = false := by
  simp only [isPark, decide_eq_true_eq] at park
  simp [isResume, park]

theorem requeue_not_lease (chunkId : ChunkId) (row : FactRow) (requeue : isRequeue chunkId row) :
    isLeaseOf chunkId row = false := by
  simp only [isRequeue, decide_eq_true_eq] at requeue
  simp [isLeaseOf, requeue]

/-- A requeue is pending exactly when the chunk's last requeue or mint is a requeue. -/
theorem Lawful.unconsumedRequeue_iff (lawful : Lawful store) (chunkId : ChunkId) :
    UnconsumedRequeue store chunkId ↔
      (lastJudged (isRequeue chunkId) (isLeaseOf chunkId) store.rows).any (isRequeue chunkId) :=
  standing_iff_last lawful.numbered.sorted (requeue_not_lease chunkId)

/-- In every state of every run of the writers, rows rise in commit order, and what is open is
read off the last row that opens or closes. -/
theorem sequence_judged (events : List Event) :
    (run {} events).rows.Pairwise (fun a b => a.seq < b.seq) ∧
    (∀ event, ∃ more, (run {} (events ++ [event])).rows = (run {} events).rows ++ more) ∧
    (∀ chunkId environmentId, HeldBinding (run {} events) chunkId environmentId ↔
      (lastJudged (isBinding chunkId environmentId) (isRelease chunkId environmentId)
        (run {} events).rows).any (isBinding chunkId environmentId)) ∧
    ∀ leaseId, OpenPausePark (run {} events) leaseId ↔
      leaseId ∉ (run {} events).closedLeases ∧
        (lastJudged (isPark leaseId) (isResume leaseId) (run {} events).rows).any
          (isPark leaseId) := by
  have sorted := (lawful_run lawful_empty events).numbered.sorted
  refine ⟨sorted, ?_, ?_, ?_⟩
  · intro event
    rw [run, List.foldl_append]
    exact step_rows event
  · intro chunkId environmentId
    exact standing_iff_last sorted (binding_not_release chunkId environmentId)
  · intro leaseId
    rw [OpenPausePark, standing_iff_last sorted (park_not_resume leaseId), and_comm]

-- Two writers find no counter row; the one that loses the insert numbers its row second.
example : ((run {} [.advance 0 (.envBinding "ch_1" "env_1") 5, .advance 1 (.requeue "ch_1") 5,
    .create 0, .create 1, .commit 0, .create 1, .retry 1, .commit 1]).rows.map (·.seq)) = [1, 2] := by
  decide

end Blizzard.FactCounter
