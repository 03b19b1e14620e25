import Blizzard.HubTables
import Mathlib.Data.List.Sort
import Mathlib.Logic.Function.Basic

/-! # The runner's outboxes

One runner's two outbox tables and their counters in one runner store. Every insert takes the next
number of its lane in the caller's transaction; a transfer copies rows under the numbers they were
issued. -/
namespace Blizzard.OutboxLanes
open HubTables

inductive Lane | outbound | transcript
  deriving DecidableEq, Repr

/-- What a row of `outbound_buffer` or `transcript_outbound_buffer` buffers. -/
inductive Buffered
  | fact (kind : String) (chunkId : Option ChunkId) (leaseId : Option String) (payload : String)
  | delta (segmentId : String) (chunkId : ChunkId) (final : Bool) (payload : String)
  deriving DecidableEq, Repr

def Buffered.lane : Buffered → Lane
  | .fact .. => .outbound
  | .delta .. => .transcript

/-- A completion or a decision, flushed to its own route. -/
def Buffered.isSubmission : Buffered → Bool
  | .fact kind _ _ _ => ["completion.submitted", "decision.submitted"].contains kind
  | .delta .. => false

/-- A final marker, kept once acknowledged. -/
def Buffered.isFinal : Buffered → Bool
  | .fact .. => false
  | .delta _ _ final _ => final

structure OutboxRow where
  seq : ℕ
  entry : Buffered
  createdAt : Instant
  ackedAt : Option Instant := none
  deriving DecidableEq, Repr

def OutboxRow.lane (row : OutboxRow) : Lane := row.entry.lane

/-- A row's primary key under its runner. -/
def OutboxRow.key (row : OutboxRow) : Lane × ℕ := (row.lane, row.seq)

/-- One runner's outbox rows and `outbox_counters` in one store. -/
structure Outbox where
  rows : List OutboxRow := []
  lastSeq : Lane → Option ℕ := fun _ => none

/-! ## Writes -/

/-- The lane's next number: the first one creates the counter's row. -/
def Outbox.advanced (o : Outbox) (lane : Lane) : ℕ :=
  match o.lastSeq lane with
  | none => 1
  | some last => last + 1

/-- Insert one row under the next number of its lane; a number that is held raises. -/
def insertOutboxRow (at_ : Instant) (o : Outbox) (entry : Buffered) : Option Outbox :=
  let row : OutboxRow := { seq := o.advanced entry.lane, entry, createdAt := at_ }
  if row.key ∈ o.rows.map OutboxRow.key then none
  else some
    { rows := o.rows ++ [row]
      lastSeq := Function.update o.lastSeq entry.lane (some row.seq) }

/-- Every insert of one transaction. -/
def insertAll (at_ : Instant) (o : Outbox) (entries : List Buffered) : Option Outbox :=
  entries.foldlM (insertOutboxRow at_) o

def ackOutboundBatch (o : Outbox) (seqs : List ℕ) (ackedAt : Instant) : Outbox :=
  { o with
    rows := o.rows.map fun row =>
      if row.lane = .outbound ∧ row.seq ∈ seqs ∧ row.ackedAt = none then
        { row with ackedAt := some ackedAt }
      else row }

/-- Delete the records delivered and acknowledge the final markers in place. -/
def ackTranscriptOutboundBatch (o : Outbox) (seqs : List ℕ) (ackedAt : Instant) : Outbox :=
  { o with
    rows := (o.rows.filter fun row =>
        ¬(row.lane = .transcript ∧ row.seq ∈ seqs ∧ row.entry.isFinal = false)).map fun row =>
      if row.lane = .transcript ∧ row.seq ∈ seqs ∧ row.entry.isFinal ∧ row.ackedAt = none then
        { row with ackedAt := some ackedAt }
      else row }

def ackBatch : Lane → Outbox → List ℕ → Instant → Outbox
  | .outbound => ackOutboundBatch
  | .transcript => ackTranscriptOutboundBatch

/-- Seven days. -/
def outboundRetentionWindow : ℤ := 7 * 24 * 60 * 60 * 1000000

def Outbox.pendingRows (o : Outbox) (lane : Lane) : List OutboxRow :=
  o.rows.filter fun row => row.lane = lane ∧ row.ackedAt = none

/-- Delete the facts acknowledged before the window, below the lowest still pending. -/
def pruneOutbound (o : Outbox) (now : Instant) : Outbox :=
  let cutoff := now - outboundRetentionWindow
  let floor := ((o.pendingRows .outbound).map (·.seq)).min?
  { o with
    rows := o.rows.filter fun row =>
      ¬(row.lane = .outbound ∧ (∃ acked ∈ row.ackedAt, acked < cutoff) ∧
        ∀ least ∈ floor, row.seq < least) }

/-! ## Transfers -/

/-- The lane's rows as a transfer reads them. -/
def Outbox.laneRows (o : Outbox) (lane : Lane) : List OutboxRow :=
  (o.rows.filter (·.lane = lane)).insertionSort fun a b => a.seq ≤ b.seq

/-- The larger of two counters. -/
def largerCounter : Option ℕ → Option ℕ → Option ℕ
  | none, held => held
  | some offered, none => some offered
  | some offered, some held => some (if held < offered then offered else held)

/-- Copy the source's rows under their numbers and keep each lane's larger counter. -/
def carryOutboxRows (source destination : Outbox) : Option Outbox :=
  let carried := source.laneRows .outbound ++ source.laneRows .transcript
  if ∃ row ∈ carried, row.key ∈ destination.rows.map OutboxRow.key then none
  else some
    { rows := destination.rows ++ carried
      lastSeq := fun lane => largerCounter (source.lastSeq lane) (destination.lastSeq lane) }

def removeRunnerRows (o : Outbox) (keepCounters : Bool) : Outbox :=
  { rows := [], lastSeq := if keepCounters then o.lastSeq else fun _ => none }

/-! ## What a drain reads and sends at once -/

/-- The bound of one drain of a lane. -/
def drainLimit : Lane → ℕ
  | .outbound => 100
  | .transcript => 50

def Outbox.pending (o : Outbox) (lane : Lane) : List OutboxRow :=
  ((o.pendingRows lane).insertionSort fun a b => a.seq ≤ b.seq).take (drainLimit lane)

/-- A delta's estimated wire size: the payload and its number, or a final marker's upper bound. -/
def estimatedSize (row : OutboxRow) : ℕ :=
  match row.entry with
  | .fact _ _ _ payload => payload.utf8ByteSize
  | .delta _ _ final payload => if final then 2048 else payload.utf8ByteSize + 24

/-- The rows that still fit a batch of the size taken. -/
def takeWithin (cap : ℕ) : ℕ → List OutboxRow → List OutboxRow
  | _, [] => []
  | taken, row :: rest =>
    if cap < taken + estimatedSize row then []
    else row :: takeWithin cap (taken + estimatedSize row) rest

/-- The next rows one request carries: a submission alone, a run of other facts, or a batch of
deltas. -/
def nextGroup (cap : ℕ) : Lane → List OutboxRow → List OutboxRow
  | _, [] => []
  | .outbound, row :: rest =>
    if row.entry.isSubmission then [row]
    else row :: rest.takeWhile fun next => !next.entry.isSubmission
  | .transcript, row :: rest => row :: takeWithin cap (estimatedSize row) rest

end Blizzard.OutboxLanes
