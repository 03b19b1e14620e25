import Blizzard.TranscriptIngest
import Blizzard.TranscriptPump

/-! # One runner's transcript lane

Pump windows, spawns, closes and drain passes take their steps in any order
over the runner's ledger; a pass reads the pending records once, pushes them to
the hub batch by batch and acks a batch once it was answered. A window or a pass
may be cut off before any of its writes, a push before or after the hub decided,
and other runners ship to the same hub meanwhile. -/
namespace Blizzard.TranscriptLane
open HubTables EpochFence TranscriptTurns TranscriptRecords TranscriptLedger TranscriptPump
  TranscriptIngest

/-! ## The drain -/

/-- A delta's estimated wire size; a marker's is a declared bound. -/
def estimatedSize (delta : BufferedDelta) : ℕ :=
  if delta.final then 2048 else delta.payloadSize + 24

/-- `_batches`, from an open batch on: under the cap, or one record alone. -/
def batchesFrom (cap : ℤ) (batch : List BufferedDelta) (batchBytes : ℕ) :
    List BufferedDelta → List (List BufferedDelta)
  | [] => if batch.isEmpty then [] else [batch]
  | delta :: rest =>
    if !batch.isEmpty && decide (cap < (batchBytes + estimatedSize delta : ℕ)) then
      batch :: batchesFrom cap [delta] (estimatedSize delta) rest
    else batchesFrom cap (batch ++ [delta]) (batchBytes + estimatedSize delta) rest

/-- A final marker's record: an empty range where its segment's count stands. -/
def finalRecord (segment : LedgerSegment) : WireRecord :=
  { segmentId := segment.segmentId, chunkId := segment.chunkId, nodeId := segment.nodeId,
    epoch := segment.epoch, spawnGeneration := segment.generation,
    turnRangeStart := segment.shippedTurns, turnRangeEnd := segment.shippedTurns - 1, final := true,
    harnessId := segment.harnessId, normalizerVersion := segment.normalizerVersion,
    harnessVersion := segment.harnessVersion, model := segment.model, effort := segment.effort,
    spawnCwd := segment.spawnCwd, recordTruncated := segment.truncated,
    supersedes := segment.supersedes, turns := [] }

/-- A buffered record is its payload; a marker is rendered from its segment's row. -/
def render (ledger : Ledger) (delta : BufferedDelta) : Option WireRecord :=
  match delta.payload with
  | some record => some record
  | none => (ledger.transcriptSegment delta.segmentId).map finalRecord

/-- What a lane runs under: the runner, both sides' ceilings, rounding, the text of an instant and
the text the hub keeps of a record's turns. -/
structure Setup where
  runnerId : RunnerId
  caps : TranscriptCaps
  config : PumpConfig
  double : ℚ → ℚ
  isoUtc : Instant → String
  turnsText : List WireTurn → String

/-- The record as the hub stores it. -/
def toDomainRecord (setup : Setup) (record : WireRecord) : TranscriptSlice :=
  { segmentId := record.segmentId, chunkId := record.chunkId, nodeId := record.nodeId,
    epoch := record.epoch, spawnGeneration := record.spawnGeneration, runnerId := setup.runnerId,
    turnRangeStart := record.turnRangeStart, turnRangeEnd := record.turnRangeEnd,
    final := record.final, harnessId := some record.harnessId,
    normalizerVersion := record.normalizerVersion, harnessVersion := record.harnessVersion,
    model := record.model, effort := record.effort, spawnCwd := record.spawnCwd,
    recordTruncated := record.recordTruncated, supersedes := record.supersedes,
    turnsJson := setup.turnsText record.turns }

/-- The batch on the wire, `none` where a marker has no segment row. -/
def renderBatch (setup : Setup) (ledger : Ledger) (batch : List BufferedDelta) :
    Option (List (ℤ × TranscriptSlice)) :=
  batch.mapM fun delta => (render ledger delta).map fun record =>
    (delta.seq, toDomainRecord setup record)

/-- What the runner writes of an answered batch: a mark for each record the hub did not keep, and
the ack of the whole batch last. -/
def answeredWrites (batch : List BufferedDelta) (result : TranscriptIngestResult)
    (ackedAt : Instant) : List LedgerWrite :=
  (batch.flatMap fun delta =>
    (if delta.seq ∈ result.refused then [.truncated delta.segmentId .hubRefused] else []) ++
      (if delta.seq ∈ result.capped then [.truncated delta.segmentId .hubCapped] else [])) ++
    [.acknowledge (batch.map (·.seq)) ackedAt]

/-! ## The lane -/

/-- One drain pass: the batches it has not pushed, and the writes an answer left in hand. -/
structure DrainPass where
  batches : List (List BufferedDelta)
  owed : List LedgerWrite := []

structure Lane where
  ledger : Ledger := {}
  hub : TranscriptHub := {}
  /-- The writes in hand of each segment's window. -/
  windows : String → List LedgerWrite := fun _ => []
  passes : List DrainPass := []
  /-- A history: every row the outbound buffer ever held, as enqueued. -/
  issued : List BufferedDelta := []
  /-- A history: every seq the hub refused in a committed decision. -/
  refused : List ℤ := []

/-- One push: whether it reaches the hub and its answer the runner, what the hub reads deciding it,
and when the runner acks. -/
structure Push where
  arrives : Bool := true
  answered : Bool := true
  at_ : Instant
  owners : ChunkId → ℤ → Option EpochOwner
  retired : Bool := false
  ackedAt : Instant

namespace Lane
variable (lane : Lane)

/-- The ledger after a transaction; the rows it enqueued enter the history. -/
def put (ledger : Ledger) : Lane :=
  { lane with
    ledger
    issued := lane.issued ++ ledger.outbox.drop lane.ledger.outbox.length }

def setPass (place : ℕ) (pass : DrainPass) : Lane :=
  { lane with passes := lane.passes.set place pass }

/-- The pass stops; what it did not reach waits for a later one. -/
def drop (place : ℕ) : Lane := lane.setPass place ⟨[], []⟩

/-- `_deliver_batch`, up to the answer. -/
def push (setup : Setup) (place : ℕ) (push : Push) : Lane :=
  match lane.passes[place]? with
  | some ⟨batch :: rest, []⟩ =>
    match renderBatch setup lane.ledger batch with
    | none => lane.drop place
    | some records =>
      if !push.arrives then lane.drop place
      else
        match ingest setup.caps lane.hub
          { runnerId := setup.runnerId, records, at_ := push.at_, owners := push.owners,
            retired := push.retired } with
        | (_, none) => lane.drop place
        | (hub, some result) =>
          let decided := { lane with hub, refused := lane.refused ++ result.refused }
          if push.answered then
            decided.setPass place ⟨rest, answeredWrites batch result push.ackedAt⟩
          else decided.drop place
  | _ => lane

/-- The next write a pass has in hand, made. -/
def writePass (place : ℕ) : Lane :=
  match lane.passes[place]? with
  | some ⟨batches, write :: owed⟩ => (lane.put (write.apply lane.ledger)).setPass place ⟨batches, owed⟩
  | _ => lane

/-- The next write of the segment's window, made. -/
def writeWindow (segmentId : String) : Lane :=
  match lane.windows segmentId with
  | [] => lane
  | write :: rest =>
    { lane.put (write.apply lane.ledger) with windows := Function.update lane.windows segmentId rest }

/-- A window of the segment begun, where none is under way. -/
def pump (setup : Setup) (segmentId : String) (chunkShippedBytes outstandingBytes : ℕ)
    (read : Option SourceRead) (now : Instant) : Lane :=
  match lane.windows segmentId, lane.ledger.transcriptSegment segmentId with
  | [], some segment =>
    { lane with
      windows := Function.update lane.windows segmentId
        (pumpOne setup.double setup.isoUtc setup.config segment chunkShippedBytes outstandingBytes
          read now).1 }
  | _, _ => lane

/-- A drain pass begun over what is pending. -/
def flush (setup : Setup) (limit : Option ℕ) : Lane :=
  { lane with
    passes := lane.passes ++
      [{ batches := batchesFrom setup.config.recordMaxBytes [] 0
          (lane.ledger.pendingTranscriptOutbound limit) }] }

/-- A segment opened under a minted id: no record at the hub names it. -/
def mint (segmentId : String) (ledger : Ledger) : Lane :=
  if segmentId ∈ lane.hub.segments.rows.map (·.segmentId) then lane else lane.put ledger

/-- Another runner's ingest; its records name segments of its own. -/
def others (setup : Setup) (call : Ingest) : Lane :=
  if call.runnerId ≠ setup.runnerId ∧ ∀ record ∈ call.records,
      record.2.segmentId ∉ lane.ledger.segments.rows.map (·.segmentId) then
    { lane with hub := (ingest setup.caps lane.hub call).1 }
  else lane

/-- The runner starts anew: nothing is in hand. -/
def crash : Lane :=
  { lane with windows := fun _ => [], passes := lane.passes.map fun _ => ⟨[], []⟩ }

end Lane

/-- One step of the lane. -/
inductive Label
  | spawn (segment : LedgerSegment)
  | open_ (segment : LedgerSegment)
  | finalize (segmentId : String) (at_ : Instant)
  | closeLease (leaseId : String) (at_ : Instant)
  | truncate (segmentId : String) (reason : TruncationReason)
  | pump (segmentId : String) (chunkShippedBytes outstandingBytes : ℕ) (read : Option SourceRead)
      (now : Instant)
  | window (segmentId : String)
  | flush (limit : Option ℕ)
  | push (place : ℕ) (push : Push)
  | write (place : ℕ)
  | abandon (place : ℕ)
  | others (call : Ingest)
  | crash

def next (setup : Setup) (lane : Lane) : Label → Lane
  | .spawn segment => lane.mint segment.segmentId (lane.ledger.openSpawnSegment segment)
  | .open_ segment => lane.mint segment.segmentId (lane.ledger.openTranscriptSegment segment)
  | .finalize segmentId at_ => lane.put (lane.ledger.finalizeTranscriptSegment segmentId at_)
  | .closeLease leaseId at_ => lane.put (lane.ledger.closeLease leaseId at_)
  | .truncate segmentId reason =>
    lane.put (lane.ledger.markTranscriptRecordTruncated segmentId reason)
  | .pump segmentId chunkShippedBytes outstandingBytes read now =>
    lane.pump setup segmentId chunkShippedBytes outstandingBytes read now
  | .window segmentId => lane.writeWindow segmentId
  | .flush limit => lane.flush setup limit
  | .push place push => lane.push setup place push
  | .write place => lane.writePass place
  | .abandon place => lane.drop place
  | .others call => lane.others setup call
  | .crash => lane.crash

/-- The lane after a run from an empty ledger and an empty hub. -/
def ran (setup : Setup) (labels : List Label) : Lane := labels.foldl (next setup) {}

theorem ran_append (setup : Setup) (before after : List Label) :
    ran setup (before ++ after) = after.foldl (next setup) (ran setup before) := by
  rw [ran, List.foldl_append]
  rfl

end Blizzard.TranscriptLane
