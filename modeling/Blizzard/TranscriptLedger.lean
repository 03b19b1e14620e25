import Blizzard.UniqueRows
import Blizzard.TranscriptRecords

/-! # The runner's transcript ledger

The segments a runner ships and the lane's outbound buffer. Each write is one
transaction: content moves its segment's cursor and count with the records it
enqueues, a finalized segment takes none, a finalization enqueues its marker,
and a record leaves the buffer on its ack. -/
namespace Blizzard.TranscriptLedger
open HubTables JsonTexts TranscriptRecords UniqueRows

/-! ## Truncation marks -/

inductive TruncationReason
  | sourceReadTruncated | recordCapExceeded | recordUnshippable | leaseClosureIncomplete
  | backfillIncomplete | hubCapped | hubRefused
  deriving DecidableEq, Repr

/-- Worst-of rank, mildest first. -/
def TruncationReason.severity : TruncationReason → ℕ
  | .sourceReadTruncated => 0
  | .recordCapExceeded => 1
  | .recordUnshippable => 2
  | .leaseClosureIncomplete => 3
  | .backfillIncomplete => 3
  | .hubCapped => 4
  | .hubRefused => 5

/-- A segment's truncation display and warn latch; a row from before severities has none. -/
structure TruncationMark where
  currentReason : Option TruncationReason := none
  currentSeverity : Option ℕ := none
  reasonsWarned : List TruncationReason := []
  deriving DecidableEq, Repr

/-- What one mark writes, each column where it changes. -/
structure TruncationMarkUpdate where
  truncatedReason : Option TruncationReason
  truncatedReasonSeverity : Option ℕ
  reasonsWarned : Option (List TruncationReason)
  newlyWarned : Bool
  deriving DecidableEq, Repr

/-- The display takes the worst, a tie the new one; the warning is latched per reason. -/
def TruncationMark.apply (mark : TruncationMark) (reason : TruncationReason) (severity : ℕ) :
    TruncationMarkUpdate :=
  let newlyWarned := decide (reason ∉ mark.reasonsWarned)
  let replaces := decide (mark.currentReason ≠ some reason) &&
    (mark.currentReason.isNone || mark.currentSeverity.all fun current => decide (current ≤ severity))
  { truncatedReason := if replaces then some reason else none
    truncatedReasonSeverity := if replaces then some severity else none
    reasonsWarned := if newlyWarned then some (mark.reasonsWarned ++ [reason]) else none
    newlyWarned }

/-- The stored columns after an update; a column that does not change keeps its value. -/
def TruncationMark.updated (mark : TruncationMark) (update : TruncationMarkUpdate) :
    TruncationMark :=
  { currentReason := update.truncatedReason <|> mark.currentReason
    currentSeverity :=
      if update.truncatedReason.isSome then update.truncatedReasonSeverity else mark.currentSeverity
    reasonsWarned := update.reasonsWarned.getD mark.reasonsWarned }

/-! ## Rows -/

/-- One row of the segment ledger. -/
structure LedgerSegment extends TranscriptSegmentState where
  leaseId : String
  sessionId : String
  cursor : Option String
  shippedBytes : ℕ := 0
  shippedTurns : ℕ := 0
  normalizerVersion : String := ""
  harnessVersion : Option String := none
  truncation : TruncationMark := {}
  shippingStoppedReason : Option String := none
  sidechainWarnedAgents : List (Option String) := []
  agentToolUseIds : List (String × String) := []
  finalizedAt : Option Instant := none
  stampedAt : Instant

namespace LedgerSegment
variable (segment : LedgerSegment)

/-- A content write applies: a finalized segment takes none. -/
def acceptsContent : Bool := segment.finalizedAt.isNone

def shippingStopped : Bool := segment.shippingStoppedReason.isSome

/-- Lost content, by a marked truncation or by a shipping stop. -/
def truncated : Bool :=
  segment.truncation.currentReason.isSome || segment.shippingStoppedReason.isSome

end LedgerSegment

/-- One row of the outbound buffer; a final marker carries no record. -/
structure BufferedDelta where
  seq : ℤ
  segmentId : String
  chunkId : String
  payload : Option WireRecord
  createdAt : Instant
  ackedAt : Option Instant := none

def BufferedDelta.final (delta : BufferedDelta) : Bool := delta.payload.isNone

/-- The length of the payload's text; a marker's names its segment only. -/
def BufferedDelta.payloadSize (delta : BufferedDelta) : ℕ :=
  match delta.payload with
  | some record => recordSize record
  | none => encodedSize (.object [("segment_id", .string delta.segmentId)])

/-- The runner's tables of the lane, with the counter its rows are numbered by. -/
structure Ledger where
  segments : UniqueTable fun segment : LedgerSegment => segment.segmentId := .empty _
  outbox : List BufferedDelta := []
  lastSeq : ℤ := 0

/-- The content of one window. -/
structure Deltas where
  segmentId : String
  chunkId : String
  cursor : Option String
  shippedBytes : ℕ
  shippedTurns : ℕ
  normalizerVersion : String
  harnessVersion : Option String
  payloads : List WireRecord
  createdAt : Instant
  agentToolUseIds : List (String × String)

/-- `{**learned, **stored}`: the stored pair wins. -/
def mergedAgentToolUseIds (stored learned : List (String × String)) : List (String × String) :=
  stored ++ learned.filter fun pair => decide (pair.1 ∉ stored.map (·.1))

def chunkBudgetExceeded : String := "chunk_budget_exceeded"

namespace Ledger
variable (ledger : Ledger)

/-! ## Reads -/

def transcriptSegment (segmentId : String) : Option LedgerSegment :=
  ledger.segments.rows.find? fun segment => decide (segment.segmentId = segmentId)

/-- A content write on the segment applies; an unknown id is left to the write itself. -/
def acceptsContent (segmentId : String) : Bool :=
  (ledger.transcriptSegment segmentId).all (·.acceptsContent)

def chunkTranscriptShippedBytes (chunkId : String) : ℕ :=
  ((ledger.segments.rows.filter fun segment => decide (segment.chunkId = chunkId)).map
    (·.shippedBytes)).sum

def outstandingTranscriptBufferBytes : ℕ :=
  ((ledger.outbox.filter (·.ackedAt.isNone)).map (·.payloadSize)).sum

/-- The unacked rows in seq order, so many at most. -/
def pendingTranscriptOutbound (limit : Option ℕ) : List BufferedDelta :=
  let pending := (ledger.outbox.filter (·.ackedAt.isNone)).insertionSort fun a b => a.seq ≤ b.seq
  match limit with
  | none => pending
  | some limit => pending.take limit

/-! ## Writes -/

/-- `UPDATE` of the one segment, its id kept. -/
def amend (segmentId : String) (change : LedgerSegment → LedgerSegment)
    (keeps : ∀ segment, (change segment).segmentId = segment.segmentId) : Ledger :=
  { ledger with
    segments := ledger.segments.update
      (fun segment => if segment.segmentId = segmentId then change segment else segment) (by
        intro segment
        split
        · exact keeps segment
        · rfl) }

/-- `insert_outbox_row`: the row under the lane's next seq. -/
def insertOutboxRow (segmentId chunkId : String) (payload : Option WireRecord)
    (createdAt : Instant) : Ledger :=
  { ledger with
    outbox := ledger.outbox ++ [{ seq := ledger.lastSeq + 1, segmentId, chunkId, payload, createdAt }]
    lastSeq := ledger.lastSeq + 1 }

def markTranscriptRecordTruncated (segmentId : String) (reason : TruncationReason) : Ledger :=
  ledger.amend segmentId
    (fun segment => { segment with
      truncation := segment.truncation.updated (segment.truncation.apply reason reason.severity) })
    fun _ => rfl

/-- The first cause stands, and only while the segment is open. -/
def stopTranscriptSegmentShipping (segmentId reason : String) : Ledger :=
  ledger.amend segmentId
    (fun segment => { segment with
      shippingStoppedReason :=
        if segment.shippingStoppedReason.isNone && segment.finalizedAt.isNone then some reason
        else segment.shippingStoppedReason })
    fun _ => rfl

def markSidechainDroppedWarned (segmentId : String) (agentId : Option String) : Ledger :=
  ledger.amend segmentId
    (fun segment => { segment with
      sidechainWarnedAgents :=
        if agentId ∈ segment.sidechainWarnedAgents then segment.sidechainWarnedAgents
        else segment.sidechainWarnedAgents ++ [agentId] })
    fun _ => rfl

/-- A window's content, with the cursor that read it; its rows in the order of its records. -/
def recordTranscriptDeltas (deltas : Deltas) : Ledger :=
  if ledger.acceptsContent deltas.segmentId then
    deltas.payloads.foldl
      (fun ledger record => ledger.insertOutboxRow deltas.segmentId deltas.chunkId (some record)
        deltas.createdAt)
      (ledger.amend deltas.segmentId
        (fun segment => { segment with
          cursor := deltas.cursor, shippedBytes := deltas.shippedBytes
          shippedTurns := deltas.shippedTurns, normalizerVersion := deltas.normalizerVersion
          harnessVersion := deltas.harnessVersion
          agentToolUseIds :=
            mergedAgentToolUseIds segment.agentToolUseIds deltas.agentToolUseIds })
        fun _ => rfl)
  else ledger

/-- The cursor past a window that held nothing to ship. -/
def advanceTranscriptCursor (segmentId cursor normalizerVersion : String)
    (harnessVersion : Option String) (learned : List (String × String)) : Ledger :=
  if ledger.acceptsContent segmentId then
    ledger.amend segmentId
      (fun segment => { segment with
        cursor := some cursor, normalizerVersion, harnessVersion
        agentToolUseIds := mergedAgentToolUseIds segment.agentToolUseIds learned })
      fun _ => rfl
  else ledger

/-- An open segment is sealed and its marker enqueued, in one transaction. -/
def finalizeTranscriptSegment (segmentId : String) (finalizedAt : Instant) : Ledger :=
  match ledger.transcriptSegment segmentId with
  | none => ledger
  | some segment =>
    if segment.finalizedAt.isNone then
      (ledger.amend segmentId (fun segment => { segment with finalizedAt := some finalizedAt })
        fun _ => rfl).insertOutboxRow segmentId segment.chunkId none finalizedAt
    else ledger

/-- The lease's close seals each of its open segments. -/
def closeLease (leaseId : String) (closedAt : Instant) : Ledger :=
  ((ledger.segments.rows.filter fun segment =>
      decide (segment.leaseId = leaseId) && segment.finalizedAt.isNone).map (·.segmentId)).foldl
    (fun ledger segmentId => ledger.finalizeTranscriptSegment segmentId closedAt) ledger

/-- `INSERT` of a segment nothing was read of; a taken id fails the transaction. -/
def openTranscriptSegment (segment : LedgerSegment) : Ledger :=
  match ledger.segments.insert { segment with
      shippedBytes := 0, shippedTurns := 0, normalizerVersion := "", harnessVersion := none
      truncation := {}, shippingStoppedReason := none, sidechainWarnedAgents := []
      agentToolUseIds := [], finalizedAt := none } with
  | none => ledger
  | some segments => { ledger with segments }

/-- Of two segments the one stamped later, the greater id at one instant. -/
def newer (best : Option LedgerSegment) (segment : LedgerSegment) : Option LedgerSegment :=
  match best with
  | none => some segment
  | some best =>
    if best.stampedAt < segment.stampedAt ∨
        best.stampedAt = segment.stampedAt ∧ best.segmentId < segment.segmentId then some segment
    else some best

/-- The newest segment of the session, sealed or not. -/
def priorSegment (chunkId sessionId harnessId : String) : Option LedgerSegment :=
  (ledger.segments.rows.filter fun segment => decide (segment.chunkId = chunkId) &&
    decide (segment.sessionId = sessionId) && decide (segment.harnessId = harnessId)).foldl
      newer none

/-- `_open_transcript_segment`: a spawn opens its own segment at the cursor its session stood at,
and seals the session's newest one. -/
def openSpawnSegment (segment : LedgerSegment) : Ledger :=
  match ledger.priorSegment segment.chunkId segment.sessionId segment.harnessId with
  | none => ledger.openTranscriptSegment { segment with cursor := none }
  | some prior =>
    if segment.segmentId ∈ ledger.segments.rows.map (·.segmentId) then ledger
    else (ledger.finalizeTranscriptSegment prior.segmentId segment.stampedAt).openTranscriptSegment
      { segment with cursor := prior.cursor }

/-- An acked record is deleted; an acked marker stays, stamped once. -/
def ackTranscriptOutboundBatch (seqs : List ℤ) (ackedAt : Instant) : Ledger :=
  { ledger with
    outbox := (ledger.outbox.filter fun delta => !(decide (delta.seq ∈ seqs) && !delta.final)).map
      fun delta =>
        if delta.seq ∈ seqs ∧ delta.final = true ∧ delta.ackedAt = none then
          { delta with ackedAt := some ackedAt }
        else delta }

end Ledger

end Blizzard.TranscriptLedger
