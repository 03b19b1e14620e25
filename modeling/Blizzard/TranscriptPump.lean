import Blizzard.ConsecutiveRanges
import Blizzard.TranscriptLedger

/-! # One window of the pump

A segment is read one window forward: the checks before the read, what the read
turns into, and the writes that carry it out, each a transaction of its own.
What a window ships starts where its segment's count stands. -/
namespace Blizzard.TranscriptPump
open HubTables TranscriptTurns TranscriptRecords TranscriptLedger ConsecutiveRanges

/-! ## Decisions -/

inductive PumpOutcome | caughtUp | incomplete | notAttempted | stuck
  deriving DecidableEq, Repr

inductive PreRead
  | read
  | stop (outcome : PumpOutcome) (reason : String)
  | skip (outcome : PumpOutcome)
  deriving DecidableEq, Repr

/-- The checks before any source read, in order. -/
def preRead (segment : LedgerSegment)
    (chunkShippedBytes chunkMaxBytes outstandingBytes maxBufferedBytes : ℕ) : PreRead :=
  if segment.shippingStopped then .skip .caughtUp
  else if !segment.acceptsContent then .skip .notAttempted
  else if chunkMaxBytes ≤ chunkShippedBytes then .stop .caughtUp chunkBudgetExceeded
  else if maxBufferedBytes ≤ outstandingBytes then .skip .notAttempted
  else .read

inductive WindowPlan
  | advanceCursor (outcome : PumpOutcome)
  | nothing (outcome : PumpOutcome)
  | stuck
  | stop (reason : String)
  | ship (outcome : PumpOutcome)
  deriving DecidableEq, Repr

/-- Content must move the cursor, and ships all or nothing against the chunk's budget. -/
def planWindow (cursor newCursor : Option String) (hasContent : Bool)
    (totalBytes chunkShippedBytes chunkMaxBytes : ℕ) (complete : Bool) : WindowPlan :=
  let readOutcome := if complete then PumpOutcome.caughtUp else .incomplete
  if !hasContent then
    if newCursor ≠ none ∧ newCursor ≠ cursor then .advanceCursor readOutcome else .nothing readOutcome
  else if newCursor = none ∨ newCursor = cursor then .stuck
  else if chunkMaxBytes < chunkShippedBytes + totalBytes then .stop chunkBudgetExceeded
  else .ship readOutcome

inductive AfterWindow | readToEnd | continue_ | incomplete
  deriving DecidableEq, Repr

/-- Whether a drain of one segment keeps reading. -/
def afterWindow (outcome : PumpOutcome) (deadlinePassed : Bool) : AfterWindow :=
  match outcome with
  | .caughtUp => .readToEnd
  | .notAttempted => .incomplete
  | .stuck => .incomplete
  | .incomplete => if deadlinePassed then .incomplete else .continue_

/-! ## A window carried out -/

/-- One transaction over the ledger. -/
inductive LedgerWrite
  | ship (deltas : Deltas)
  | advance (segmentId cursor normalizerVersion : String) (harnessVersion : Option String)
      (learned : List (String × String))
  | truncated (segmentId : String) (reason : TruncationReason)
  | stop (segmentId reason : String)
  | sidechain (segmentId : String) (agentId : Option String)
  | acknowledge (seqs : List ℤ) (ackedAt : Instant)

def LedgerWrite.apply (ledger : Ledger) : LedgerWrite → Ledger
  | .ship deltas => ledger.recordTranscriptDeltas deltas
  | .advance segmentId cursor normalizerVersion harnessVersion learned =>
    ledger.advanceTranscriptCursor segmentId cursor normalizerVersion harnessVersion learned
  | .truncated segmentId reason => ledger.markTranscriptRecordTruncated segmentId reason
  | .stop segmentId reason => ledger.stopTranscriptSegmentShipping segmentId reason
  | .sidechain segmentId agentId => ledger.markSidechainDroppedWarned segmentId agentId
  | .acknowledge seqs ackedAt => ledger.ackTranscriptOutboundBatch seqs ackedAt

/-- What the source answered one read with. -/
structure SourceRead extends TranscriptBatch where
  available : Bool
  truncated : Bool
  sidechainTruncated : Bool
  nextPosition : Option String
  complete : Bool
  agentToolUseIds : List (String × String)

/-- The runner's ceilings. -/
structure PumpConfig where
  recordMaxBytes : ℤ := 8 * 1024 * 1024
  chunkMaxBytes : ℕ := 64 * 1024 * 1024

def maxBufferedBytes : ℕ := 256 * 1024 * 1024

/-- `{**stored, **learned}`, looked up: what this window named wins. -/
def windowParents (segment : LedgerSegment) (read : SourceRead) (agentId : String) :
    Option String :=
  read.agentToolUseIds.lookup agentId <|> segment.agentToolUseIds.lookup agentId

/-- Some sidechain of the window hangs under a call shipped earlier. -/
def linkable (batch : TranscriptBatch) (parents : String → Option String) : Bool :=
  batch.unlinkedSidechains.any fun sidechain => (parentOf parents sidechain).isSome

def hasContent (read : SourceRead) (parents : String → Option String) : Bool :=
  !read.turns.isEmpty || !read.lateToolOutputs.isEmpty || linkable read.toTranscriptBatch parents

/-- The source's own tail cap rides the last record of the window. -/
def markLast : List WireRecord → List WireRecord
  | [] => []
  | [record] => [{ record with recordTruncated := true }]
  | record :: rest => record :: markLast rest

/-- The records a window ships. -/
def windowRecords (built : BuiltRecords) (read : SourceRead) : List WireRecord :=
  if read.truncated || read.sidechainTruncated then markLast built.records else built.records

/-- `_pump_one`: the writes of one window over a loaded segment, in order, and its outcome. The
totals are the run's own mirrors; a segment whose owner does not resolve has no read. -/
def pumpOne (double : ℚ → ℚ) (isoUtc : Instant → String) (config : PumpConfig)
    (segment : LedgerSegment) (chunkShippedBytes outstandingBytes : ℕ) (read : Option SourceRead)
    (now : Instant) : List LedgerWrite × PumpOutcome :=
  match preRead segment chunkShippedBytes config.chunkMaxBytes outstandingBytes maxBufferedBytes with
  | .skip outcome => ([], outcome)
  | .stop outcome reason => ([.stop segment.segmentId reason], outcome)
  | .read =>
    match read with
    | none => ([], .notAttempted)
    | some read =>
      if !read.available then ([], .notAttempted)
      else
        let sourceMark :=
          if read.truncated || read.sidechainTruncated then
            [LedgerWrite.truncated segment.segmentId .sourceReadTruncated]
          else []
        let newCursor := read.nextPosition <|> segment.cursor
        let parents := windowParents segment read
        let dropped := (read.unlinkedSidechains.filter fun sidechain =>
          (parentOf parents sidechain).isNone).map fun sidechain =>
            LedgerWrite.sidechain segment.segmentId sidechain.agentId
        let built := buildRecords double isoUtc segment.toTranscriptSegmentState
          read.toTranscriptBatch segment.shippedTurns config.recordMaxBytes parents
        let records := windowRecords built read
        let totalBytes := (records.map recordSize).sum
        match planWindow segment.cursor newCursor (hasContent read parents) totalBytes
            chunkShippedBytes config.chunkMaxBytes read.complete with
        | .advanceCursor outcome =>
          (sourceMark ++ .advance segment.segmentId (newCursor.getD "") read.normalizerVersion
            read.harnessVersion read.agentToolUseIds :: dropped, outcome)
        | .nothing outcome => (sourceMark ++ dropped, outcome)
        | .stuck => (sourceMark ++ dropped, .stuck)
        | .stop reason => (sourceMark ++ .stop segment.segmentId reason :: dropped, .caughtUp)
        | .ship outcome =>
          (sourceMark ++
            .ship
              { segmentId := segment.segmentId, chunkId := segment.chunkId, cursor := newCursor
                shippedBytes := segment.shippedBytes + totalBytes
                shippedTurns := segment.shippedTurns + built.turnCount
                normalizerVersion := read.normalizerVersion, harnessVersion := read.harnessVersion
                payloads := records, createdAt := now, agentToolUseIds := read.agentToolUseIds } ::
              ((if built.anyShrunk then [.truncated segment.segmentId .recordCapExceeded] else []) ++
                (if built.anyUnshippable then [.truncated segment.segmentId .recordUnshippable]
                  else []) ++ dropped), outcome)

/-! ## What a window ships -/

abbrev Ranged : ℤ → ℤ → List WireRecord → Prop := Consecutive (·.turnRangeStart) (·.turnRangeEnd)

/-- Neither content nor an ack. -/
def LedgerWrite.Silent : LedgerWrite → Prop
  | .ship _ => False
  | .acknowledge _ _ => False
  | _ => True

def Silent (writes : List LedgerWrite) : Prop := ∀ write ∈ writes, write.Silent

/-- The content follows on what its segment shipped. -/
structure Follows (segment : LedgerSegment) (deltas : Deltas) : Prop where
  own : deltas.segmentId = segment.segmentId
  ranged : Ranged segment.shippedTurns deltas.shippedTurns deltas.payloads
  named : ∀ record ∈ deltas.payloads, record.segmentId = segment.segmentId ∧ record.final = false

variable {double : ℚ → ℚ} {isoUtc : Instant → String} {config : PumpConfig}
  {segment : LedgerSegment} {read : SourceRead} {now : Instant}

theorem windowWires_some {parents : String → Option String} (start : ℕ)
    (some_ : hasContent read parents = true) :
    windowWires isoUtc read.toTranscriptBatch start parents ≠ [] := by
  have late : ∀ (at_ : ℕ) (sidechains : List SidechainConversation),
      (sidechains.any fun sidechain => (parentOf parents sidechain).isSome) = true →
      lateSidechainWires isoUtc parents at_ sidechains ≠ [] := by
    intro at_ sidechains
    induction sidechains with
    | nil => simp
    | cons sidechain rest ih =>
      intro linked
      rw [lateSidechainWires]
      split
      · rename_i alone
        exact ih (by simpa [alone] using linked)
      · simp
  intro none_
  simp only [windowWires, lateLinkWires, List.append_eq_nil_iff] at none_
  obtain ⟨turns, outputs, sidechains⟩ := none_
  simp only [hasContent, linkable, Bool.or_eq_true, Bool.not_eq_true', List.isEmpty_eq_false_iff]
    at some_
  rcases some_ with (some_ | some_) | some_
  · cases held : read.turns with
    | nil => exact some_ held
    | cons turn rest => simp [held, turnsWire] at turns
  · cases held : read.lateToolOutputs with
    | nil => exact some_ held
    | cons output rest => simp [held, outputPatchWires] at outputs
  · exact late _ _ some_ sidechains

theorem ranged_of_records {cap from_ to_ : ℤ} {groups : List (List WireTurn)}
    {records : List WireRecord} {outcomes : List GroupOutcome}
    (built : Records cap from_ to_ groups records outcomes) (full : ∀ group ∈ groups, group ≠ []) :
    Ranged from_ to_ records := by
  induction built with
  | nil => exact .nil _
  | @cons from_ to_ group groups record records outcome outcomes starts ends kept rest ih =>
    have pos := List.length_pos_iff.mpr (full group List.mem_cons_self)
    exact .cons starts ends (by omega) (ih fun other mem => full other (List.mem_cons_of_mem _ mem))

theorem ranged_markLast {from_ to_ : ℤ} {records : List WireRecord}
    (ranged : Ranged from_ to_ records) : Ranged from_ to_ (markLast records) := by
  induction ranged with
  | nil => exact .nil _
  | @cons from_ next to_ record rest starts ends some_ later ih =>
    cases rest with
    | nil => exact .cons starts ends some_ later
    | cons other rest => exact .cons starts ends some_ ih

theorem mem_markLast {records : List WireRecord} {record : WireRecord}
    (mem : record ∈ markLast records) :
    ∃ own ∈ records, record.segmentId = own.segmentId ∧ record.final = own.final := by
  induction records with
  | nil => cases mem
  | cons first rest ih =>
    cases rest with
    | nil =>
      rw [markLast, List.mem_singleton] at mem
      exact ⟨first, List.mem_cons_self, mem ▸ ⟨rfl, rfl⟩⟩
    | cons second rest =>
      rcases List.mem_cons.mp mem with rfl | mem
      · exact ⟨record, List.mem_cons_self, rfl, rfl⟩
      · obtain ⟨own, held, same⟩ := ih mem
        exact ⟨own, List.mem_cons_of_mem _ held, same⟩

/-- The record of a group is its segment's. -/
theorem closeGroup_named {state : TranscriptSegmentState} {batch : TranscriptBatch} {cap : ℤ}
    {turnRangeStart start end_ : ℕ} {wires : List WireTurn} :
    let record := (closeGroup double state batch cap turnRangeStart wires start end_).1
    record.segmentId = state.segmentId ∧ record.final = false := by
  simp only [closeGroup]
  split
  · exact ⟨rfl, rfl⟩
  · obtain ⟨cut, shrunk⟩ := shrinkToCap_cut double cap shrinkMaxPasses
      { recordEnvelope state batch (turnRangeStart + start) (turnRangeStart + end_ - 1) with
        turns := (wires.drop start).take (end_ - start) }
    rw [shrunk]
    split <;> exact ⟨rfl, rfl⟩

/-- What a window ships starts at its segment's count and ends at the count it writes. -/
theorem follows_window {parents : String → Option String}
    (some_ : hasContent read parents = true) :
    let built := buildRecords double isoUtc segment.toTranscriptSegmentState read.toTranscriptBatch
      segment.shippedTurns config.recordMaxBytes parents
    Ranged segment.shippedTurns (segment.shippedTurns + built.turnCount : ℕ)
        (windowRecords built read) ∧
      ∀ record ∈ windowRecords built read,
        record.segmentId = segment.segmentId ∧ record.final = false := by
  intro built
  obtain ⟨groups, outcomes, -, full, records, -⟩ := records_partition double
    segment.toTranscriptSegmentState read.toTranscriptBatch segment.shippedTurns
    config.recordMaxBytes (windowWires isoUtc read.toTranscriptBatch segment.shippedTurns parents)
  have ranged : Ranged segment.shippedTurns (segment.shippedTurns + built.turnCount : ℕ)
      built.records := by
    rw [Nat.cast_add]
    exact ranged_of_records records fun group mem none_ =>
      windowWires_some segment.shippedTurns some_ (full group mem none_)
  have named : ∀ record ∈ built.records,
      record.segmentId = segment.segmentId ∧ record.final = false := by
    intro record mem
    obtain ⟨closed, held, rfl⟩ := List.mem_map.mp mem
    obtain ⟨bounds, -, rfl⟩ := List.mem_map.mp held
    exact closeGroup_named
  rw [windowRecords]
  split
  · refine ⟨ranged_markLast ranged, fun record mem => ?_⟩
    obtain ⟨own, held, same, same'⟩ := mem_markLast mem
    rw [same, same']
    exact named own held
  · exact ⟨ranged, named⟩

/-- A window ships only where it held something. -/
theorem has_of_ship {cursor newCursor : Option String} {has complete : Bool}
    {totalBytes chunkShippedBytes chunkMaxBytes : ℕ} {outcome : PumpOutcome}
    (planned : planWindow cursor newCursor has totalBytes chunkShippedBytes chunkMaxBytes complete =
      .ship outcome) : has = true := by
  cases has with
  | true => rfl
  | false =>
    simp only [planWindow, Bool.not_false, if_true] at planned
    split at planned <;> cases planned

/-- What a window leaves to write: one content write at most, following on what its segment
shipped, and no ack. -/
def InHand (segment : LedgerSegment) (writes : List LedgerWrite) : Prop :=
  Silent writes ∨ ∃ before deltas after, writes = before ++ .ship deltas :: after ∧
    Silent before ∧ Silent after ∧ Follows segment deltas

theorem Silent.append {writes more : List LedgerWrite} (silent : Silent writes)
    (silent' : Silent more) : Silent (writes ++ more) := by
  intro write mem
  exact (List.mem_append.mp mem).elim (silent write) (silent' write)

theorem silent_mark (mark : Bool) (reason : TruncationReason) :
    Silent (if mark then [.truncated segment.segmentId reason] else []) := by
  cases mark with
  | false => exact fun write mem => by cases mem
  | true =>
    intro write mem
    rw [List.mem_singleton.mp mem]
    trivial

theorem silent_dropped (sidechains : List SidechainConversation) :
    Silent (sidechains.map fun sidechain => .sidechain segment.segmentId sidechain.agentId) := by
  intro write mem
  obtain ⟨sidechain, -, rfl⟩ := List.mem_map.mp mem
  trivial

theorem pumpOne_inHand {chunkShippedBytes outstandingBytes : ℕ} {read : Option SourceRead} :
    InHand segment (pumpOne double isoUtc config segment chunkShippedBytes outstandingBytes read
      now).1 := by
  have none_ : Silent [] := fun write mem => by cases mem
  have alone : ∀ {write : LedgerWrite} {writes}, write.Silent → Silent writes →
      Silent (write :: writes) := fun own rest => List.forall_mem_cons.mpr ⟨own, rest⟩
  simp only [pumpOne]
  split
  · exact .inl none_
  · exact .inl (alone trivial none_)
  · split
    · exact .inl none_
    · rename_i read
      split
      · exact .inl none_
      · have marks := @silent_mark segment
        have dropped := @silent_dropped segment
        split
        · exact .inl ((marks _ _).append (alone trivial (dropped _)))
        · exact .inl ((marks _ _).append (dropped _))
        · exact .inl ((marks _ _).append (dropped _))
        · exact .inl ((marks _ _).append (alone trivial (dropped _)))
        · rename_i planned
          obtain ⟨ranged, named⟩ := @follows_window double isoUtc config segment read
            (windowParents segment read) (has_of_ship planned)
          exact .inr ⟨_, _, _, rfl, marks _ _, ((marks _ _).append (marks _ _)).append (dropped _),
            ⟨rfl, ranged, named⟩⟩

end Blizzard.TranscriptPump
