import Mathlib
import Blizzard.EpochFence

/-! # Transcript ingest

The hub's transcript lane: a runner's batch is decided in one unit, record by record in lane
order, against the mark, the natural keys already stored and three caps summed from the rows. -/
namespace Blizzard.TranscriptIngest
open HubTables EpochFence

/-! ## Records and stored rows -/

/-- What names and describes one record, as a row keeps it. -/
structure RecordIdentity where
  segmentId : String
  chunkId : ChunkId
  nodeId : String
  epoch : ℤ
  spawnGeneration : ℤ
  runnerId : RunnerId
  turnRangeStart : ℤ
  turnRangeEnd : ℤ
  final : Bool
  harnessId : Option String := none
  normalizerVersion : String
  harnessVersion : Option String := none
  model : Option String := none
  effort : Option String := none
  spawnCwd : Option String := none
  recordTruncated : Bool := false
  supersedes : Option String := none
  deriving DecidableEq, Repr

/-- The natural key of a record: its segment and where its turns start. -/
def RecordIdentity.key (identity : RecordIdentity) : String × ℤ :=
  (identity.segmentId, identity.turnRangeStart)

/-- One shipped slice of a segment's turns. -/
structure TranscriptSlice extends RecordIdentity where
  turnsJson : String
  deriving DecidableEq, Repr

/-- A record's size as every cap counts it: its turns' UTF-8 bytes. -/
def TranscriptSlice.byteCount (record : TranscriptSlice) : ℕ := record.turnsJson.utf8ByteSize

structure SegmentRow extends RecordIdentity where
  rejected : Bool
  rejectionReason : Option String
  byteCount : ℕ
  content : Option String
  receivedAt : Instant
  deriving DecidableEq, Repr

/-- The `transcript_segments` table, unique on the natural key. -/
structure SegmentTable where
  rows : List SegmentRow
  key_unique : (rows.map (·.key)).Nodup

def SegmentTable.empty : SegmentTable := ⟨[], by simp⟩

inductive NaturalKeyState | absent | rejected | accepted
  deriving DecidableEq, Repr

namespace SegmentTable
variable (table : SegmentTable)

def naturalKeyState (key : String × ℤ) : NaturalKeyState :=
  match table.rows.find? fun row => decide (row.key = key) with
  | none => .absent
  | some row => if row.rejected then .rejected else .accepted

/-- The stored bytes of a chunk; a rejected record stores none. -/
def chunkStoredBytes (chunkId : ChunkId) : ℕ :=
  ((table.rows.filter fun row => decide (row.chunkId = chunkId) && !row.rejected).map
    (·.byteCount)).sum

/-- The bytes a runner offered since an instant, rejected ones counted. -/
def runnerWindowBytes (runnerId : RunnerId) (since : Instant) : ℕ :=
  ((table.rows.filter fun row => decide (row.runnerId = runnerId) &&
    decide (since ≤ row.receivedAt)).map (·.byteCount)).sum

/-- `INSERT`: `none` where the natural key is taken. -/
def insert (row : SegmentRow) : Option SegmentTable :=
  if taken : row.key ∈ table.rows.map (·.key) then none
  else some
    { rows := table.rows ++ [row]
      key_unique := by
        rw [List.map_append, List.map_singleton, List.nodup_append]
        refine ⟨table.key_unique, List.nodup_singleton _, ?_⟩
        rintro a ha b hb rfl
        exact taken (List.mem_singleton.mp hb ▸ ha) }

/-- The row an update over a rejected natural key leaves in place of another. -/
def replaced (row old : SegmentRow) : SegmentRow :=
  if old.key = row.key ∧ old.rejected = true then row else old

/-- `UPDATE … WHERE` the natural key is `row`'s and the stored row is rejected. -/
def updateRejected (row : SegmentRow) : SegmentTable where
  rows := table.rows.map (replaced row)
  key_unique := by
    have same : (table.rows.map (replaced row)).map (·.key) = table.rows.map (·.key) := by
      rw [List.map_map]
      apply List.map_congr_left
      intro old _
      simp only [Function.comp_apply, replaced]
      split
      · next h => exact h.1.symm
      · rfl
    rw [same]
    exact table.key_unique

end SegmentTable

/-! ## Caps -/

/-- One cap a record breaks. -/
structure CapBreach where
  reason : String
  observed : ℕ
  limit : ℕ
  deriving DecidableEq, Repr

def rejectedRecordTooLarge : String := "record_too_large"
def rejectedChunkBudgetExceeded : String := "chunk_budget_exceeded"
def rejectedRunnerDailyRateExceeded : String := "runner_daily_rate_exceeded"

/-- Twenty-four hours. -/
def runnerRateWindow : Instant := 24 * 60 * 60 * 1000000

/-- The three ceilings a record is adjudicated against. -/
structure TranscriptCaps where
  recordMaxBytes : ℕ := 10 * 1024 * 1024
  chunkBudgetMaxBytes : ℕ := 64 * 1024 * 1024
  runnerDailyRateMaxBytes : ℕ := 2 * 1024 * 1024 * 1024
  deriving DecidableEq, Repr

namespace TranscriptCaps
variable (caps : TranscriptCaps)

def recordBreach (byteCount : ℕ) : Option CapBreach :=
  if caps.recordMaxBytes < byteCount then
    some ⟨rejectedRecordTooLarge, byteCount, caps.recordMaxBytes⟩
  else none

def chunkBreach (byteCount chunkStored : ℕ) : Option CapBreach :=
  if caps.chunkBudgetMaxBytes < chunkStored + byteCount then
    some ⟨rejectedChunkBudgetExceeded, chunkStored + byteCount, caps.chunkBudgetMaxBytes⟩
  else none

def runnerBreach (byteCount runnerWindow : ℕ) : Option CapBreach :=
  if caps.runnerDailyRateMaxBytes < runnerWindow + byteCount then
    some ⟨rejectedRunnerDailyRateExceeded, runnerWindow + byteCount, caps.runnerDailyRateMaxBytes⟩
  else none

/-- Where the rolling rate window opens for a record arriving `at_`. -/
def windowStart (at_ : Instant) : Instant := at_ - runnerRateWindow

end TranscriptCaps

/-- Walk the cap ladder, each stored sum read only once the earlier steps pass. -/
def breachOf (caps : TranscriptCaps) (table : SegmentTable) (record : TranscriptSlice)
    (at_ : Instant) : Option CapBreach :=
  match caps.recordBreach record.byteCount with
  | some breach => some breach
  | none =>
    match caps.chunkBreach record.byteCount (table.chunkStoredBytes record.chunkId) with
    | some breach => some breach
    | none =>
      caps.runnerBreach record.byteCount
        (table.runnerWindowBytes record.runnerId (TranscriptCaps.windowStart at_))

/-! ## One record -/

inductive SegmentWrite | keep | insertAccepted | insertRejected | updateToAccepted
  | updateStillRejected
  deriving DecidableEq, Repr

/-- Whether the record ends stored rather than cap-rejected. -/
def SegmentWrite.stored : SegmentWrite → Bool
  | .keep | .insertAccepted | .updateToAccepted => true
  | .insertRejected | .updateStillRejected => false

/-- Whether a record goes through the cap ladder. -/
def adjudicates (state : NaturalKeyState) : Bool := decide (state ≠ .accepted)

/-- What a record's natural-key state and cap verdict write: the first accepted write wins. -/
def segmentWrite (state : NaturalKeyState) (rejectReason : Option String) : SegmentWrite :=
  match state, rejectReason with
  | .accepted, _ => .keep
  | .rejected, none => .updateToAccepted
  | .rejected, some _ => .updateStillRejected
  | .absent, none => .insertAccepted
  | .absent, some _ => .insertRejected

inductive ReplayOutcome | capped | alreadyApplied | apply
  deriving DecidableEq, Repr

/-- How a record at or under the mark is answered. -/
def replayOutcome : NaturalKeyState → ReplayOutcome
  | .rejected => .capped
  | .accepted => .alreadyApplied
  | .absent => .apply

/-- An epoch owned by the hub or by another runner refuses a record; an unowned one admits it. -/
def shipsFromLeaseHolder (owner : Option EpochOwner) (runnerId : RunnerId) : Bool :=
  owner.all fun owner => decide (owner.runnerId = some runnerId)

def acceptedRow (record : TranscriptSlice) (turns : String) (at_ : Instant) : SegmentRow :=
  { record.toRecordIdentity with
    rejected := false, rejectionReason := none, byteCount := record.byteCount
    content := some turns, receivedAt := at_ }

def rejectedRow (record : TranscriptSlice) (reason : String) (at_ : Instant) : SegmentRow :=
  { record.toRecordIdentity with
    rejected := true, rejectionReason := some reason, byteCount := record.byteCount
    content := none, receivedAt := at_ }

/-- What applying one record does: the table it leaves, whether the record ends stored, and the
breach it met. `none` is a failed statement, or a record of a lane the unit did not lock. -/
def applyRecord (caps : TranscriptCaps) (lane : RunnerId) (table : SegmentTable)
    (record : TranscriptSlice) (turns : Option String) (at_ : Instant) :
    Option (SegmentTable × Bool × Option CapBreach) :=
  let state := table.naturalKeyState record.key
  let breach := if adjudicates state then breachOf caps table record at_ else none
  let reason := breach.map (·.reason)
  let write := segmentWrite state reason
  let locked (written : Option SegmentTable) : Option SegmentTable :=
    if record.runnerId = lane then written else none
  let written := match write, reason, turns with
    | .updateStillRejected, some reason, _ =>
      locked (some (table.updateRejected (rejectedRow record reason at_)))
    | .updateToAccepted, _, some turns =>
      locked (some (table.updateRejected (acceptedRow record turns at_)))
    | .insertRejected, some reason, _ => locked (table.insert (rejectedRow record reason at_))
    | .insertAccepted, _, some turns => locked (table.insert (acceptedRow record turns at_))
    | _, _, _ => some table
  written.map fun table => (table, write.stored, breach)

/-! ## One batch -/

/-- A unit deciding a batch. -/
structure Deciding where
  segments : SegmentTable
  mark : ℤ
  applied : List ℤ := []
  already : List ℤ := []
  capped : List ℤ := []
  refused : List ℤ := []
  breaches : List (TranscriptSlice × CapBreach) := []
  ahead : List (ℤ × TranscriptSlice) := []

/-- The outcome of an applied record, tallied. -/
def Deciding.tally (unit : Deciding) (seq : ℤ) (record : TranscriptSlice)
    (outcome : SegmentTable × Bool × Option CapBreach) : Deciding :=
  { unit with
    segments := outcome.1
    applied := if outcome.2.1 then unit.applied ++ [seq] else unit.applied
    capped := if outcome.2.1 then unit.capped else unit.capped ++ [seq]
    breaches := unit.breaches ++ outcome.2.2.toList.map fun breach => (record, breach) }

/-- One record of a batch with its lane seq, its turns encoded unless the record cap rejects it. -/
structure Prepared where
  seq : ℤ
  record : TranscriptSlice
  turns : Option String
  deriving DecidableEq, Repr

/-- The records in seq order, beside their encoded turns. -/
def prepare (caps : TranscriptCaps) (records : List (ℤ × TranscriptSlice)) : List Prepared :=
  (records.insertionSort fun a b => a.1 ≤ b.1).map fun (seq, record) =>
    { seq, record
      turns := if caps.recordBreach record.byteCount = none then some record.turnsJson else none }

/-- Decide and write one record. -/
def decideRecord (caps : TranscriptCaps) (lane : RunnerId)
    (owners : ChunkId → ℤ → Option EpochOwner) (at_ : Instant) (unit : Deciding)
    (prepared : Prepared) : Option Deciding :=
  let record := prepared.record
  if !shipsFromLeaseHolder (owners record.chunkId record.epoch) lane then
    some { unit with refused := unit.refused ++ [prepared.seq], mark := max unit.mark prepared.seq }
  else if prepared.seq ≤ unit.mark then
    match replayOutcome (unit.segments.naturalKeyState record.key) with
    | .capped => some { unit with capped := unit.capped ++ [prepared.seq] }
    | .alreadyApplied => some { unit with already := unit.already ++ [prepared.seq] }
    | .apply =>
      (applyRecord caps lane unit.segments record prepared.turns at_).map fun outcome =>
        ({ unit with ahead := unit.ahead ++ [(prepared.seq, record)] }).tally prepared.seq record
          outcome
  else
    (applyRecord caps lane unit.segments record prepared.turns at_).map fun outcome =>
      ({ unit with mark := prepared.seq }).tally prepared.seq record outcome

/-- The transcript tables. -/
structure TranscriptHub where
  segments : SegmentTable := .empty
  highWater : RunnerId → Option ℤ := fun _ => none

def TranscriptHub.mark (hub : TranscriptHub) (runnerId : RunnerId) : ℤ :=
  (hub.highWater runnerId).getD 0

def TranscriptHub.setHighWater (hub : TranscriptHub) (runnerId : RunnerId) (seq : ℤ) :
    TranscriptHub :=
  { hub with highWater := fun other => if other = runnerId then some seq else hub.highWater other }

structure TranscriptIngestResult where
  highWater : ℤ
  applied : List ℤ
  alreadyApplied : List ℤ
  capped : List ℤ
  refused : List ℤ
  deriving DecidableEq, Repr

/-- One ingest call: what its runner ships, the instant it read before its unit, the epoch owners
its unit reads, and whether the runner is retired. -/
structure Ingest where
  runnerId : RunnerId
  records : List (ℤ × TranscriptSlice)
  at_ : Instant
  owners : ChunkId → ℤ → Option EpochOwner
  retired : Bool := false

/-- Every record of a batch decided. -/
def decideBatch (caps : TranscriptCaps) (hub : TranscriptHub) (call : Ingest) : Option Deciding :=
  (prepare caps call.records).foldlM (decideRecord caps call.runnerId call.owners call.at_)
    { segments := hub.segments, mark := hub.mark call.runnerId }

/-- The batch and its mark commit together or not at all. -/
def ingest (caps : TranscriptCaps) (hub : TranscriptHub) (call : Ingest) :
    TranscriptHub × Option TranscriptIngestResult :=
  if call.retired then (hub, none)
  else
    match decideBatch caps hub call with
    | none => (hub, none)
    | some unit =>
      let decided := { hub with segments := unit.segments }
      let marked :=
        if unit.applied ≠ [] ∨ unit.capped ≠ [] ∨ unit.refused ≠ [] then
          decided.setHighWater call.runnerId unit.mark
        else decided
      (marked, some ⟨unit.mark, unit.applied, unit.already, unit.capped, unit.refused⟩)

/-! ## What applying a record writes -/

/-- `row` is the one row a write puts in: a new natural key's, or a rejected one's anew. -/
def Written (table : SegmentTable) (row : SegmentRow) (table' : SegmentTable) : Prop :=
  (row.key ∉ table.rows.map (·.key) ∧ table'.rows = table.rows ++ [row]) ∨
    ((∃ old ∈ table.rows, old.key = row.key ∧ old.rejected = true) ∧
      table'.rows = table.rows.map (SegmentTable.replaced row))

theorem naturalKeyState_absent {table : SegmentTable} {key : String × ℤ} :
    table.naturalKeyState key = .absent ↔ key ∉ table.rows.map (·.key) := by
  unfold SegmentTable.naturalKeyState
  split
  · next hnone =>
    simp only [List.find?_eq_none, decide_eq_true_eq] at hnone
    simpa using hnone
  · next row hrow =>
    have hkey : row.key = key := by simpa using List.find?_some hrow
    have hmem := List.mem_of_find?_eq_some hrow
    have hin : key ∈ table.rows.map (·.key) := hkey ▸ List.mem_map_of_mem hmem
    split <;> simpa using hin

theorem naturalKeyState_rejected {table : SegmentTable} {key : String × ℤ}
    (h : table.naturalKeyState key = .rejected) :
    ∃ row ∈ table.rows, row.key = key ∧ row.rejected = true := by
  unfold SegmentTable.naturalKeyState at h
  split at h
  · cases h
  · next row hrow =>
    split at h
    · next hrejected =>
      exact ⟨row, List.mem_of_find?_eq_some hrow, by simpa using List.find?_some hrow, hrejected⟩
    · cases h

theorem naturalKeyState_accepted {table : SegmentTable} {key : String × ℤ} :
    table.naturalKeyState key = .accepted ↔
      ∃ row ∈ table.rows, row.key = key ∧ row.rejected = false := by
  unfold SegmentTable.naturalKeyState
  split
  · next hnone =>
    simp only [List.find?_eq_none, decide_eq_true_eq] at hnone
    simp only [reduceCtorEq, false_iff, not_exists, not_and]
    exact fun row hrow hkey => absurd hkey (hnone row hrow)
  · next row hrow =>
    have hkey : row.key = key := by simpa using List.find?_some hrow
    have hmem := List.mem_of_find?_eq_some hrow
    split
    · next hrejected =>
      simp only [reduceCtorEq, false_iff, not_exists, not_and]
      intro other hother hsame
      have hrows := List.inj_on_of_nodup_map table.key_unique hother hmem (hsame.trans hkey.symm)
      rw [hrows, hrejected]
      simp
    · next haccepted =>
      simp only [true_iff]
      exact ⟨row, hmem, hkey, by simpa using haccepted⟩

theorem insert_written {table table' : SegmentTable} {row : SegmentRow}
    (h : table.insert row = some table') : Written table row table' := by
  unfold SegmentTable.insert at h
  split at h
  · cases h
  · next fresh =>
    cases h
    exact .inl ⟨fresh, rfl⟩

theorem updateRejected_written {table : SegmentTable} {row : SegmentRow}
    (h : table.naturalKeyState row.key = .rejected) :
    Written table row (table.updateRejected row) :=
  .inr ⟨naturalKeyState_rejected h, rfl⟩

/-- A write puts in no row but its own. -/
theorem Written.mem {table table' : SegmentTable} {row other : SegmentRow}
    (h : Written table row table') (hother : other ∈ table'.rows) :
    other ∈ table.rows ∨ other = row := by
  rcases h with ⟨-, hrows⟩ | ⟨-, hrows⟩
  · rw [hrows] at hother
    simpa using hother
  · rw [hrows] at hother
    obtain ⟨old, hold, rfl⟩ := List.mem_map.mp hother
    unfold SegmentTable.replaced
    split
    · exact .inr rfl
    · exact .inl hold

/-- What applying a record did: it kept an accepted key, or wrote the record's accepted row under
no breach, or wrote its rejected row. -/
inductive Applied (caps : TranscriptCaps) (table : SegmentTable) (record : TranscriptSlice)
    (at_ : Instant) : SegmentTable → Bool → Prop
  | kept (accepted : table.naturalKeyState record.key = .accepted) :
      Applied caps table record at_ table true
  | stored {table' : SegmentTable} (unmet : breachOf caps table record at_ = none)
      (written : Written table (acceptedRow record record.turnsJson at_) table') :
      Applied caps table record at_ table' true
  | capped {reason : String} {table' : SegmentTable}
      (written : Written table (rejectedRow record reason at_) table') :
      Applied caps table record at_ table' false

/-- A breach above the record cap leaves the turns encoded. -/
theorem recordBreach_of_breachOf {caps : TranscriptCaps} {table : SegmentTable}
    {record : TranscriptSlice} {at_ : Instant} (h : breachOf caps table record at_ = none) :
    caps.recordBreach record.byteCount = none := by
  unfold breachOf at h
  split at h
  · cases h
  · assumption

theorem applyRecord_applied {caps : TranscriptCaps} {lane : RunnerId} {table table' : SegmentTable}
    {record : TranscriptSlice} {turns : Option String} {at_ : Instant} {stored : Bool}
    {breach : Option CapBreach}
    (encoded : caps.recordBreach record.byteCount = none → turns = some record.turnsJson)
    (h : applyRecord caps lane table record turns at_ = some (table', stored, breach)) :
    Applied caps table record at_ table' stored := by
  have hcases : ∀ written : Option SegmentTable, (if record.runnerId = lane then written else none)
      = some table' → written = some table' := by
    intro written hwritten
    split at hwritten
    · exact hwritten
    · cases hwritten
  unfold applyRecord at h
  cases hstate : table.naturalKeyState record.key with
  | accepted =>
    simp only [hstate, adjudicates, ne_eq, not_true, decide_false, Bool.false_eq_true, if_false,
      Option.map_none, segmentWrite, Option.map_some, SegmentWrite.stored, Option.some.injEq,
      Prod.mk.injEq] at h
    obtain ⟨rfl, rfl, -⟩ := h
    exact .kept hstate
  | rejected =>
    cases hbreach : breachOf caps table record at_ with
    | none =>
      simp only [hstate, adjudicates, hbreach, segmentWrite, SegmentWrite.stored,
        encoded (recordBreach_of_breachOf hbreach), Option.map_none, ite_self,
        Option.map_eq_some_iff, Prod.mk.injEq] at h
      obtain ⟨written, hwritten, rfl, rfl, -⟩ := h
      have hupdated := Option.some.inj (hcases _ hwritten)
      rw [← hupdated]
      exact .stored hbreach (updateRejected_written hstate)
    | some breach =>
      simp only [hstate, adjudicates, hbreach, segmentWrite, SegmentWrite.stored, ne_eq,
        reduceCtorEq, not_false_eq_true, decide_true, if_true, Option.map_some,
        Option.map_eq_some_iff, Prod.mk.injEq] at h
      obtain ⟨written, hwritten, rfl, rfl, -⟩ := h
      have hupdated := Option.some.inj (hcases _ hwritten)
      rw [← hupdated]
      exact .capped (updateRejected_written hstate)
  | absent =>
    cases hbreach : breachOf caps table record at_ with
    | none =>
      simp only [hstate, adjudicates, hbreach, segmentWrite, SegmentWrite.stored,
        encoded (recordBreach_of_breachOf hbreach), Option.map_none, ite_self,
        Option.map_eq_some_iff, Prod.mk.injEq] at h
      obtain ⟨written, hwritten, rfl, rfl, -⟩ := h
      exact .stored hbreach (insert_written (hcases _ hwritten))
    | some breach =>
      simp only [hstate, adjudicates, hbreach, segmentWrite, SegmentWrite.stored, ne_eq,
        reduceCtorEq, not_false_eq_true, decide_true, if_true, Option.map_some,
        Option.map_eq_some_iff, Prod.mk.injEq] at h
      obtain ⟨written, hwritten, rfl, rfl, -⟩ := h
      exact .capped (insert_written (hcases _ hwritten))

/-- What deciding one record did to the rows: nothing, or what applying the record does. -/
theorem decideRecord_segments {caps : TranscriptCaps} {lane : RunnerId}
    {owners : ChunkId → ℤ → Option EpochOwner} {at_ : Instant} {unit unit' : Deciding}
    {prepared : Prepared}
    (encoded : caps.recordBreach prepared.record.byteCount = none →
      prepared.turns = some prepared.record.turnsJson)
    (h : decideRecord caps lane owners at_ unit prepared = some unit') :
    unit'.segments = unit.segments ∨
      ∃ stored, Applied caps unit.segments prepared.record at_ unit'.segments stored := by
  unfold decideRecord at h
  simp only at h
  split at h
  · cases h
    exact .inl rfl
  · split at h
    · split at h
      · cases h
        exact .inl rfl
      · cases h
        exact .inl rfl
      · obtain ⟨⟨table', stored, breach⟩, happly, rfl⟩ := Option.map_eq_some_iff.mp h
        exact .inr ⟨stored, applyRecord_applied encoded happly⟩
    · obtain ⟨⟨table', stored, breach⟩, happly, rfl⟩ := Option.map_eq_some_iff.mp h
      exact .inr ⟨stored, applyRecord_applied encoded happly⟩

theorem prepare_encoded {caps : TranscriptCaps} {records : List (ℤ × TranscriptSlice)}
    {prepared : Prepared} (h : prepared ∈ prepare caps records)
    (unmet : caps.recordBreach prepared.record.byteCount = none) :
    prepared.turns = some prepared.record.turnsJson := by
  obtain ⟨⟨seq, record⟩, -, rfl⟩ := List.mem_map.mp h
  exact if_pos unmet

/-- What every record keeps of the rows, a whole batch keeps. -/
theorem decideBatch_invariant {caps : TranscriptCaps} {hub : TranscriptHub} {call : Ingest}
    {unit : Deciding} {P : SegmentTable → Prop}
    (preserved : ∀ table table' record stored, Applied caps table record call.at_ table' stored →
      P table → P table')
    (h : decideBatch caps hub call = some unit) (start : P hub.segments) : P unit.segments := by
  have hfold : ∀ (prepared : List Prepared) (before after : Deciding),
      (∀ p ∈ prepared, caps.recordBreach p.record.byteCount = none →
        p.turns = some p.record.turnsJson) →
      prepared.foldlM (decideRecord caps call.runnerId call.owners call.at_) before = some after →
      P before.segments → P after.segments := by
    intro prepared
    induction prepared with
    | nil =>
      intro before after _ hnil hbefore
      cases hnil
      exact hbefore
    | cons first rest ih =>
      intro before after encoded hcons hbefore
      rw [List.foldlM_cons] at hcons
      obtain ⟨middle, hfirst, hrest⟩ := Option.bind_eq_some_iff.mp hcons
      apply ih middle after (fun p hp => encoded p (List.mem_cons_of_mem _ hp)) hrest
      rcases decideRecord_segments (encoded first List.mem_cons_self) hfirst with hsame | happlied
      · rw [hsame]
        exact hbefore
      · obtain ⟨stored, happlied⟩ := happlied
        exact preserved _ _ _ _ happlied hbefore
  exact hfold _ _ _ (fun p hp => prepare_encoded hp) h start

/-- What applying a record keeps of the rows, every ingest keeps. -/
theorem ingest_invariant {caps : TranscriptCaps} {hub : TranscriptHub} {call : Ingest}
    {P : SegmentTable → Prop}
    (preserved : ∀ table table' record stored, Applied caps table record call.at_ table' stored →
      P table → P table')
    (start : P hub.segments) : P (ingest caps hub call).1.segments := by
  unfold ingest
  split
  · exact start
  · split
    · exact start
    · next unit hunit =>
      have hdecided := decideBatch_invariant preserved hunit start
      simp only
      split <;> exact hdecided

end Blizzard.TranscriptIngest
