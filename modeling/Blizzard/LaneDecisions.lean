import Blizzard.TranscriptLane
import Blizzard.SegmentLives

/-! # What the hub decides of a lane

Every row the lane ever buffered has a natural key of its own, so a batch in seq
order is decided record by record without meeting another's key: what the hub
holds of the lane's segments stands for a row at or under the mark, and every
such row is held or was refused. -/
namespace Blizzard.LaneDecisions
open HubTables EpochFence TranscriptRecords TranscriptLedger TranscriptPump TranscriptIngest
  TranscriptLane SegmentLives ConsecutiveRanges

/-- The rows ever buffered, against where every segment stands. -/
def Lives (ledger : Ledger) (issued : List BufferedDelta) : Prop :=
  ∀ segmentId, Told segmentId (standing ledger segmentId) (rowsOf segmentId issued)

/-- Where a row's range starts: a marker's where its segment's count stands. -/
def spanStart (ledger : Ledger) (delta : BufferedDelta) : ℤ :=
  match delta.payload with
  | some record => record.turnRangeStart
  | none => (standing ledger delta.segmentId).elim 0 fun stands => stands.turns

def spanEnd (ledger : Ledger) (delta : BufferedDelta) : ℤ :=
  match delta.payload with
  | some record => record.turnRangeEnd
  | none => spanStart ledger delta - 1

/-- The hub's row is the one of the buffered row: its key, its range and, where it holds content,
the turns enqueued. -/
structure Stands (setup : Setup) (ledger : Ledger) (delta : BufferedDelta) (row : SegmentRow) :
    Prop where
  own : row.segmentId = delta.segmentId
  starts : row.turnRangeStart = spanStart ledger delta
  ends : row.turnRangeEnd = spanEnd ledger delta
  final : row.final = delta.final
  content : ∀ record, delta.payload = some record →
    row.toRecordIdentity = (toDomainRecord setup record).toRecordIdentity ∧
      (row.rejected = false → row.content = some (setup.turnsText record.turns))

/-- The hub's rows and mark against the rows ever buffered. -/
structure Sound (setup : Setup) (ledger : Ledger) (issued : List BufferedDelta)
    (rows : List SegmentRow) (mark : ℤ) (refused : List ℤ) : Prop where
  known : ∀ row ∈ rows, standing ledger row.segmentId ≠ none →
    ∃ delta ∈ issued, delta.seq ≤ mark ∧ Stands setup ledger delta row
  settled : ∀ delta ∈ issued, delta.seq ≤ mark →
    delta.seq ∈ refused ∨ ∃ row ∈ rows, Stands setup ledger delta row

variable {setup : Setup} {ledger : Ledger} {issued : List BufferedDelta}
  {delta other : BufferedDelta} {rows : List SegmentRow} {mark : ℤ} {refused : List ℤ}

/-! ## Keys -/

theorem mem_rowsOf (mem : delta ∈ issued) : delta ∈ rowsOf delta.segmentId issued :=
  List.mem_filter.mpr ⟨mem, decide_eq_true rfl⟩

/-- A buffered row is one of its segment's records, or the marker of its sealed segment. -/
theorem record_or_marker (lives : Lives ledger issued) (mem : delta ∈ issued) :
    ∃ turns sealed rows, standing ledger delta.segmentId = some ⟨turns, sealed⟩ ∧
      Shipped delta.segmentId 0 turns rows ∧
      ((delta ∈ rows ∧ ∃ record, delta.payload = some record ∧
          record.segmentId = delta.segmentId ∧ record.final = false) ∨
        (sealed = true ∧ delta.payload = none)) ∧
      ∀ other ∈ issued, other.segmentId = delta.segmentId → other.payload ≠ none → other ∈ rows := by
  have held := mem_rowsOf mem
  have told := lives delta.segmentId
  have place : ∀ other ∈ issued, other.segmentId = delta.segmentId →
      other ∈ rowsOf delta.segmentId issued := fun other mem same => same ▸ mem_rowsOf mem
  generalize stands_eq : standing ledger delta.segmentId = stands at told
  generalize rows_eq : rowsOf delta.segmentId issued = own at told held place
  cases told with
  | unopened => cases held
  | @opened turns rows shipped =>
    exact ⟨turns, false, own, rfl, shipped, .inl ⟨held, (shipped.named delta held).2⟩,
      fun other mem same _ => place other mem same⟩
  | @sealed turns rows marker shipped own empty =>
    refine ⟨turns, true, rows, rfl, shipped, ?_, ?_⟩
    · rcases List.mem_append.mp held with held | held
      · exact .inl ⟨held, (shipped.named delta held).2⟩
      · exact .inr ⟨rfl, List.mem_singleton.mp held ▸ empty⟩
    · intro other mem same filled
      rcases List.mem_append.mp (place other mem same) with held | held
      · exact held
      · exact absurd (List.mem_singleton.mp held ▸ empty) filled

theorem opened_of_mem (lives : Lives ledger issued) (mem : delta ∈ issued) :
    standing ledger delta.segmentId ≠ none := by
  obtain ⟨turns, sealed, -, is, -⟩ := record_or_marker lives mem
  rw [is]
  simp

/-- One marker at most is ever enqueued of a segment. -/
theorem marker_unique (lives : Lives ledger issued) (mem : delta ∈ issued) (mem' : other ∈ issued)
    (same : delta.segmentId = other.segmentId) (empty : delta.payload = none)
    (empty' : other.payload = none) : delta = other := by
  have held := mem_rowsOf mem
  have held' : other ∈ rowsOf delta.segmentId issued := same ▸ mem_rowsOf mem'
  have told := lives delta.segmentId
  generalize standing ledger delta.segmentId = stands at told
  generalize rowsOf delta.segmentId issued = own at told held held'
  have filled : ∀ {rows : List BufferedDelta} {turns : ℤ} {row : BufferedDelta},
      Shipped delta.segmentId 0 turns rows → row ∈ rows → row.payload ≠ none := by
    intro rows turns row shipped mem none_
    obtain ⟨-, record, is, -⟩ := shipped.named row mem
    rw [is] at none_
    cases none_
  cases told with
  | unopened => cases held
  | opened shipped => exact absurd empty (filled shipped held)
  | sealed shipped own is =>
    have last := (List.mem_append.mp held).resolve_left fun mem => filled shipped mem empty
    have last' := (List.mem_append.mp held').resolve_left fun mem => filled shipped mem empty'
    rw [List.mem_singleton.mp last, List.mem_singleton.mp last']

/-- No two buffered rows share a natural key. -/
theorem eq_of_key (lives : Lives ledger issued) (mem : delta ∈ issued) (mem' : other ∈ issued)
    (same : delta.segmentId = other.segmentId)
    (starts : spanStart ledger delta = spanStart ledger other) : delta = other := by
  obtain ⟨turns, sealed, rows, is, shipped, kind, all⟩ := record_or_marker lives mem
  obtain ⟨turns', sealed', rows', is', -, kind', -⟩ := record_or_marker lives mem'
  have start_of : ∀ {row : BufferedDelta} {record : WireRecord}, row.payload = some record →
      spanStart ledger row = rangeStart row := by
    intro row record filled
    rw [spanStart, rangeStart, filled]
    rfl
  have marker_of : ∀ {row : BufferedDelta}, row.segmentId = delta.segmentId →
      row.payload = none → spanStart ledger row = turns := by
    intro row own empty
    rw [spanStart, empty, own, is]
    rfl
  have filled_mem : ∀ {row : BufferedDelta} {record : WireRecord}, row ∈ issued →
      row.segmentId = delta.segmentId → row.payload = some record → row ∈ rows := by
    intro row record mem own filled
    exact all row mem own (by rw [filled]; simp)
  rcases kind with ⟨held, record, filled, -⟩ | ⟨-, empty⟩ <;>
    rcases kind' with ⟨-, record', filled', -⟩ | ⟨-, empty'⟩
  · rw [start_of filled, start_of filled'] at starts
    exact shipped.ranged.eq_of_first held (filled_mem mem' same.symm filled') starts
  · have within := shipped.ranged.within held
    rw [start_of filled, marker_of same.symm empty'] at starts
    omega
  · have within := shipped.ranged.within (filled_mem mem' same.symm filled')
    rw [start_of filled', marker_of rfl empty] at starts
    omega
  · exact marker_unique lives mem mem' same empty empty'

/-- What a buffered row is on the wire: its own segment and range. -/
theorem render_span (lives : Lives ledger issued) (mem : delta ∈ issued) {record : WireRecord}
    (rendered : render ledger delta = some record) :
    record.segmentId = delta.segmentId ∧ record.turnRangeStart = spanStart ledger delta ∧
      record.turnRangeEnd = spanEnd ledger delta ∧ record.final = delta.final := by
  rw [render] at rendered
  obtain ⟨turns, sealed, rows, is, shipped, kind, -⟩ := record_or_marker lives mem
  cases filled : delta.payload with
  | some own =>
    rw [filled] at rendered kind
    obtain rfl := Option.some.inj rendered
    obtain ⟨-, held, same, named, final⟩ := kind.resolve_right (by simp)
    obtain rfl := Option.some.inj same
    exact ⟨named, by rw [spanStart, filled], by rw [spanEnd, filled],
      by rw [BufferedDelta.final, filled, final]; rfl⟩
  | none =>
    rw [filled] at rendered
    obtain ⟨segment, found, rfl⟩ := Option.map_eq_some_iff.mp rendered
    have start : spanStart ledger delta = segment.shippedTurns := by
      rw [spanStart, filled, standing, found]
      rfl
    exact ⟨transcriptSegment_id found, start.symm, by rw [spanEnd, filled, start]; rfl,
      by rw [BufferedDelta.final, filled]; rfl⟩

end Blizzard.LaneDecisions
