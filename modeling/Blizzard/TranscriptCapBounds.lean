import Blizzard.TranscriptIngest

/-! # The transcript caps hold

However the batches' instants and their commits are ordered, no accepted row, chunk or rate window
ever exceeds its cap: a window that holds a record's instant opens no earlier than the window the
record was adjudicated against. -/
namespace Blizzard.TranscriptCapBounds
open HubTables TranscriptIngest

/-- The accepted bytes of the rows a predicate picks. -/
def acceptedBytes (rows : List SegmentRow) (picks : SegmentRow → Bool) : ℕ :=
  ((rows.filter fun row => !row.rejected && picks row).map (·.byteCount)).sum

/-- What one row adds to the accepted bytes. -/
def acceptedShare (row : SegmentRow) (picks : SegmentRow → Bool) : ℕ :=
  if !row.rejected && picks row then row.byteCount else 0

def ofChunk (chunkId : ChunkId) (row : SegmentRow) : Bool := decide (row.chunkId = chunkId)

/-- Accepted from the runner within the twenty-four hours up to `t`. -/
def inWindow (runnerId : RunnerId) (t : Instant) (row : SegmentRow) : Bool :=
  decide (row.runnerId = runnerId) && decide (t - runnerRateWindow < row.receivedAt) &&
    decide (row.receivedAt ≤ t)

/-- Every cap holds of the stored rows. -/
structure WithinCaps (caps : TranscriptCaps) (table : SegmentTable) : Prop where
  record : ∀ row ∈ table.rows, row.rejected = false → row.byteCount ≤ caps.recordMaxBytes
  chunk : ∀ chunkId, acceptedBytes table.rows (ofChunk chunkId) ≤ caps.chunkBudgetMaxBytes
  runner : ∀ runnerId t,
    acceptedBytes table.rows (inWindow runnerId t) ≤ caps.runnerDailyRateMaxBytes

/-! ## What a write adds -/

variable {picks : SegmentRow → Bool}

@[simp] theorem acceptedBytes_nil : acceptedBytes [] picks = 0 := rfl

@[simp] theorem acceptedBytes_cons (row : SegmentRow) (rows : List SegmentRow) :
    acceptedBytes (row :: rows) picks = acceptedShare row picks + acceptedBytes rows picks := by
  unfold acceptedBytes acceptedShare
  rw [List.filter_cons]
  split <;> simp_all

theorem acceptedBytes_append (rows rows' : List SegmentRow) :
    acceptedBytes (rows ++ rows') picks = acceptedBytes rows picks + acceptedBytes rows' picks := by
  simp [acceptedBytes, List.filter_append]

/-- A rejected row counts for nothing. -/
theorem acceptedShare_rejected {row : SegmentRow} (h : row.rejected = true) :
    acceptedShare row picks = 0 := by
  simp [acceptedShare, h]

/-- A row put in place of a rejected one adds at most its own share. -/
theorem acceptedBytes_replaced {rows : List SegmentRow} (row : SegmentRow)
    (unique : (rows.map (·.key)).Nodup) :
    acceptedBytes (rows.map (SegmentTable.replaced row)) picks
      ≤ acceptedBytes rows picks + acceptedShare row picks := by
  induction rows with
  | nil => simp
  | cons first rest ih =>
    rw [List.map_cons, List.nodup_cons] at unique
    rw [List.map_cons, acceptedBytes_cons, acceptedBytes_cons]
    by_cases hhere : first.key = row.key ∧ first.rejected = true
    · have hfirst : SegmentTable.replaced row first = row := if_pos hhere
      have hrest : rest.map (SegmentTable.replaced row) = rest := by
        rw [List.map_congr_left, List.map_id]
        intro other hother
        apply if_neg
        rintro ⟨hkey, -⟩
        exact unique.1 (hhere.1.trans hkey.symm ▸ List.mem_map_of_mem hother)
      rw [hfirst, hrest, acceptedShare_rejected hhere.2]
      omega
    · have hfirst : SegmentTable.replaced row first = first := if_neg hhere
      have hrest := ih unique.2
      rw [hfirst]
      omega

theorem written_bytes_le (picks : SegmentRow → Bool) {table table' : SegmentTable}
    {row : SegmentRow} (h : Written table row table') :
    acceptedBytes table'.rows picks ≤ acceptedBytes table.rows picks + acceptedShare row picks := by
  rcases h with ⟨-, hrows⟩ | ⟨-, hrows⟩
  · rw [hrows, acceptedBytes_append, acceptedBytes_cons, acceptedBytes_nil]
    omega
  · rw [hrows]
    exact acceptedBytes_replaced row table.key_unique

/-! ## The ladder's sums -/

theorem chunkStoredBytes_eq (table : SegmentTable) (chunkId : ChunkId) :
    table.chunkStoredBytes chunkId = acceptedBytes table.rows (ofChunk chunkId) := by
  unfold SegmentTable.chunkStoredBytes acceptedBytes ofChunk
  simp only [Bool.and_comm]

/-- The sum the rate cap reads covers every window that holds the record's instant. -/
theorem inWindow_le_runnerWindowBytes (table : SegmentTable) (runnerId : RunnerId)
    {t at_ : Instant} (h : at_ ≤ t) :
    acceptedBytes table.rows (inWindow runnerId t)
      ≤ table.runnerWindowBytes runnerId (TranscriptCaps.windowStart at_) := by
  unfold acceptedBytes SegmentTable.runnerWindowBytes
  apply List.Sublist.sum_le_sum
  · apply List.Sublist.map
    rw [show table.rows.filter (fun row => !row.rejected && inWindow runnerId t row)
      = (table.rows.filter fun row => decide (row.runnerId = runnerId) &&
          decide (TranscriptCaps.windowStart at_ ≤ row.receivedAt)).filter
            fun row => !row.rejected && inWindow runnerId t row from ?_]
    · exact List.filter_sublist
    · rw [List.filter_filter]
      apply List.filter_congr
      intro row _
      by_cases hin : inWindow runnerId t row = true
      · have hcovered := hin
        simp only [inWindow, Bool.and_eq_true, decide_eq_true_eq] at hcovered
        have hsince : TranscriptCaps.windowStart at_ ≤ row.receivedAt :=
          (Int.sub_le_sub_right h _).trans hcovered.1.2.le
        simp [hin, hcovered.1.1, hsince]
      · simp [hin]
  · simp

/-- A record no cap refuses fits each of them. -/
theorem breachOf_none {caps : TranscriptCaps} {table : SegmentTable} {record : TranscriptSlice}
    {at_ : Instant} (h : breachOf caps table record at_ = none) :
    record.byteCount ≤ caps.recordMaxBytes ∧
      table.chunkStoredBytes record.chunkId + record.byteCount ≤ caps.chunkBudgetMaxBytes ∧
      table.runnerWindowBytes record.runnerId (TranscriptCaps.windowStart at_) + record.byteCount
        ≤ caps.runnerDailyRateMaxBytes := by
  unfold breachOf at h
  split at h
  · cases h
  · next hrecord =>
    split at h
    · cases h
    · next hchunk =>
      have hfits {limit observed : ℕ} {reason : String}
          (hnone : (if limit < observed then some (⟨reason, observed, limit⟩ : CapBreach) else none)
            = none) : observed ≤ limit := by
        split at hnone
        · cases hnone
        · omega
      exact ⟨hfits hrecord, hfits hchunk, hfits h⟩

/-! ## One record, one ingest, every run -/

/-- Applying a record keeps every cap. -/
theorem applied_withinCaps {caps : TranscriptCaps} {table table' : SegmentTable}
    {record : TranscriptSlice} {at_ : Instant} {stored : Bool}
    (h : Applied caps table record at_ table' stored) (within : WithinCaps caps table) :
    WithinCaps caps table' := by
  cases h with
  | kept => exact within
  | capped written =>
    refine ⟨?_, ?_, ?_⟩
    · intro row hrow haccepted
      rcases written.mem hrow with hold | rfl
      · exact within.record row hold haccepted
      · cases haccepted
    · intro chunkId
      have hbytes := written_bytes_le (ofChunk chunkId) written
      rw [acceptedShare_rejected rfl] at hbytes
      exact hbytes.trans (within.chunk chunkId)
    · intro runnerId t
      have hbytes := written_bytes_le (inWindow runnerId t) written
      rw [acceptedShare_rejected rfl] at hbytes
      exact hbytes.trans (within.runner runnerId t)
  | stored unmet written =>
    obtain ⟨hrecord, hchunk, hrunner⟩ := breachOf_none unmet
    refine ⟨?_, ?_, ?_⟩
    · intro row hrow haccepted
      rcases written.mem hrow with hold | rfl
      · exact within.record row hold haccepted
      · exact hrecord
    · intro chunkId
      have hbytes := written_bytes_le (ofChunk chunkId) written
      have hold := within.chunk chunkId
      by_cases hsame : record.chunkId = chunkId
      · subst hsame
        rw [chunkStoredBytes_eq] at hchunk
        have hshare : acceptedShare (acceptedRow record record.turnsJson at_)
            (ofChunk record.chunkId) ≤ record.byteCount := by
          unfold acceptedShare
          split <;> simp [acceptedRow]
        omega
      · have hshare : acceptedShare (acceptedRow record record.turnsJson at_) (ofChunk chunkId)
            = 0 := by simp [acceptedShare, ofChunk, acceptedRow, hsame]
        omega
    · intro runnerId t
      have hbytes := written_bytes_le (inWindow runnerId t) written
      have hold := within.runner runnerId t
      by_cases hcounts : record.runnerId = runnerId ∧ at_ ≤ t
      · obtain ⟨rfl, hbefore⟩ := hcounts
        have hwindow := inWindow_le_runnerWindowBytes table record.runnerId hbefore
        have hshare : acceptedShare (acceptedRow record record.turnsJson at_)
            (inWindow record.runnerId t) ≤ record.byteCount := by
          unfold acceptedShare
          split <;> simp [acceptedRow]
        omega
      · have hshare : acceptedShare (acceptedRow record record.turnsJson at_)
            (inWindow runnerId t) = 0 := by
          apply if_neg
          simp only [inWindow, Bool.and_eq_true, decide_eq_true_eq]
          intro hin
          exact hcounts ⟨hin.2.1.1, hin.2.2⟩
        omega

theorem ingest_withinCaps {caps : TranscriptCaps} {hub : TranscriptHub} (call : Ingest)
    (within : WithinCaps caps hub.segments) :
    WithinCaps caps (ingest caps hub call).1.segments :=
  ingest_invariant (fun _ _ _ _ applied => applied_withinCaps applied) within

theorem withinCaps_empty (caps : TranscriptCaps) : WithinCaps caps .empty where
  record := by simp [SegmentTable.empty]
  chunk := by simp [SegmentTable.empty]
  runner := by simp [SegmentTable.empty]

/-- After any ingests, committed in any order against their instants, every cap holds. -/
theorem caps_hold (caps : TranscriptCaps) (calls : List Ingest) :
    WithinCaps caps (calls.foldl (fun hub call => (ingest caps hub call).1) {}).segments := by
  have hrun : ∀ hub : TranscriptHub, WithinCaps caps hub.segments → WithinCaps caps
      (calls.foldl (fun hub call => (ingest caps hub call).1) hub).segments := by
    induction calls with
    | nil =>
      intro hub within
      exact within
    | cons call calls ih =>
      intro hub within
      exact ih _ (ingest_withinCaps call within)
  exact hrun {} (withinCaps_empty caps)

end Blizzard.TranscriptCapBounds
