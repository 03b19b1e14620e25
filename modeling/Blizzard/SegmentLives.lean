import Blizzard.TranscriptPump

/-! # A segment's life in the outbound buffer

How far a segment stands, its count and whether it is sealed, against the rows
the buffer ever held of it: records whose ranges follow one another from zero up
to the count, and one marker last once it is sealed. Each write of the ledger
keeps the two in step. -/
namespace Blizzard.SegmentLives
open HubTables TranscriptRecords TranscriptLedger TranscriptPump UniqueRows ConsecutiveRanges

structure Standing where
  turns : ℕ
  sealed : Bool
  deriving DecidableEq, Repr

def LedgerSegment.standing (segment : LedgerSegment) : Standing :=
  ⟨segment.shippedTurns, segment.finalizedAt.isSome⟩

/-- Where a segment stands, `none` while it is not opened. -/
def standing (ledger : Ledger) (segmentId : String) : Option Standing :=
  (ledger.transcriptSegment segmentId).map LedgerSegment.standing

def rowsOf (segmentId : String) (rows : List BufferedDelta) : List BufferedDelta :=
  rows.filter fun delta => decide (delta.segmentId = segmentId)

def rangeStart (delta : BufferedDelta) : ℤ := (delta.payload.map (·.turnRangeStart)).getD 0
def rangeEnd (delta : BufferedDelta) : ℤ := (delta.payload.map (·.turnRangeEnd)).getD 0

/-- Records of the segment over ranges that follow one another. -/
structure Shipped (segmentId : String) (from_ to_ : ℤ) (rows : List BufferedDelta) : Prop where
  ranged : Consecutive rangeStart rangeEnd from_ to_ rows
  named : ∀ delta ∈ rows, delta.segmentId = segmentId ∧ ∃ record, delta.payload = some record ∧
    record.segmentId = segmentId ∧ record.final = false

/-- The rows ever enqueued of a segment, against where it stands. -/
inductive Told (segmentId : String) : Option Standing → List BufferedDelta → Prop
  | unopened : Told segmentId none []
  | opened {turns : ℕ} {rows : List BufferedDelta} (shipped : Shipped segmentId 0 turns rows) :
      Told segmentId (some ⟨turns, false⟩) rows
  | sealed {turns : ℕ} {rows : List BufferedDelta} {marker : BufferedDelta}
      (shipped : Shipped segmentId 0 turns rows) (own : marker.segmentId = segmentId)
      (empty : marker.payload = none) : Told segmentId (some ⟨turns, true⟩) (rows ++ [marker])

abbrev Numbered : ℤ → ℤ → List BufferedDelta → Prop := Consecutive (·.seq) (·.seq)

/-- What a transaction other than an ack does: it enqueues rows under the next numbers and keeps
every segment's rows in step with where it stands. -/
structure Grows (ledger : Ledger) (added : List BufferedDelta) (after : Ledger) : Prop where
  outbox : after.outbox = ledger.outbox ++ added
  numbered : Numbered (ledger.lastSeq + 1) (after.lastSeq + 1) added
  unacked : ∀ delta ∈ added, delta.ackedAt = none
  tells : ∀ segmentId rows, Told segmentId (standing ledger segmentId) rows →
    Told segmentId (standing after segmentId) (rows ++ rowsOf segmentId added)
  stays : ∀ segmentId turns, standing ledger segmentId = some ⟨turns, true⟩ →
    standing after segmentId = some ⟨turns, true⟩
  known : ∀ segmentId, standing ledger segmentId ≠ none → standing after segmentId ≠ none

/-- No segment's count moves, and none is opened but the one named. -/
structure Counts (opened : Option String) (ledger after : Ledger) : Prop where
  turns : ∀ segmentId stands, standing ledger segmentId = some stands →
    ∃ sealed, standing after segmentId = some ⟨stands.turns, sealed⟩
  known : ∀ segmentId, standing after segmentId ≠ none →
    standing ledger segmentId ≠ none ∨ opened = some segmentId

variable {ledger middle after : Ledger} {added more rows : List BufferedDelta}
  {segmentId other : String} {from_ next to_ : ℤ} {opened : Option String}

theorem rowsOf_append : rowsOf segmentId (rows ++ more) =
    rowsOf segmentId rows ++ rowsOf segmentId more := List.filter_append ..

theorem Shipped.append (shipped : Shipped segmentId from_ next rows)
    (rest : Shipped segmentId next to_ more) : Shipped segmentId from_ to_ (rows ++ more) :=
  ⟨shipped.ranged.append rest.ranged, fun delta mem =>
    (List.mem_append.mp mem).elim (shipped.named delta) (rest.named delta)⟩

namespace Grows

theorem refl (ledger : Ledger) : Grows ledger [] ledger where
  outbox := (List.append_nil _).symm
  numbered := .nil _
  unacked := fun delta mem => by cases mem
  tells := fun segmentId rows told => by simpa [rowsOf] using told
  stays := fun _ _ stands => stands
  known := fun _ opened => opened

theorem trans (first : Grows ledger added middle) (second : Grows middle more after) :
    Grows ledger (added ++ more) after where
  outbox := by rw [second.outbox, first.outbox, List.append_assoc]
  numbered := first.numbered.append second.numbered
  unacked := fun delta mem => (List.mem_append.mp mem).elim (first.unacked delta)
    (second.unacked delta)
  tells := fun segmentId rows told => by
    rw [rowsOf_append, ← List.append_assoc]
    exact second.tells segmentId _ (first.tells segmentId rows told)
  stays := fun segmentId turns stands => second.stays segmentId turns
    (first.stays segmentId turns stands)
  known := fun segmentId opened => second.known segmentId (first.known segmentId opened)

end Grows

namespace Counts

theorem refl (ledger : Ledger) : Counts none ledger ledger where
  turns := fun _ stands is => ⟨stands.sealed, is⟩
  known := fun _ stands => .inl stands

theorem trans (first : Counts none ledger middle) (second : Counts opened middle after) :
    Counts opened ledger after where
  turns := fun segmentId stands is => by
    obtain ⟨sealed, is'⟩ := first.turns segmentId stands is
    exact second.turns segmentId ⟨stands.turns, sealed⟩ is'
  known := fun segmentId stands => by
    rcases second.known segmentId stands with held | own
    · exact .inl ((first.known segmentId held).resolve_right (by simp))
    · exact .inr own

end Counts

/-! ## Each write -/

theorem transcriptSegment_amend (change : LedgerSegment → LedgerSegment)
    (keeps : ∀ segment, (change segment).segmentId = segment.segmentId) :
    (ledger.amend segmentId change keeps).transcriptSegment other =
      (ledger.transcriptSegment other).map
        fun segment => if segment.segmentId = segmentId then change segment else segment := by
  have same : ∀ segment : LedgerSegment,
      (if segment.segmentId = segmentId then change segment else segment).segmentId =
        segment.segmentId := by
    intro segment
    split
    · exact keeps segment
    · rfl
  simp only [Ledger.transcriptSegment, Ledger.amend, UniqueTable.update, List.find?_map,
    Function.comp_def, same]

theorem transcriptSegment_id {segment : LedgerSegment}
    (found : ledger.transcriptSegment segmentId = some segment) :
    segment.segmentId = segmentId := by
  simpa using List.find?_some found

theorem transcriptSegment_of_mem {segment : LedgerSegment} (mem : segment ∈ ledger.segments.rows) :
    ledger.transcriptSegment segment.segmentId = some segment := by
  cases found : ledger.transcriptSegment segment.segmentId with
  | none =>
    have unknown := List.find?_eq_none.mp found segment mem
    simp at unknown
  | some other =>
    rw [UniqueTable.eq_of_key (List.mem_of_find?_eq_some found) mem (transcriptSegment_id found)]

theorem standing_amend (change : LedgerSegment → LedgerSegment)
    (keeps : ∀ segment, (change segment).segmentId = segment.segmentId) (apart : other ≠ segmentId) :
    standing (ledger.amend segmentId change keeps) other = standing ledger other := by
  rw [standing, standing, transcriptSegment_amend]
  cases found : ledger.transcriptSegment other with
  | none => rfl
  | some segment =>
    have id_ := transcriptSegment_id found
    rw [Option.map_some, if_neg (by rw [id_]; exact apart)]

theorem standing_amend_own (change : LedgerSegment → LedgerSegment)
    (keeps : ∀ segment, (change segment).segmentId = segment.segmentId) :
    standing (ledger.amend segmentId change keeps) segmentId =
      (ledger.transcriptSegment segmentId).map fun segment =>
        LedgerSegment.standing (change segment) := by
  rw [standing, transcriptSegment_amend]
  cases found : ledger.transcriptSegment segmentId with
  | none => rfl
  | some segment =>
    rw [Option.map_some, Option.map_some, Option.map_some, if_pos (transcriptSegment_id found)]

/-- A write of other columns than the count and the seal. -/
theorem quiet_amend {change : LedgerSegment → LedgerSegment}
    (keeps : ∀ segment, (change segment).segmentId = segment.segmentId)
    (same : ∀ segment, LedgerSegment.standing (change segment) = LedgerSegment.standing segment) :
    Grows ledger [] (ledger.amend segmentId change keeps) ∧
      Counts none ledger (ledger.amend segmentId change keeps) := by
  have stands : ∀ other, standing (ledger.amend segmentId change keeps) other =
      standing ledger other := by
    intro other
    by_cases own : other = segmentId
    · subst own
      rw [standing_amend_own, standing]
      simp only [same]
    · exact standing_amend change keeps own
  refine ⟨⟨(List.append_nil _).symm, .nil _, fun delta mem => (by cases mem), ?_, ?_, ?_⟩, ?_, ?_⟩
  · intro other rows told
    rw [stands]
    simpa [rowsOf] using told
  · intro other turns is
    rw [stands, is]
  · intro other opened
    rwa [stands]
  · intro other stands' is
    exact ⟨stands'.sealed, by rw [stands, is]⟩
  · intro other known
    exact .inl (stands other ▸ known)

theorem silent_apply {write : LedgerWrite} (silent : write.Silent) :
    Grows ledger [] (write.apply ledger) ∧ Counts none ledger (write.apply ledger) := by
  cases write with
  | ship deltas => cases silent
  | acknowledge seqs ackedAt => cases silent
  | advance segmentId cursor normalizerVersion harnessVersion learned =>
    rw [LedgerWrite.apply, Ledger.advanceTranscriptCursor]
    split
    · exact quiet_amend _ fun _ => rfl
    · exact ⟨.refl _, .refl _⟩
  | truncated segmentId reason =>
    rw [LedgerWrite.apply, Ledger.markTranscriptRecordTruncated]
    exact quiet_amend _ fun _ => rfl
  | stop segmentId reason =>
    rw [LedgerWrite.apply, Ledger.stopTranscriptSegmentShipping]
    exact quiet_amend _ fun _ => rfl
  | sidechain segmentId agentId =>
    rw [LedgerWrite.apply, Ledger.markSidechainDroppedWarned]
    exact quiet_amend _ fun _ => rfl

/-- Records enqueued in turn. -/
theorem enqueued {chunkId : String} {at_ : Instant} {records : List WireRecord}
    (ranged : Ranged from_ to_ records)
    (named : ∀ record ∈ records, record.segmentId = segmentId ∧ record.final = false)
    (ledger : Ledger) :
    let after := records.foldl
      (fun ledger record => ledger.insertOutboxRow segmentId chunkId (some record) at_) ledger
    after.segments = ledger.segments ∧ ∃ added, after.outbox = ledger.outbox ++ added ∧
      Numbered (ledger.lastSeq + 1) (after.lastSeq + 1) added ∧
      (∀ delta ∈ added, delta.ackedAt = none) ∧ Shipped segmentId from_ to_ added := by
  induction ranged generalizing ledger with
  | nil at_ =>
    exact ⟨rfl, [], (List.append_nil _).symm, .nil _, fun delta mem => (by cases mem), .nil _,
      fun delta mem => (by cases mem)⟩
  | @cons from_ next to_ record rest starts ends some_ later ih =>
    obtain ⟨same, added, outbox, numbered, unacked, shipped⟩ :=
      ih (fun other mem => named other (List.mem_cons_of_mem _ mem))
        (ledger.insertOutboxRow segmentId chunkId (some record) at_)
    have own := named record List.mem_cons_self
    refine ⟨same, ⟨ledger.lastSeq + 1, segmentId, chunkId, some record, at_, none⟩ :: added, ?_,
      ?_, ?_, ?_, ?_⟩
    · rw [List.foldl_cons, outbox, Ledger.insertOutboxRow, List.append_assoc]
      rfl
    · exact .cons rfl (by dsimp only; omega) (Int.lt_succ _) numbered
    · intro delta mem
      rcases List.mem_cons.mp mem with rfl | mem
      · rfl
      · exact unacked delta mem
    · exact .cons starts ends some_ shipped.ranged
    · intro delta mem
      rcases List.mem_cons.mp mem with rfl | mem
      · exact ⟨rfl, record, rfl, own⟩
      · exact shipped.named delta mem

theorem rowsOf_own (own : ∀ delta ∈ rows, delta.segmentId = segmentId) :
    rowsOf segmentId rows = rows :=
  List.filter_eq_self.mpr fun delta mem => decide_eq_true (own delta mem)

theorem rowsOf_apart (own : ∀ delta ∈ rows, delta.segmentId = segmentId)
    (apart : other ≠ segmentId) : rowsOf other rows = [] :=
  List.filter_eq_nil_iff.mpr fun delta mem here =>
    apart ((of_decide_eq_true here).symm.trans (own delta mem))

/-- Content that follows on its segment's count, written while the segment is open. -/
theorem ship_grows {deltas : Deltas} {turns : ℕ} {sealed : Bool}
    (stands : standing ledger deltas.segmentId = some ⟨turns, sealed⟩)
    (ranged : Ranged turns deltas.shippedTurns deltas.payloads)
    (named : ∀ record ∈ deltas.payloads,
      record.segmentId = deltas.segmentId ∧ record.final = false) :
    (∃ added, Grows ledger added (ledger.recordTranscriptDeltas deltas)) ∧
      ∀ other, (other ≠ deltas.segmentId →
        standing (ledger.recordTranscriptDeltas deltas) other = standing ledger other) ∧
        (standing (ledger.recordTranscriptDeltas deltas) other ≠ none →
          standing ledger other ≠ none) := by
  rw [Ledger.recordTranscriptDeltas]
  split
  · rename_i accepts
    obtain ⟨segment, found, is⟩ := Option.map_eq_some_iff.mp stands
    rw [Ledger.acceptsContent, found, Option.all_some, LedgerSegment.acceptsContent,
      Option.isNone_iff_eq_none] at accepts
    have open_ : sealed = false := by
      have sealed_ := congrArg Standing.sealed is
      simpa [LedgerSegment.standing, accepts] using sealed_.symm
    subst open_
    set moved := ledger.amend deltas.segmentId _ _ with moved_eq
    have apart : ∀ other, other ≠ deltas.segmentId → standing moved other = standing ledger other :=
      fun other ne => standing_amend _ _ ne
    have own : standing moved deltas.segmentId = some ⟨deltas.shippedTurns, false⟩ := by
      rw [moved_eq, standing_amend_own, found, Option.map_some]
      simp [LedgerSegment.standing, accepts]
    obtain ⟨same, added, outbox, numbered, unacked, shipped⟩ :=
      enqueued ranged named moved
    set after := List.foldl _ moved deltas.payloads with after_eq
    have kept : ∀ other, standing after other = standing moved other := by
      intro other
      rw [standing, standing, Ledger.transcriptSegment, Ledger.transcriptSegment, same]
    have names : ∀ delta ∈ added, delta.segmentId = deltas.segmentId :=
      fun delta mem => (shipped.named delta mem).1
    refine ⟨⟨added, outbox, numbered, unacked, ?_, ?_, ?_⟩, ?_⟩
    · intro other rows told
      rw [kept]
      by_cases here : other = deltas.segmentId
      · subst here
        rw [stands] at told
        cases told with
        | opened before =>
          rw [own, rowsOf_own names]
          exact .opened (before.append shipped)
      · rw [apart other here, rowsOf_apart names here, List.append_nil]
        exact told
    · intro other turns' is'
      rw [kept]
      by_cases here : other = deltas.segmentId
      · subst here
        rw [stands] at is'
        cases is'
      · rw [apart other here, is']
    · intro other opened
      rw [kept]
      by_cases here : other = deltas.segmentId
      · rw [here, own]
        simp
      · rwa [apart other here]
    · intro other
      refine ⟨fun ne => by rw [kept, apart other ne], fun known => ?_⟩
      by_cases here : other = deltas.segmentId
      · subst here
        rw [stands]
        simp
      · rwa [kept, apart other here] at known
  · exact ⟨⟨[], .refl _⟩, fun _ => ⟨fun _ => rfl, id⟩⟩

theorem finalize_grows (segmentId : String) (at_ : Instant) :
    (∃ added, Grows ledger added (ledger.finalizeTranscriptSegment segmentId at_)) ∧
      Counts none ledger (ledger.finalizeTranscriptSegment segmentId at_) := by
  rw [Ledger.finalizeTranscriptSegment]
  split
  · exact ⟨⟨[], .refl _⟩, .refl _⟩
  · rename_i segment found
    split
    · rename_i open_
      rw [Option.isNone_iff_eq_none] at open_
      set moved := ledger.amend segmentId _ _ with moved_eq
      have apart : ∀ other, other ≠ segmentId → standing moved other = standing ledger other :=
        fun other ne => standing_amend _ _ ne
      have before : standing ledger segmentId = some ⟨segment.shippedTurns, false⟩ := by
        rw [standing, found, Option.map_some, LedgerSegment.standing, open_]
        rfl
      have own : standing moved segmentId = some ⟨segment.shippedTurns, true⟩ := by
        rw [moved_eq, standing_amend_own, found]
        rfl
      let marker : BufferedDelta := ⟨ledger.lastSeq + 1, segmentId, segment.chunkId, none, at_, none⟩
      have kept : ∀ other, standing (moved.insertOutboxRow segmentId segment.chunkId none at_) other
          = standing moved other := fun _ => rfl
      have alone : ∀ delta ∈ [marker], delta.segmentId = segmentId :=
        fun delta mem => List.mem_singleton.mp mem ▸ rfl
      refine ⟨⟨[marker], rfl, .cons rfl (by dsimp only [marker]; omega) (Int.lt_succ _)
        (.nil _), ?_, ?_, ?_, ?_⟩, ?_, ?_⟩
      · intro delta mem
        rw [List.mem_singleton.mp mem]
      · intro other rows told
        rw [kept]
        by_cases here : other = segmentId
        · subst here
          rw [before] at told
          cases told with
          | opened shipped =>
            rw [own, rowsOf_own alone]
            exact .sealed shipped rfl rfl
        · rw [apart other here, rowsOf_apart alone here, List.append_nil]
          exact told
      · intro other turns is
        rw [kept]
        by_cases here : other = segmentId
        · subst here
          rw [before] at is
          cases is
        · rw [apart other here, is]
      · intro other opened
        rw [kept]
        by_cases here : other = segmentId
        · rw [here, own]
          simp
        · rwa [apart other here]
      · intro other stands is
        rw [kept]
        by_cases here : other = segmentId
        · subst here
          rw [before] at is
          obtain rfl := Option.some.inj is
          exact ⟨true, own⟩
        · exact ⟨stands.sealed, by rw [apart other here, is]⟩
      · intro other known
        rw [kept] at known
        by_cases here : other = segmentId
        · subst here
          exact .inl (by rw [before]; simp)
        · exact .inl (apart other here ▸ known)
    · exact ⟨⟨[], .refl _⟩, .refl _⟩

theorem open_grows (segment : LedgerSegment) :
    Grows ledger [] (ledger.openTranscriptSegment segment) ∧
      Counts (some segment.segmentId) ledger (ledger.openTranscriptSegment segment) := by
  rw [Ledger.openTranscriptSegment]
  split
  · exact ⟨.refl _, fun _ stands is => ⟨stands.sealed, is⟩, fun _ known => .inl known⟩
  · rename_i segments inserted
    obtain ⟨free, rows⟩ := UniqueTable.insert_some inserted
    have found : ∀ other, standing { ledger with segments } other =
        if other = segment.segmentId then some ⟨0, false⟩ else standing ledger other := by
      intro other
      rw [standing, standing, Ledger.transcriptSegment, Ledger.transcriptSegment, rows,
        List.find?_append]
      split
      · rename_i here
        have unknown : ledger.segments.rows.find? (fun row => decide (row.segmentId = other)) =
            none := by
          rw [List.find?_eq_none]
          intro row mem is
          exact free (List.mem_map.mpr ⟨row, mem, (of_decide_eq_true is).trans here⟩)
        rw [unknown, here]
        simp [LedgerSegment.standing]
      · rename_i apart
        have other_ : [{ segment with
            shippedBytes := 0, shippedTurns := 0, normalizerVersion := "", harnessVersion := none
            truncation := {}, shippingStoppedReason := none, sidechainWarnedAgents := []
            agentToolUseIds := [], finalizedAt := none }].find?
              (fun row : LedgerSegment => decide (row.segmentId = other)) = none := by
          rw [List.find?_eq_none]
          intro row mem is
          rw [List.mem_singleton.mp mem] at is
          exact apart (of_decide_eq_true is).symm
        rw [other_, Option.or_none]
    have unknown : standing ledger segment.segmentId = none := by
      rw [standing, Ledger.transcriptSegment, Option.map_eq_none_iff, List.find?_eq_none]
      intro row mem is
      exact free (List.mem_map.mpr ⟨row, mem, of_decide_eq_true is⟩)
    refine ⟨⟨(List.append_nil _).symm, .nil _, fun delta mem => (by cases mem), ?_, ?_, ?_⟩, ?_, ?_⟩
    · intro other rows told
      rw [found, rowsOf, List.filter_nil, List.append_nil]
      split
      · rename_i here
        rw [here, unknown] at told
        cases told
        exact .opened ⟨.nil _, fun delta mem => (by cases mem)⟩
      · exact told
    · intro other turns is
      rw [found, if_neg, is]
      rintro rfl
      rw [unknown] at is
      cases is
    · intro other opened
      rw [found]
      split
      · simp
      · exact opened
    · intro other stands is
      refine ⟨stands.sealed, ?_⟩
      rw [found, if_neg, is]
      rintro rfl
      rw [unknown] at is
      cases is
    · intro other known
      rw [found] at known
      split at known
      · rename_i here
        exact .inr (here ▸ rfl)
      · exact .inl known

theorem closeLease_grows (leaseId : String) (at_ : Instant) :
    (∃ added, Grows ledger added (ledger.closeLease leaseId at_)) ∧
      Counts none ledger (ledger.closeLease leaseId at_) := by
  rw [Ledger.closeLease]
  generalize (List.map _ _ : List String) = ids
  induction ids generalizing ledger with
  | nil => exact ⟨⟨[], .refl _⟩, .refl _⟩
  | cons segmentId ids ih =>
    obtain ⟨⟨added, grows⟩, counts⟩ := @finalize_grows ledger segmentId at_
    obtain ⟨⟨more, grows'⟩, counts'⟩ :=
      @ih (ledger.finalizeTranscriptSegment segmentId at_)
    exact ⟨⟨added ++ more, grows.trans grows'⟩, counts.trans counts'⟩

theorem openSpawn_grows (segment : LedgerSegment) :
    (∃ added, Grows ledger added (ledger.openSpawnSegment segment)) ∧
      Counts (some segment.segmentId) ledger (ledger.openSpawnSegment segment) := by
  rw [Ledger.openSpawnSegment]
  split
  · obtain ⟨grows, counts⟩ := @open_grows ledger { segment with cursor := none }
    exact ⟨⟨[], grows⟩, counts⟩
  · rename_i prior _
    split
    · exact ⟨⟨[], .refl _⟩, fun _ stands is => ⟨stands.sealed, is⟩, fun _ known => .inl known⟩
    · obtain ⟨⟨added, grows⟩, counts⟩ :=
        @finalize_grows ledger prior.segmentId segment.stampedAt
      obtain ⟨grows', counts'⟩ :=
        @open_grows (ledger.finalizeTranscriptSegment prior.segmentId segment.stampedAt)
          { segment with cursor := prior.cursor }
      exact ⟨⟨added ++ [], grows.trans grows'⟩, counts.trans counts'⟩

end Blizzard.SegmentLives
