import Blizzard.LaneIngests

/-! # What every step of the lane keeps

The buffer's rows numbered without a gap and in step with their segments; what
is not pending decided; the hub sound; a pass holding all that is pending before
what it pushes; a window following on its segment's count. -/
namespace Blizzard.LaneKeeping
open HubTables EpochFence TranscriptRecords TranscriptLedger TranscriptPump TranscriptIngest
  TranscriptLane SegmentLives LaneDecisions LaneIngests ConsecutiveRanges

/-- What a drain pass has in hand: rows in seq order that leave out none undecided before them, and
acks of what was decided. -/
structure PassLawful (issued : List BufferedDelta) (mark : ℤ) (pass : DrainPass) : Prop where
  held : ∀ delta ∈ pass.batches.flatten, delta ∈ issued
  sorted : pass.batches.flatten.Pairwise fun one other => one.seq ≤ other.seq
  gap : ∀ delta ∈ pass.batches.flatten, ∀ other ∈ issued, other.seq < delta.seq →
    other.seq ≤ mark ∨ other ∈ pass.batches.flatten
  owed : ∀ write ∈ pass.owed, write.Silent ∨
    ∃ seqs ackedAt, write = .acknowledge seqs ackedAt ∧ ∀ seq ∈ seqs, seq ≤ mark

/-- What a window has in hand of its segment. -/
def WindowLawful (ledger : Ledger) (segmentId : String) (writes : List LedgerWrite) : Prop :=
  Silent writes ∨ ∃ before deltas after turns sealed, writes = before ++ .ship deltas :: after ∧
    Silent before ∧ Silent after ∧ deltas.segmentId = segmentId ∧
    standing ledger segmentId = some ⟨turns, sealed⟩ ∧
    Ranged turns deltas.shippedTurns deltas.payloads ∧
    ∀ record ∈ deltas.payloads, record.segmentId = segmentId ∧ record.final = false

structure Lawful (setup : Setup) (lane : Lane) : Prop where
  lives : Lives lane.ledger lane.issued
  numbered : Numbered 1 (lane.ledger.lastSeq + 1) lane.issued
  unacked : ∀ delta ∈ lane.issued, delta.ackedAt = none
  buffered : ∀ delta ∈ lane.ledger.outbox, delta.ackedAt = none → delta ∈ lane.issued
  waiting : ∀ delta ∈ lane.issued,
    delta ∈ lane.ledger.outbox ∨ delta.seq ≤ lane.hub.mark setup.runnerId
  marked : lane.hub.mark setup.runnerId ≤ lane.ledger.lastSeq
  sound : Sound setup lane.ledger lane.issued lane.hub.segments.rows
    (lane.hub.mark setup.runnerId) lane.refused
  passes : ∀ pass ∈ lane.passes, PassLawful lane.issued (lane.hub.mark setup.runnerId) pass
  windows : ∀ segmentId, WindowLawful lane.ledger segmentId (lane.windows segmentId)

variable {setup : Setup} {lane : Lane} {ledger : Ledger} {added issued : List BufferedDelta}
  {mark mark' : ℤ} {pass : DrainPass} {segmentId : String} {opened : Option String} {place : ℕ}

theorem Lawful.seq_le (lawful : Lawful setup lane) {delta : BufferedDelta}
    (mem : delta ∈ lane.issued) : delta.seq ≤ lane.ledger.lastSeq := by
  have within := lawful.numbered.within mem
  omega

theorem Lawful.distinct (lawful : Lawful setup lane) : ∀ one ∈ lane.issued, ∀ other ∈ lane.issued,
    one.seq = other.seq → one = other :=
  fun _ mem _ mem' same => lawful.numbered.eq_of_first mem mem' same

theorem idle_lawful : PassLawful issued mark ⟨[], []⟩ :=
  ⟨fun _ mem => (by cases mem), .nil, fun _ mem => (by cases mem), fun _ mem => (by cases mem)⟩

theorem PassLawful.mono (lawful : PassLawful issued mark pass) (grown : mark ≤ mark')
    (later : ∀ delta ∈ issued, ∀ other ∈ added, delta.seq < other.seq) :
    PassLawful (issued ++ added) mark' pass where
  held := fun delta mem => List.mem_append_left _ (lawful.held delta mem)
  sorted := lawful.sorted
  gap := fun delta mem other mem' less => by
    rcases List.mem_append.mp mem' with mem' | mem'
    · exact (lawful.gap delta mem other mem' less).imp_left fun under => under.trans grown
    · have := later delta (lawful.held delta mem) other mem'
      omega
  owed := fun write mem => (lawful.owed write mem).imp_right
    fun ⟨seqs, ackedAt, is, under⟩ => ⟨seqs, ackedAt, is, fun seq mem => (under seq mem).trans grown⟩

theorem PassLawful.grown (lawful : PassLawful issued mark pass) (grown : mark ≤ mark') :
    PassLawful issued mark' pass := by
  have kept : PassLawful (issued ++ []) mark' pass := lawful.mono grown fun _ _ _ mem => by cases mem
  rwa [List.append_nil] at kept

theorem WindowLawful.counts {after : Ledger} {writes : List LedgerWrite}
    (lawful : WindowLawful ledger segmentId writes) (counts : ∀ stands,
      standing ledger segmentId = some stands →
        ∃ sealed, standing after segmentId = some ⟨stands.turns, sealed⟩) :
    WindowLawful after segmentId writes := by
  rcases lawful with silent | ⟨before, deltas, rest, turns, sealed, is, first, last, own, stands,
    ranged, named⟩
  · exact .inl silent
  · obtain ⟨sealed', stands'⟩ := counts _ stands
    exact .inr ⟨before, deltas, rest, turns, sealed', is, first, last, own, stands', ranged, named⟩

/-! ## The ledger's transactions -/

/-- A sealed segment stays where it stands. -/
def Stays (ledger after : Ledger) : Prop := ∀ segmentId turns,
  standing ledger segmentId = some ⟨turns, true⟩ → standing after segmentId = some ⟨turns, true⟩

/-- A row keeps its range while its segment's seal stays. -/
theorem span_stays (lives : Lives lane.ledger lane.issued) (stays : Stays lane.ledger ledger)
    {delta : BufferedDelta} (mem : delta ∈ lane.issued) :
    spanStart ledger delta = spanStart lane.ledger delta ∧
      spanEnd ledger delta = spanEnd lane.ledger delta := by
  have starts : spanStart ledger delta = spanStart lane.ledger delta := by
    rw [spanStart, spanStart]
    split
    · rfl
    · rename_i empty
      obtain ⟨turns, sealed, rows, is, -, kind, -⟩ := record_or_marker lives mem
      rcases kind with ⟨-, record, filled, -⟩ | ⟨rfl, -⟩
      · rw [empty] at filled
        cases filled
      · rw [stays delta.segmentId turns is, is]
  refine ⟨starts, ?_⟩
  rw [spanEnd, spanEnd, starts]

theorem stands_stays (lives : Lives lane.ledger lane.issued) (stays : Stays lane.ledger ledger)
    {delta : BufferedDelta} (mem : delta ∈ lane.issued) {row : SegmentRow}
    (stands : Stands setup lane.ledger delta row) : Stands setup ledger delta row := by
  obtain ⟨starts, ends⟩ := span_stays lives stays mem
  exact ⟨stands.own, stands.starts.trans starts.symm, stands.ends.trans ends.symm, stands.final,
    stands.content⟩

/-- A transaction that enqueues, over a hub that holds nothing of a segment it opens. -/
theorem lawful_put (lawful : Lawful setup lane) (grows : Grows lane.ledger added ledger)
    (known : ∀ row ∈ lane.hub.segments.rows, standing ledger row.segmentId ≠ none →
      standing lane.ledger row.segmentId ≠ none)
    (windows : ∀ segmentId, WindowLawful ledger segmentId (lane.windows segmentId)) :
    Lawful setup (lane.put ledger) := by
  have issued : (lane.put ledger).issued = lane.issued ++ added := by
    rw [Lane.put, grows.outbox, List.drop_left]
  have above : ∀ delta ∈ added, lane.ledger.lastSeq < delta.seq := by
    intro delta mem
    have within := grows.numbered.within mem
    omega
  have upto := grows.numbered.le
  have marked := lawful.marked
  refine ⟨?_, ?_, ?_, ?_, ?_, ?_, ?_, ?_, windows⟩
  · intro segmentId
    rw [issued, rowsOf_append]
    exact grows.tells segmentId _ (lawful.lives segmentId)
  · rw [issued]
    exact lawful.numbered.append grows.numbered
  · rw [issued]
    intro delta mem
    exact (List.mem_append.mp mem).elim (lawful.unacked delta) (grows.unacked delta)
  · rw [issued]
    intro delta mem pending
    rw [Lane.put, grows.outbox] at mem
    rcases List.mem_append.mp mem with mem | mem
    · exact List.mem_append_left _ (lawful.buffered delta mem pending)
    · exact List.mem_append_right _ mem
  · rw [issued]
    intro delta mem
    rw [Lane.put, grows.outbox]
    rcases List.mem_append.mp mem with mem | mem
    · exact (lawful.waiting delta mem).imp_left fun held => List.mem_append_left _ held
    · exact .inl (List.mem_append_right _ mem)
  · show lane.hub.mark setup.runnerId ≤ ledger.lastSeq
    omega
  · rw [issued]
    refine ⟨fun row mem opened => ?_, fun delta mem under => ?_⟩
    · obtain ⟨delta, held, under, stands⟩ := lawful.sound.known row mem (known row mem opened)
      exact ⟨delta, List.mem_append_left _ held, under, stands_stays lawful.lives grows.stays held stands⟩
    · rcases List.mem_append.mp mem with mem | mem
      · exact (lawful.sound.settled delta mem under).imp_right fun ⟨row, held, stands⟩ =>
          ⟨row, held, stands_stays lawful.lives grows.stays mem stands⟩
      · have more := above delta mem
        have under : delta.seq ≤ lane.hub.mark setup.runnerId := under
        omega
  · intro pass mem
    rw [issued]
    refine (lawful.passes pass mem).mono (le_refl _) fun delta mem other mem' => ?_
    have := lawful.seq_le mem
    have := above other mem'
    omega

/-- A transaction that moves no count and opens the one segment at most. -/
theorem lawful_counts (lawful : Lawful setup lane) (grows : ∃ added, Grows lane.ledger added ledger)
    (counts : Counts opened lane.ledger ledger)
    (fresh : ∀ segmentId, opened = some segmentId →
      segmentId ∉ lane.hub.segments.rows.map (·.segmentId)) :
    Lawful setup (lane.put ledger) := by
  obtain ⟨added, grows⟩ := grows
  refine lawful_put lawful grows (fun row mem known => ?_) fun segmentId =>
    (lawful.windows segmentId).counts fun stands is => counts.turns segmentId stands is
  exact (counts.known row.segmentId known).resolve_right fun own =>
    fresh row.segmentId own (List.mem_map_of_mem mem)

theorem lawful_ack (lawful : Lawful setup lane) {seqs : List ℤ} {ackedAt : Instant}
    (under : ∀ seq ∈ seqs, seq ≤ lane.hub.mark setup.runnerId) :
    Lawful setup (lane.put (lane.ledger.ackTranscriptOutboundBatch seqs ackedAt)) := by
  have issued : (lane.put (lane.ledger.ackTranscriptOutboundBatch seqs ackedAt)).issued =
      lane.issued := by
    rw [Lane.put, Ledger.ackTranscriptOutboundBatch, List.drop_eq_nil_of_le, List.append_nil]
    rw [List.length_map]
    exact List.length_filter_le _ _
  refine ⟨by rw [issued]; exact lawful.lives, by rw [issued]; exact lawful.numbered,
    by rw [issued]; exact lawful.unacked, ?_, ?_, lawful.marked, ?_,
    by rw [issued]; exact lawful.passes, lawful.windows⟩
  · rw [issued]
    intro delta mem pending
    obtain ⟨own, held, rfl⟩ := List.mem_map.mp mem
    have held := (List.mem_filter.mp held).1
    split at pending
    · cases pending
    · rename_i kept
      rw [if_neg kept]
      exact lawful.buffered own held pending
  · rw [issued]
    intro delta mem
    rcases lawful.waiting delta mem with held | decided
    · by_cases acked : delta.seq ∈ seqs
      · exact .inr (under delta.seq acked)
      · refine .inl (List.mem_map.mpr ⟨delta, List.mem_filter.mpr ⟨held, by simp [acked]⟩, ?_⟩)
        rw [if_neg fun both => acked both.1]
    · exact .inr decided
  · rw [issued]
    have stays : Stays lane.ledger (lane.ledger.ackTranscriptOutboundBatch seqs ackedAt) :=
      fun _ _ is => is
    refine ⟨fun row mem opened => ?_, fun delta mem under' => ?_⟩
    · obtain ⟨delta, held, under', stands⟩ := lawful.sound.known row mem opened
      exact ⟨delta, held, under', stands_stays lawful.lives stays held stands⟩
    · exact (lawful.sound.settled delta mem under').imp_right fun ⟨row, held, stands⟩ =>
        ⟨row, held, stands_stays lawful.lives stays mem stands⟩

theorem lawful_silent (lawful : Lawful setup lane) {write : LedgerWrite} (silent : write.Silent) :
    Lawful setup (lane.put (write.apply lane.ledger)) := by
  obtain ⟨grows, counts⟩ := @silent_apply lane.ledger write silent
  exact lawful_counts lawful ⟨[], grows⟩ counts fun _ none_ => by cases none_

end Blizzard.LaneKeeping
