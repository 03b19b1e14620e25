import Blizzard.LaneRules

/-! # The ranges of a segment, end to end

What the hub decided of a segment covers its turns from zero on without a gap,
up to the count once nothing of it is pending; its marker comes last and covers
none. Over every run of the lane. -/
namespace Blizzard.LaneRanges
open HubTables EpochFence TranscriptRecords TranscriptLedger TranscriptPump TranscriptIngest
  TranscriptLane SegmentLives LaneDecisions LaneIngests LaneKeeping LaneRules UniqueRows
  ConsecutiveRanges

variable {setup : Setup} {lane : Lane} {segment : LedgerSegment} {rows issued : List BufferedDelta}
  {delta : BufferedDelta}

/-- The records of a segment at or under the hub's mark. -/
def decidedRecords (setup : Setup) (lane : Lane) (segmentId : String) : List BufferedDelta :=
  (rowsOf segmentId lane.issued).filter fun delta =>
    delta.payload.isSome && decide (delta.seq ≤ lane.hub.mark setup.runnerId)

/-- In rows in seq order, those up to a seq come first. -/
theorem upto_first (sorted : rows.Pairwise fun one other => one.seq < other.seq) (mark : ℤ) :
    ∃ after, rows = rows.filter (fun delta => decide (delta.seq ≤ mark)) ++ after := by
  induction rows with
  | nil => exact ⟨[], rfl⟩
  | cons delta rest ih =>
    obtain ⟨first, sorted⟩ := List.pairwise_cons.mp sorted
    by_cases under : delta.seq ≤ mark
    · obtain ⟨after, is⟩ := ih sorted
      refine ⟨after, ?_⟩
      rw [List.filter_cons_of_pos (by simpa using under), List.cons_append, ← is]
    · refine ⟨delta :: rest, ?_⟩
      have none_ : (delta :: rest).filter (fun delta => decide (delta.seq ≤ mark)) = [] := by
        refine List.filter_eq_nil_iff.mpr fun other mem under' => ?_
        have under' := of_decide_eq_true under'
        rcases List.mem_cons.mp mem with rfl | mem
        · exact under under'
        · have := first other mem
          omega
      rw [none_, List.nil_append]

theorem standing_of_mem (mem : segment ∈ lane.ledger.segments.rows) :
    standing lane.ledger segment.segmentId =
      some ⟨segment.shippedTurns, segment.finalizedAt.isSome⟩ := by
  rw [standing, transcriptSegment_of_mem mem]
  rfl

/-- The rows ever buffered of a segment: its records up to the count, its marker last. -/
theorem shipped_rows (lawful : Lawful setup lane) (mem : segment ∈ lane.ledger.segments.rows) :
    ∃ rows, Shipped segment.segmentId 0 segment.shippedTurns rows ∧
      (segment.finalizedAt = none → rowsOf segment.segmentId lane.issued = rows) ∧
      (segment.finalizedAt ≠ none → ∃ marker, marker.payload = none ∧
        rowsOf segment.segmentId lane.issued = rows ++ [marker]) := by
  have told := lawful.lives segment.segmentId
  rw [standing_of_mem mem] at told
  cases sealed : segment.finalizedAt with
  | none =>
    rw [sealed, Option.isSome_none] at told
    generalize rowsOf segment.segmentId lane.issued = rows at told
    cases told with
    | opened shipped => exact ⟨rows, shipped, fun _ => rfl, fun some_ => absurd rfl some_⟩
  | some at_ =>
    rw [sealed, Option.isSome_some] at told
    generalize rowsOf segment.segmentId lane.issued = rows at told
    cases told with
    | sealed shipped own empty =>
      exact ⟨_, shipped, fun none_ => (by cases none_), fun _ => ⟨_, empty, rfl⟩⟩

/-- What is decided of a segment: its turns from zero on, all of them where none is pending. -/
theorem decided_ranges (lawful : Lawful setup lane) (mem : segment ∈ lane.ledger.segments.rows) :
    ∃ upto : ℤ, upto ≤ segment.shippedTurns ∧
      Shipped segment.segmentId 0 upto (decidedRecords setup lane segment.segmentId) ∧
      ((∀ delta ∈ lane.ledger.outbox, delta.ackedAt = none →
        delta.segmentId ≠ segment.segmentId) → upto = segment.shippedTurns) := by
  obtain ⟨rows, shipped, open_, sealed⟩ := shipped_rows lawful mem
  have filled : ∀ delta ∈ rows, delta.payload.isSome = true := by
    intro delta mem
    obtain ⟨-, record, is, -⟩ := shipped.named delta mem
    rw [is, Option.isSome_some]
  have own : ∀ delta ∈ rows, delta ∈ rowsOf segment.segmentId lane.issued := by
    intro delta mem
    by_cases open' : segment.finalizedAt = none
    · rw [open_ open']
      exact mem
    · obtain ⟨marker, -, is⟩ := sealed open'
      rw [is]
      exact List.mem_append_left _ mem
  have records : decidedRecords setup lane segment.segmentId =
      rows.filter fun delta => decide (delta.seq ≤ lane.hub.mark setup.runnerId) := by
    have same : (rows.filter fun delta =>
        delta.payload.isSome && decide (delta.seq ≤ lane.hub.mark setup.runnerId)) =
        rows.filter fun delta => decide (delta.seq ≤ lane.hub.mark setup.runnerId) :=
      List.filter_congr fun delta mem => by rw [filled delta mem, Bool.true_and]
    rw [decidedRecords]
    by_cases open' : segment.finalizedAt = none
    · rw [open_ open', same]
    · obtain ⟨marker, empty, is⟩ := sealed open'
      rw [is, List.filter_append, same]
      simp [empty]
  have sorted : rows.Pairwise fun one other => one.seq < other.seq := by
    have all := (lawful.numbered.apart).sublist
      (List.filter_sublist (p := fun delta => decide (delta.segmentId = segment.segmentId)))
    by_cases open' : segment.finalizedAt = none
    · exact open_ open' ▸ all
    · obtain ⟨marker, -, is⟩ := sealed open'
      have all : (rowsOf segment.segmentId lane.issued).Pairwise _ := all
      rw [is] at all
      exact (List.pairwise_append.mp all).1
  rw [records]
  by_cases done : ∀ delta ∈ rows, delta.seq ≤ lane.hub.mark setup.runnerId
  · refine ⟨segment.shippedTurns, le_refl _, ?_, fun _ => rfl⟩
    rw [List.filter_eq_self.mpr fun delta mem => decide_eq_true (done delta mem)]
    exact shipped
  · obtain ⟨after, is⟩ := upto_first sorted (lane.hub.mark setup.runnerId)
    have ranged := shipped.ranged
    rw [is] at ranged
    obtain ⟨upto, before, rest⟩ := ranged.split
    refine ⟨upto, rest.le, ⟨before, fun delta mem => ?_⟩, fun quiet => absurd ?_ done⟩
    · exact shipped.named delta (List.mem_filter.mp mem).1
    · intro delta mem
      have issued := (List.mem_filter.mp (own delta mem)).1
      refine (lawful.waiting delta issued).resolve_left fun held => ?_
      exact quiet delta held (lawful.unacked delta issued) (shipped.named delta mem).1

/-- What holds of a run's end and of what it passed on the way. -/
structure DeliveryRules (setup : Setup) (labels : List Label) : Prop where
  /-- A segment's records, as buffered, cover its turns from zero up to its count; one marker
  follows once it is sealed. -/
  shipped : ∀ segment ∈ (ran setup labels).ledger.segments.rows, ∃ rows,
    Shipped segment.segmentId 0 segment.shippedTurns rows ∧
    (segment.finalizedAt = none →
      rowsOf segment.segmentId (ran setup labels).issued = rows) ∧
    (segment.finalizedAt ≠ none → ∃ marker, marker.payload = none ∧
      rowsOf segment.segmentId (ran setup labels).issued = rows ++ [marker])
  /-- Those the hub decided cover them from zero on, and all of them once none is pending. -/
  decided : ∀ segment ∈ (ran setup labels).ledger.segments.rows, ∃ upto : ℤ,
    upto ≤ segment.shippedTurns ∧
    Shipped segment.segmentId 0 upto (decidedRecords setup (ran setup labels) segment.segmentId) ∧
    ((∀ delta ∈ (ran setup labels).ledger.outbox, delta.ackedAt = none →
      delta.segmentId ≠ segment.segmentId) → upto = segment.shippedTurns)
  /-- The hub holds nothing else of a segment, and of what it decided all it did not refuse. -/
  held : ∀ segment ∈ (ran setup labels).ledger.segments.rows,
    ∀ row ∈ (ran setup labels).hub.segments.rows, row.segmentId = segment.segmentId →
      ∃ delta ∈ (ran setup labels).issued,
        delta.seq ≤ (ran setup labels).hub.mark setup.runnerId ∧
        Stands setup (ran setup labels).ledger delta row
  settled : ∀ delta ∈ (ran setup labels).issued,
    delta.seq ≤ (ran setup labels).hub.mark setup.runnerId →
      delta.seq ∈ (ran setup labels).refused ∨ ∃ row ∈ (ran setup labels).hub.segments.rows,
        Stands setup (ran setup labels).ledger delta row
  /-- What left the buffer, or was acked in it, was decided. -/
  acked : ∀ delta ∈ (ran setup labels).issued,
    delta ∉ (ran setup labels).ledger.pendingTranscriptOutbound none →
      delta.seq ≤ (ran setup labels).hub.mark setup.runnerId
  /-- Nothing the hub holds of the lane's segments is rewritten, and its mark never moves back. -/
  keeps : ∀ before after, labels = before ++ after →
    Later setup (ran setup before) (ran setup labels)
  /-- A push's answer names every record of its batch; one decided before, and not refused, writes
  nothing at the hub. -/
  pushes : ∀ before place push after batch rest records hub' result,
    labels = before ++ .push place push :: after →
    (ran setup before).passes[place]? = some ⟨batch :: rest, []⟩ →
    renderBatch setup (ran setup before).ledger batch = some records →
    ingest setup.caps (ran setup before).hub
      { runnerId := setup.runnerId, records, at_ := push.at_, owners := push.owners,
        retired := push.retired } = (hub', some result) →
    (∀ delta ∈ batch, delta.seq ∈
      result.applied ++ result.alreadyApplied ++ result.capped ++ result.refused) ∧
    ((∀ delta ∈ batch, delta.seq ≤ (ran setup before).hub.mark setup.runnerId ∧
      delta.seq ∉ (ran setup before).refused) →
        hub'.segments.rows = (ran setup before).hub.segments.rows)

end Blizzard.LaneRanges
