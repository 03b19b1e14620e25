import Mathlib.Logic.Relation
import Blizzard.LaneRules

/-! # What the lane loses is marked

A segment's display is the worst of the reasons it warned of, each of them once;
and a record that left the buffer is held in full by the hub, or its segment is
marked with what the hub did to it. Over every run of the lane. -/
namespace Blizzard.LaneLosses
open HubTables TranscriptRecords TranscriptLedger TranscriptPump TranscriptIngest TranscriptLane
  SegmentLives LaneDecisions LaneIngests LaneKeeping LaneRules UniqueRows

variable {setup : Setup} {lane lane' : Lane} {ledger middle after : Ledger}
  {mark mark' : TruncationMark} {reason : TruncationReason} {segmentId : String}
  {delta : BufferedDelta} {pass : DrainPass} {place : ℕ}

/-! ## Marks -/

/-- One reason marked, at its own severity. -/
def marked (mark : TruncationMark) (reason : TruncationReason) : TruncationMark :=
  mark.updated (mark.apply reason reason.severity)

/-- Nothing is displayed, or the worst of the reasons warned of, each of them once. -/
def Latched (mark : TruncationMark) : Prop :=
  mark = {} ∨ ∃ worst ∈ mark.reasonsWarned, mark.currentReason = some worst ∧
    mark.currentSeverity = some worst.severity ∧ mark.reasonsWarned.Nodup ∧
    ∀ reason ∈ mark.reasonsWarned, reason.severity ≤ worst.severity

def Marks : TruncationMark → TruncationMark → Prop :=
  Relation.ReflTransGen fun mark mark' => ∃ reason, mark' = marked mark reason

theorem warned_marked (mark : TruncationMark) (reason : TruncationReason) :
    (marked mark reason).reasonsWarned =
      if reason ∈ mark.reasonsWarned then mark.reasonsWarned else mark.reasonsWarned ++ [reason] := by
  by_cases warned : reason ∈ mark.reasonsWarned <;>
    simp [marked, TruncationMark.updated, TruncationMark.apply, warned]

theorem mem_marked (mark : TruncationMark) (reason : TruncationReason) :
    reason ∈ (marked mark reason).reasonsWarned := by
  rw [warned_marked]
  split
  · assumption
  · exact List.mem_append_right _ List.mem_cons_self

theorem latched_marked (latched : Latched mark) (reason : TruncationReason) :
    Latched (marked mark reason) := by
  rcases latched with rfl | ⟨worst, warned, display, rank, once, upto⟩
  · exact .inr ⟨reason, List.mem_cons_self, rfl, rfl, List.nodup_singleton _,
      fun other mem => by rw [List.mem_singleton.mp mem]⟩
  · have once' : (marked mark reason).reasonsWarned.Nodup := by
      rw [warned_marked]
      split
      · exact once
      · rename_i fresh
        refine once.append (List.nodup_singleton _) fun other mem own => ?_
        exact fresh (List.mem_singleton.mp own ▸ mem)
    have mem' : ∀ other, other ∈ (marked mark reason).reasonsWarned →
        other ∈ mark.reasonsWarned ∨ other = reason := by
      intro other mem
      rw [warned_marked] at mem
      split at mem
      · exact .inl mem
      · rcases List.mem_append.mp mem with mem | mem
        · exact .inl mem
        · exact .inr (List.mem_singleton.mp mem)
    have stays : worst ∈ (marked mark reason).reasonsWarned := by
      rw [warned_marked]
      split
      · exact warned
      · exact List.mem_append_left _ warned
    by_cases same : worst = reason
    · subst same
      refine .inr ⟨worst, stays, ?_, ?_, once', fun other mem => ?_⟩
      · simp [marked, TruncationMark.updated, TruncationMark.apply, display]
      · simp [marked, TruncationMark.updated, TruncationMark.apply, display, rank]
      · exact (mem' other mem).elim (upto other) fun is => is ▸ le_refl _
    · by_cases worse : worst.severity ≤ reason.severity
      · refine .inr ⟨reason, mem_marked mark reason, ?_, ?_, once', fun other mem => ?_⟩
        · simp [marked, TruncationMark.updated, TruncationMark.apply, display, rank, same, worse]
        · simp [marked, TruncationMark.updated, TruncationMark.apply, display, rank, same, worse]
        · exact (mem' other mem).elim (fun held => (upto other held).trans worse)
            fun is => is ▸ le_refl _
      · refine .inr ⟨worst, stays, ?_, ?_, once', fun other mem => ?_⟩
        · simp [marked, TruncationMark.updated, TruncationMark.apply, display, rank, worse]
        · simp [marked, TruncationMark.updated, TruncationMark.apply, display, rank, worse]
        · exact (mem' other mem).elim (upto other) fun is => is ▸ le_of_not_ge worse

theorem Marks.warned (marks : Marks mark mark') : mark.reasonsWarned <+: mark'.reasonsWarned := by
  induction marks with
  | refl => exact List.prefix_refl _
  | tail _ step ih =>
    obtain ⟨reason, rfl⟩ := step
    rw [warned_marked]
    split
    · exact ih
    · exact ih.trans (List.prefix_append _ _)

theorem Marks.latched (marks : Marks mark mark') (latched : Latched mark) : Latched mark' := by
  induction marks with
  | refl => exact latched
  | tail _ step ih =>
    obtain ⟨reason, rfl⟩ := step
    exact latched_marked ih reason

/-! ## Marks through the ledger's transactions -/

/-- Every segment's mark is marked on, a new segment's from nothing. -/
structure Marking (ledger after : Ledger) : Prop where
  kept : ∀ segmentId segment, ledger.transcriptSegment segmentId = some segment →
    ∃ segment', after.transcriptSegment segmentId = some segment' ∧
      Marks segment.truncation segment'.truncation
  opened : ∀ segmentId segment', after.transcriptSegment segmentId = some segment' →
    ledger.transcriptSegment segmentId = none → Marks {} segment'.truncation

theorem Marking.of_eq (same : ∀ segmentId,
    after.transcriptSegment segmentId = ledger.transcriptSegment segmentId) :
    Marking ledger after :=
  ⟨fun segmentId segment found => ⟨segment, (same segmentId).trans found, .refl⟩,
    fun segmentId segment' found none_ => by
      rw [same segmentId, none_] at found
      cases found⟩

theorem Marking.trans (first : Marking ledger middle) (second : Marking middle after) :
    Marking ledger after where
  kept := fun segmentId segment found => by
    obtain ⟨segment', found', marks⟩ := first.kept segmentId segment found
    obtain ⟨segment'', found'', marks'⟩ := second.kept segmentId segment' found'
    exact ⟨segment'', found'', Relation.ReflTransGen.trans marks marks'⟩
  opened := fun segmentId segment'' found none_ => by
    cases between : middle.transcriptSegment segmentId with
    | none => exact second.opened segmentId segment'' found between
    | some segment' =>
      obtain ⟨own, found', marks⟩ := second.kept segmentId segment' between
      obtain rfl := Option.some.inj (found.symm.trans found')
      exact Relation.ReflTransGen.trans (first.opened segmentId segment' between none_) marks

theorem marking_amend {change : LedgerSegment → LedgerSegment}
    (keeps : ∀ segment, (change segment).segmentId = segment.segmentId)
    (marks : ∀ segment, Marks segment.truncation (change segment).truncation) :
    Marking ledger (ledger.amend segmentId change keeps) := by
  constructor
  · intro other segment found
    refine ⟨_, by rw [transcriptSegment_amend, found, Option.map_some], ?_⟩
    split
    · exact marks segment
    · exact .refl
  · intro other segment' found none_
    rw [transcriptSegment_amend, none_] at found
    cases found

theorem marking_apply (write : LedgerWrite) : Marking ledger (write.apply ledger) := by
  have same : Marking ledger ledger := .of_eq fun _ => rfl
  cases write with
  | ship deltas =>
    rw [LedgerWrite.apply, Ledger.recordTranscriptDeltas]
    split
    · set moved := ledger.amend deltas.segmentId _ _
      have first : Marking ledger moved := marking_amend _ fun _ => .refl
      refine first.trans (.of_eq fun segmentId => ?_)
      rw [Ledger.transcriptSegment, segments_foldl]
      rfl
    · exact same
  | advance own cursor normalizerVersion harnessVersion learned =>
    rw [LedgerWrite.apply, Ledger.advanceTranscriptCursor]
    split
    · exact marking_amend _ fun _ => .refl
    · exact same
  | truncated own reason =>
    rw [LedgerWrite.apply, Ledger.markTranscriptRecordTruncated]
    exact marking_amend _ fun _ => .single ⟨reason, rfl⟩
  | stop own reason =>
    rw [LedgerWrite.apply, Ledger.stopTranscriptSegmentShipping]
    exact marking_amend _ fun _ => .refl
  | sidechain own agentId =>
    rw [LedgerWrite.apply, Ledger.markSidechainDroppedWarned]
    exact marking_amend _ fun _ => .refl
  | acknowledge seqs ackedAt => exact .of_eq fun _ => rfl

theorem marking_finalize (segmentId : String) (at_ : Instant) :
    Marking ledger (ledger.finalizeTranscriptSegment segmentId at_) := by
  have same : Marking ledger ledger := .of_eq fun _ => rfl
  rw [Ledger.finalizeTranscriptSegment]
  split
  · exact same
  · split
    · set moved := ledger.amend segmentId _ _
      have first : Marking ledger moved := marking_amend _ fun _ => .refl
      exact first.trans (.of_eq fun _ => rfl)
    · exact same

theorem marking_open (segment : LedgerSegment) :
    Marking ledger (ledger.openTranscriptSegment segment) := by
  rw [Ledger.openTranscriptSegment]
  split
  · exact .of_eq fun _ => rfl
  · rename_i segments inserted
    obtain ⟨-, rows⟩ := UniqueTable.insert_some inserted
    constructor
    · intro other found is
      refine ⟨found, ?_, .refl⟩
      rw [Ledger.transcriptSegment] at is ⊢
      rw [rows, List.find?_append, is, Option.some_or]
    · intro other segment' found none_
      rw [Ledger.transcriptSegment] at found none_
      rw [rows, List.find?_append, none_, Option.none_or] at found
      rw [List.mem_singleton.mp (List.mem_of_find?_eq_some found)]
      exact .refl

theorem marking_next (lane : Lane) (label : Label) :
    Marking lane.ledger (next setup lane label).ledger := by
  have same : Marking lane.ledger lane.ledger := .of_eq fun _ => rfl
  have minted : ∀ {segmentId : String} {ledger : Ledger}, Marking lane.ledger ledger →
      Marking lane.ledger (lane.mint segmentId ledger).ledger := by
    intro segmentId ledger marking
    rw [Lane.mint]
    split
    · exact same
    · exact marking
  cases label with
  | spawn segment =>
    refine minted ?_
    rw [Ledger.openSpawnSegment]
    split
    · exact marking_open _
    · split
      · exact same
      · exact (marking_finalize _ _).trans (marking_open _)
  | open_ segment => exact minted (marking_open segment)
  | finalize segmentId at_ => exact marking_finalize segmentId at_
  | closeLease leaseId at_ =>
    have all : ∀ (ids : List String) (ledger : Ledger), Marking ledger (ids.foldl
        (fun ledger segmentId => ledger.finalizeTranscriptSegment segmentId at_) ledger) := by
      intro ids
      induction ids with
      | nil => exact fun ledger => .of_eq fun _ => rfl
      | cons segmentId ids ih => exact fun ledger => (marking_finalize segmentId at_).trans (ih _)
    exact all _ lane.ledger
  | truncate segmentId reason => exact marking_apply (.truncated segmentId reason)
  | pump segmentId chunkShippedBytes outstandingBytes read now =>
    rw [next, Lane.pump]
    split <;> exact same
  | window segmentId =>
    rw [next, Lane.writeWindow]
    split
    · exact same
    · exact marking_apply _
  | flush limit => exact same
  | push place push =>
    rw [next, Lane.push]
    split
    · split
      · exact same
      · split
        · exact same
        · split
          · exact same
          · dsimp only
            split <;> exact same
    · exact same
  | write place =>
    rw [next, Lane.writePass]
    split
    · exact marking_apply _
    · exact same
  | abandon place => exact same
  | others call =>
    rw [next, Lane.others]
    split <;> exact same
  | crash => exact same

/-! ## Every record accounted for -/

/-- The hub holds the buffered row in full. -/
def Kept (setup : Setup) (lane : Lane) (delta : BufferedDelta) : Prop :=
  ∃ row ∈ lane.hub.segments.rows, Stands setup lane.ledger delta row ∧ row.rejected = false

/-- The segment is marked with a cap or a refusal of the hub's. -/
def LossMarked (ledger : Ledger) (segmentId : String) : Prop :=
  ∃ segment, ledger.transcriptSegment segmentId = some segment ∧
    ∃ reason ∈ segment.truncation.reasonsWarned, reason = .hubCapped ∨ reason = .hubRefused

def Accounted (setup : Setup) (lane : Lane) (delta : BufferedDelta) : Prop :=
  Kept setup lane delta ∨ LossMarked lane.ledger delta.segmentId

/-- Whatever a pass is about to ack is accounted for, or its mark comes before the ack. -/
def PassAccounted (setup : Setup) (lane : Lane) (pass : DrainPass) : Prop :=
  ∀ before seqs ackedAt rest, pass.owed = before ++ .acknowledge seqs ackedAt :: rest →
    ∀ delta ∈ lane.issued, delta.seq ∈ seqs → Accounted setup lane delta ∨
      ∃ reason, (reason = .hubCapped ∨ reason = .hubRefused) ∧
        .truncated delta.segmentId reason ∈ before

structure Losses (setup : Setup) (lane : Lane) : Prop where
  gone : ∀ delta ∈ lane.issued, delta ∈ lane.ledger.outbox ∨ Accounted setup lane delta
  passes : ∀ pass ∈ lane.passes, PassAccounted setup lane pass

theorem LossMarked.marking (marking : Marking ledger after) (loss : LossMarked ledger segmentId) :
    LossMarked after segmentId := by
  obtain ⟨segment, found, reason, warned, which⟩ := loss
  obtain ⟨segment', found', marks⟩ := marking.kept segmentId segment found
  exact ⟨segment', found', reason, marks.warned.subset warned, which⟩

/-- What was accounted for stays so. -/
theorem Accounted.later (lawful : Lawful setup lane) (later : Later setup lane lane')
    (marking : Marking lane.ledger lane'.ledger) (mem : delta ∈ lane.issued)
    (accounted : Accounted setup lane delta) : Accounted setup lane' delta := by
  rcases accounted with ⟨row, held, stands, kept⟩ | loss
  · refine .inl ⟨row, later.rows row held ?_, stands_stays lawful.lives later.stays mem stands, kept⟩
    rw [stands.own]
    exact opened_of_mem lawful.lives mem
  · exact .inr (loss.marking marking)

/-- A row buffered since is not among those a pass acks. -/
theorem PassAccounted.later (lawful : Lawful setup lane) (later : Later setup lane lane')
    (marking : Marking lane.ledger lane'.ledger)
    (added : ∀ delta ∈ lane'.issued, delta ∈ lane.issued ∨ lane.ledger.lastSeq < delta.seq)
    (own : PassLawful lane.issued (lane.hub.mark setup.runnerId) pass)
    (accounted : PassAccounted setup lane pass) : PassAccounted setup lane' pass := by
  intro before seqs ackedAt rest is delta mem acked
  rcases added delta mem with held | above
  · exact (accounted before seqs ackedAt rest is delta held acked).imp_left
      (Accounted.later lawful later marking held)
  · have owed := own.owed (.acknowledge seqs ackedAt) (is ▸ by simp)
    rcases owed with silent | ⟨seqs', ackedAt', same, under⟩
    · cases silent
    · cases same
      have := under delta.seq acked
      have := lawful.marked
      omega

/-- A step that takes no row out of the buffer. -/
theorem losses_later (lawful : Lawful setup lane) (later : Later setup lane lane')
    (marking : Marking lane.ledger lane'.ledger) (losses : Losses setup lane)
    (outbox : lane.ledger.outbox ⊆ lane'.ledger.outbox)
    (added : ∀ delta ∈ lane'.issued, delta ∈ lane.issued ∨
      (lane.ledger.lastSeq < delta.seq ∧ delta ∈ lane'.ledger.outbox))
    (passes : ∀ pass ∈ lane'.passes, pass ∈ lane.passes ∨ PassAccounted setup lane' pass) :
    Losses setup lane' where
  gone := fun delta mem => by
    rcases added delta mem with held | ⟨-, here⟩
    · exact (losses.gone delta held).imp (fun here => outbox here)
        (Accounted.later lawful later marking held)
    · exact .inl here
  passes := fun pass mem => (passes pass mem).elim
    (fun held => (losses.passes pass held).later lawful later marking
      (fun delta mem => (added delta mem).imp_right (·.1)) (lawful.passes pass held)) id

theorem losses_grows (lawful : Lawful setup lane) (losses : Losses setup lane)
    (grows : ∃ added, Grows lane.ledger added ledger) (marking : Marking lane.ledger ledger) :
    Losses setup (lane.put ledger) := by
  have later : Later setup lane (lane.put ledger) := later_grows grows
  obtain ⟨added, grows⟩ := grows
  refine losses_later lawful later marking losses ?_ ?_ fun pass mem => .inl mem
  · show lane.ledger.outbox ⊆ ledger.outbox
    rw [grows.outbox]
    exact List.subset_append_left _ _
  · intro delta mem
    rw [Lane.put, grows.outbox, List.drop_left] at mem
    rcases List.mem_append.mp mem with mem | mem
    · exact .inl mem
    · refine .inr ⟨?_, ?_⟩
      · have within := grows.numbered.within mem
        omega
      · rw [Lane.put, grows.outbox]
        exact List.mem_append_right _ mem

theorem losses_setPass (losses : Losses setup lane) (own : PassAccounted setup lane pass) :
    Losses setup (lane.setPass place pass) := by
  refine ⟨losses.gone, fun other mem => ?_⟩
  rcases List.mem_or_eq_of_mem_set mem with mem | rfl
  · exact losses.passes other mem
  · exact own

theorem idle_accounted (batches : List (List BufferedDelta)) :
    PassAccounted setup lane ⟨batches, []⟩ := by
  intro before seqs ackedAt rest is
  cases before <;> cases is

theorem losses_drop (losses : Losses setup lane) : Losses setup (lane.drop place) :=
  losses_setPass losses (idle_accounted [])

/-- Where a list's last item is met first. -/
theorem met_last {W : Type*} {writes before rest : List W} {last write : W}
    (is : writes ++ [last] = before ++ write :: rest) (fresh : write ∉ writes) :
    before = writes ∧ write = last := by
  induction writes generalizing before with
  | nil =>
    cases before with
    | nil => exact ⟨rfl, (List.cons.inj is).1.symm⟩
    | cons first before => simp at is
  | cons own writes ih =>
    cases before with
    | nil =>
      obtain ⟨rfl, -⟩ := List.cons.inj is
      exact absurd List.mem_cons_self fresh
    | cons first before =>
      obtain ⟨rfl, rest_⟩ := List.cons.inj is
      obtain ⟨rfl, same⟩ := ih rest_ fun mem => fresh (List.mem_cons_of_mem _ mem)
      exact ⟨rfl, same⟩

/-- An answered batch: what the hub did not take is marked before the ack. -/
theorem answered_accounted {batch : List BufferedDelta} {hub' : TranscriptHub}
    {result : TranscriptIngestResult} {refused : List ℤ} {ackedAt : Instant}
    (distinct : ∀ one ∈ lane.issued, ∀ other ∈ lane.issued, one.seq = other.seq → one = other)
    (held : ∀ delta ∈ batch, delta ∈ lane.issued)
    (decision : PushDecided setup lane.ledger lane.issued refused lane.hub batch hub' result)
    (batches : List (List BufferedDelta)) (more : List ℤ) :
    PassAccounted setup { lane with hub := hub', refused := more }
      ⟨batches, answeredWrites batch result ackedAt⟩ := by
  intro before seqs at_ rest is delta mem acked
  obtain ⟨rfl, last⟩ := met_last is fun mem => by
    obtain ⟨delta, -, mem⟩ := List.mem_flatMap.mp mem
    rcases List.mem_append.mp mem with mem | mem <;> split at mem <;> simp at mem
  cases last
  obtain ⟨other, own, same⟩ := List.mem_map.mp acked
  obtain rfl := distinct other (held other own) delta mem same
  have answered := decision.answered other own
  simp only [List.mem_append] at answered
  rcases answered with ((applied | already) | capped) | refused
  · exact .inl (.inl (decision.kept other own (List.mem_append_left _ applied)))
  · exact .inl (.inl (decision.kept other own (List.mem_append_right _ already)))
  · refine .inr ⟨.hubCapped, .inl rfl, List.mem_flatMap.mpr ⟨other, own, ?_⟩⟩
    simp [capped]
  · refine .inr ⟨.hubRefused, .inr rfl, List.mem_flatMap.mpr ⟨other, own, ?_⟩⟩
    simp [refused]

/-! ## Every step -/

theorem losses_push (lawful : Lawful setup lane) (losses : Losses setup lane) (push : Push) :
    Losses setup (lane.push setup place push) := by
  rw [Lane.push]
  split
  · rename_i batch rest found
    split
    · exact losses_drop losses
    · rename_i records rendered
      split
      · exact losses_drop losses
      · split
        · exact losses_drop losses
        · rename_i hub' result done
          have decision := push_decides lawful found rendered done
          have decided : Losses setup
              { lane with hub := hub', refused := lane.refused ++ result.refused } :=
            losses_later lawful ⟨fun row mem _ => decision.rows.subset mem, decision.grows,
              List.prefix_refl _, fun _ opened => opened, fun _ _ is => is⟩ (.of_eq fun _ => rfl)
              losses (fun _ mem => mem) (fun _ mem => .inl mem) fun _ mem => .inl mem
          dsimp only
          split
          · exact losses_setPass decided (answered_accounted lawful.distinct
              (pushed_rows lawful found).1 decision rest _)
          · exact losses_drop decided
  · exact losses

/-- A mark written is a mark borne. -/
theorem lossMarked_apply (opened : standing ledger segmentId ≠ none)
    (which : reason = .hubCapped ∨ reason = .hubRefused) :
    LossMarked (LedgerWrite.apply ledger (.truncated segmentId reason)) segmentId := by
  rw [standing, ne_eq, Option.map_eq_none_iff, ← ne_eq, Option.ne_none_iff_exists'] at opened
  obtain ⟨segment, found⟩ := opened
  refine ⟨{ segment with truncation := marked segment.truncation reason }, ?_, reason,
    mem_marked segment.truncation reason, which⟩
  rw [LedgerWrite.apply, Ledger.markTranscriptRecordTruncated, transcriptSegment_amend, found,
    Option.map_some, if_pos (transcriptSegment_id found)]
  rfl

/-- What a pass's write leaves it: the mark in hand is borne once written. -/
theorem written_accounted (lawful : Lawful setup lane) {batches : List (List BufferedDelta)}
    {write : LedgerWrite} {owed : List LedgerWrite}
    (accounted : PassAccounted setup (lane.put (write.apply lane.ledger)) ⟨batches, write :: owed⟩)
    (known : ∀ delta ∈ (lane.put (write.apply lane.ledger)).issued,
      delta ∈ lane.issued ∨ ∀ seqs ackedAt, .acknowledge seqs ackedAt ∈ owed → delta.seq ∉ seqs) :
    PassAccounted setup (lane.put (write.apply lane.ledger)) ⟨batches, owed⟩ := by
  rintro before seqs ackedAt rest rfl delta mem acked
  rcases accounted (write :: before) seqs ackedAt rest rfl delta mem acked with
    done | ⟨reason, which, mem'⟩
  · exact .inl done
  · rcases List.mem_cons.mp mem' with rfl | mem'
    · have held := (known delta mem).resolve_right fun apart => apart seqs ackedAt (by simp) acked
      exact .inl (.inr (lossMarked_apply (opened_of_mem lawful.lives held) which))
    · exact .inr ⟨reason, which, mem'⟩

theorem losses_writePass (lawful : Lawful setup lane) (losses : Losses setup lane) :
    Losses setup (lane.writePass place) := by
  rw [Lane.writePass]
  split
  · rename_i batches write owed found
    have own := lawful.passes _ (List.mem_of_getElem? found)
    have accounted := losses.passes _ (List.mem_of_getElem? found)
    have later : Later setup lane (lane.put (write.apply lane.ledger)) := later_write write
    have marking := @marking_apply lane.ledger write
    have wrote : Losses setup (lane.put (write.apply lane.ledger)) ∧
        ∀ delta ∈ (lane.put (write.apply lane.ledger)).issued, delta ∈ lane.issued := by
      rcases own.owed write List.mem_cons_self with silent | ⟨seqs, ackedAt, rfl, under⟩
      · have grows := (@silent_apply lane.ledger write silent).1
        refine ⟨losses_grows lawful losses ⟨[], grows⟩ marking, fun delta mem => ?_⟩
        rw [Lane.put, grows.outbox, List.append_nil, List.drop_length, List.append_nil] at mem
        exact mem
      · have issued : (lane.put (LedgerWrite.apply lane.ledger (.acknowledge seqs ackedAt))).issued =
            lane.issued := by
          rw [Lane.put, LedgerWrite.apply, Ledger.ackTranscriptOutboundBatch,
            List.drop_eq_nil_of_le, List.append_nil]
          rw [List.length_map]
          exact List.length_filter_le _ _
        refine ⟨⟨fun delta mem => ?_, fun pass mem => ?_⟩, fun delta mem => issued ▸ mem⟩
        · rw [issued] at mem
          rcases losses.gone delta mem with here | done
          · by_cases acked : delta.seq ∈ seqs
            · refine .inr (Accounted.later lawful later marking mem ?_)
              refine (accounted [] seqs ackedAt owed rfl delta mem acked).resolve_right ?_
              rintro ⟨_, _, none_⟩
              cases none_
            · refine .inl (List.mem_map.mpr ⟨delta, List.mem_filter.mpr ⟨here, by simp [acked]⟩, ?_⟩)
              rw [if_neg fun both => acked both.1]
          · exact .inr (Accounted.later lawful later marking mem done)
        · exact (losses.passes pass mem).later lawful later marking
            (fun delta mem => .inl (issued ▸ mem)) (lawful.passes pass mem)
    refine losses_setPass wrote.1 (written_accounted lawful ?_ fun delta mem =>
      .inl (wrote.2 delta mem))
    exact accounted.later lawful later marking (fun delta mem => .inl (wrote.2 delta mem)) own
  · exact losses

theorem losses_next (lawful : Lawful setup lane) (losses : Losses setup lane) (label : Label) :
    Losses setup (next setup lane label) := by
  have marking := @marking_next setup lane label
  have minted : ∀ {segmentId : String} {ledger : Ledger},
      (∃ added, Grows lane.ledger added ledger) →
      Marking lane.ledger (lane.mint segmentId ledger).ledger →
      Losses setup (lane.mint segmentId ledger) := by
    intro segmentId ledger grows marking
    rw [Lane.mint] at marking ⊢
    split at marking
    · rename_i taken
      rw [if_pos taken]
      exact losses
    · rename_i fresh
      rw [if_neg fresh]
      exact losses_grows lawful losses grows marking
  cases label with
  | spawn segment => exact minted (openSpawn_grows segment).1 marking
  | open_ segment => exact minted ⟨[], (open_grows segment).1⟩ marking
  | finalize segmentId at_ => exact losses_grows lawful losses (finalize_grows segmentId at_).1 marking
  | closeLease leaseId at_ => exact losses_grows lawful losses (closeLease_grows leaseId at_).1 marking
  | truncate segmentId reason =>
    have grows := (@silent_apply lane.ledger (.truncated segmentId reason) trivial).1
    exact losses_grows lawful losses ⟨[], grows⟩ marking
  | pump segmentId chunkShippedBytes outstandingBytes read now =>
    rw [next, Lane.pump]
    split
    · exact { losses with }
    · exact losses
  | window segmentId =>
    rw [next, Lane.writeWindow]
    split
    · exact losses
    · rename_i write rest held
      have grows := window_grows (held ▸ lawful.windows segmentId)
      exact { losses_grows lawful losses grows (marking_apply write) with }
  | flush limit =>
    refine ⟨losses.gone, fun pass mem => ?_⟩
    rcases List.mem_append.mp mem with mem | mem
    · exact losses.passes pass mem
    · rw [List.mem_singleton.mp mem]
      exact idle_accounted _
  | push place push => exact losses_push lawful losses push
  | write place => exact losses_writePass lawful losses
  | abandon place => exact losses_drop losses
  | others call =>
    exact losses_later lawful (later_next lawful (.others call)) marking losses
      (by rw [next, Lane.others]; split <;> exact fun _ mem => mem)
      (by rw [next, Lane.others]; split <;> exact fun _ mem => .inl mem)
      (by rw [next, Lane.others]; split <;> exact fun _ mem => .inl mem)
  | crash =>
    refine ⟨losses.gone, fun pass mem => ?_⟩
    obtain ⟨-, -, rfl⟩ := List.mem_map.mp mem
    exact idle_accounted _

/-! ## Runs -/

theorem losses_ran (setup : Setup) (labels : List Label) : Losses setup (ran setup labels) := by
  induction labels using List.reverseRecOn with
  | nil => exact ⟨fun _ mem => (by cases mem), fun _ mem => (by cases mem)⟩
  | append_singleton labels label ih =>
    rw [ran_append]
    exact losses_next (lawful_ran setup labels) ih label

theorem marking_ran (before rest : List Label) :
    Marking (ran setup before).ledger (ran setup (before ++ rest)).ledger := by
  induction rest using List.reverseRecOn with
  | nil =>
    rw [List.append_nil]
    exact .of_eq fun _ => rfl
  | append_singleton rest label ih =>
    rw [← List.append_assoc, ran_append setup (before ++ rest)]
    exact ih.trans (marking_next _ label)

/-- What holds of the losses at a run's end. -/
structure LossRules (setup : Setup) (labels : List Label) : Prop where
  /-- A record no longer pending is held in full by the hub, or its segment bears a mark. -/
  accounted : ∀ delta ∈ (ran setup labels).issued,
    delta ∉ (ran setup labels).ledger.pendingTranscriptOutbound none →
      Accounted setup (ran setup labels) delta
  /-- A mark makes its segment read as truncated, whatever is marked later. -/
  truncated : ∀ segment ∈ (ran setup labels).ledger.segments.rows,
    segment.truncation.reasonsWarned ≠ [] → segment.truncated = true
  /-- The display is the worst of the reasons warned of, each of them once. -/
  latched : ∀ segment ∈ (ran setup labels).ledger.segments.rows, Latched segment.truncation
  /-- A reason warned of stays so. -/
  warned : ∀ before rest segmentId segment, labels = before ++ rest →
    (ran setup before).ledger.transcriptSegment segmentId = some segment →
      ∃ segment', (ran setup labels).ledger.transcriptSegment segmentId = some segment' ∧
        segment.truncation.reasonsWarned <+: segment'.truncation.reasonsWarned

theorem latched_ran (setup : Setup) (labels : List Label) {segment : LedgerSegment}
    (mem : segment ∈ (ran setup labels).ledger.segments.rows) : Latched segment.truncation := by
  have marking : Marking (ran setup []).ledger (ran setup labels).ledger := marking_ran [] labels
  have found := transcriptSegment_of_mem mem
  exact (marking.opened segment.segmentId segment found rfl).latched (.inl rfl)

/-- Whatever a run takes, nothing the lane lost goes unmarked. -/
theorem losses_marked (setup : Setup) (labels : List Label) : LossRules setup labels := by
  have lawful := lawful_ran setup labels
  have losses := losses_ran setup labels
  refine ⟨fun delta mem gone => ?_, fun segment mem warned => ?_,
    fun segment mem => latched_ran setup labels mem, ?_⟩
  · refine (losses.gone delta mem).resolve_left fun held => gone ?_
    refine (List.mem_insertionSort _).mpr (List.mem_filter.mpr ⟨held, ?_⟩)
    rw [lawful.unacked delta mem, Option.isNone_none]
  · rcases latched_ran setup labels mem with none_ | ⟨worst, -, display, -⟩
    · rw [none_] at warned
      exact absurd rfl warned
    · rw [LedgerSegment.truncated, display]
      rfl
  · rintro before rest segmentId segment rfl found
    obtain ⟨segment', found', marks⟩ := (@marking_ran setup before rest).kept segmentId segment found
    exact ⟨segment', found', marks.warned⟩

end Blizzard.LaneLosses
