import Blizzard.LaneKeeping

/-! # The transcript lane over every run

Each step keeps the lane lawful and takes back nothing the hub holds of it; what
follows for the ranges of every segment, the acks and the replays of any run. -/
namespace Blizzard.LaneRules
open HubTables EpochFence TranscriptRecords TranscriptLedger TranscriptPump TranscriptIngest
  TranscriptLane SegmentLives LaneDecisions LaneIngests LaneKeeping ConsecutiveRanges

variable {setup : Setup} {lane : Lane} {ledger : Ledger} {segmentId : String} {place : ℕ}
  {pass : DrainPass} {batch : List BufferedDelta} {rest : List (List BufferedDelta)}

/-! ## Passes -/

theorem lawful_setPass (lawful : Lawful setup lane)
    (own : PassLawful lane.issued (lane.hub.mark setup.runnerId) pass) :
    Lawful setup (lane.setPass place pass) := by
  refine { lawful with passes := fun other mem => ?_ }
  rcases List.mem_or_eq_of_mem_set mem with mem | rfl
  · exact lawful.passes other mem
  · exact own

theorem lawful_drop (lawful : Lawful setup lane) : Lawful setup (lane.drop place) :=
  lawful_setPass lawful idle_lawful

theorem batches_flatten (cap : ℤ) (batch pending : List BufferedDelta) (batchBytes : ℕ) :
    (batchesFrom cap batch batchBytes pending).flatten = batch ++ pending := by
  induction pending generalizing batch batchBytes with
  | nil =>
    rw [batchesFrom]
    cases batch <;> simp
  | cons delta pending ih =>
    rw [batchesFrom]
    split
    · rw [List.flatten_cons, ih]
      rfl
    · rw [ih, List.append_assoc, List.singleton_append]

/-- A pass reads every undecided row before the last it takes. -/
theorem lawful_flush (lawful : Lawful setup lane) (limit : Option ℕ) :
    Lawful setup (lane.flush setup limit) := by
  refine { lawful with passes := fun pass mem => ?_ }
  rcases List.mem_append.mp mem with mem | mem
  · exact lawful.passes pass mem
  rw [List.mem_singleton.mp mem]
  set pending := (lane.ledger.outbox.filter (·.ackedAt.isNone)).insertionSort
    fun one other => one.seq ≤ other.seq with pending_eq
  have : Std.Total fun one other : BufferedDelta => one.seq ≤ other.seq :=
    ⟨fun one other => le_total one.seq other.seq⟩
  have : IsTrans _ fun one other : BufferedDelta => one.seq ≤ other.seq :=
    ⟨fun _ _ _ first second => le_trans first second⟩
  have sorted : pending.Pairwise fun one other => one.seq ≤ other.seq :=
    List.pairwise_insertionSort _ _
  have mem_pending : ∀ delta, delta ∈ pending ↔
      delta ∈ lane.ledger.outbox ∧ delta.ackedAt = none := by
    intro delta
    rw [pending_eq, List.mem_insertionSort, List.mem_filter, Option.isNone_iff_eq_none]
  obtain ⟨taken, left, is, split⟩ : ∃ taken left,
      lane.ledger.pendingTranscriptOutbound limit = taken ∧ taken ++ left = pending := by
    cases limit with
    | none => exact ⟨pending, [], rfl, List.append_nil _⟩
    | some limit => exact ⟨pending.take limit, pending.drop limit, rfl, List.take_append_drop _ _⟩
  have flat : (batchesFrom setup.config.recordMaxBytes [] 0
      (lane.ledger.pendingTranscriptOutbound limit)).flatten = taken := by
    rw [batches_flatten, List.nil_append, is]
  rw [← split] at sorted
  obtain ⟨within, -, across⟩ := List.pairwise_append.mp sorted
  refine ⟨?_, ?_, ?_, fun _ mem => (by cases mem)⟩
  · rw [flat]
    intro delta mem
    obtain ⟨held, unacked⟩ := (mem_pending delta).mp (split ▸ List.mem_append_left _ mem)
    exact lawful.buffered delta held unacked
  · rw [flat]
    exact within
  · rw [flat]
    intro delta mem other mem' less
    rcases lawful.waiting other mem' with held | decided
    · have pends := (mem_pending other).mpr ⟨held, lawful.unacked other mem'⟩
      rw [← split] at pends
      rcases List.mem_append.mp pends with here | later
      · exact .inr here
      · have := across delta mem other later
        omega
    · exact .inl decided

theorem answered_lawful {result : TranscriptIngestResult} {ackedAt : Instant} {mark : ℤ}
    (under : ∀ delta ∈ batch, delta.seq ≤ mark) :
    ∀ write ∈ answeredWrites batch result ackedAt, write.Silent ∨
      ∃ seqs ackedAt, write = .acknowledge seqs ackedAt ∧ ∀ seq ∈ seqs, seq ≤ mark := by
  intro write mem
  rcases List.mem_append.mp mem with mem | mem
  · refine .inl ?_
    obtain ⟨delta, -, mem⟩ := List.mem_flatMap.mp mem
    rcases List.mem_append.mp mem with mem | mem <;> split at mem
    · exact List.mem_singleton.mp mem ▸ trivial
    · cases mem
    · exact List.mem_singleton.mp mem ▸ trivial
    · cases mem
  · refine .inr ⟨_, ackedAt, List.mem_singleton.mp mem, fun seq mem => ?_⟩
    obtain ⟨delta, held, rfl⟩ := List.mem_map.mp mem
    exact under delta held

/-! ## Pushes -/

/-- What a pass pushes next leaves out nothing undecided before it. -/
theorem pushed_rows (lawful : Lawful setup lane)
    (found : lane.passes[place]? = some ⟨batch :: rest, []⟩) :
    (∀ delta ∈ batch, delta ∈ lane.issued) ∧ ∀ delta ∈ batch, ∀ other ∈ lane.issued,
      other.seq < delta.seq → other.seq ≤ lane.hub.mark setup.runnerId ∨ other ∈ batch := by
  have own := lawful.passes _ (List.mem_of_getElem? found)
  have sorted := own.sorted
  rw [List.flatten_cons, List.pairwise_append] at sorted
  refine ⟨fun delta mem => own.held delta (List.mem_append_left _ mem), ?_⟩
  intro delta mem other mem' less
  refine (own.gap delta (List.mem_append_left _ mem) other mem' less).imp_right fun held => ?_
  rcases List.mem_append.mp held with here | later
  · exact here
  · have := sorted.2.2 delta mem other later
    omega

theorem push_decides {records : List (ℤ × TranscriptSlice)} {hub' : TranscriptHub}
    {result : TranscriptIngestResult} {at_ : Instant} {owners : ChunkId → ℤ → Option EpochOwner}
    {retired : Bool} (lawful : Lawful setup lane)
    (found : lane.passes[place]? = some ⟨batch :: rest, []⟩)
    (rendered : renderBatch setup lane.ledger batch = some records)
    (done : ingest setup.caps lane.hub
      { runnerId := setup.runnerId, records, at_, owners, retired } = (hub', some result)) :
    PushDecided setup lane.ledger lane.issued lane.refused lane.hub batch hub' result := by
  obtain ⟨held, gap⟩ := pushed_rows lawful found
  exact push_decided lawful.lives lawful.distinct held gap lawful.sound rendered done

/-- The lane once the hub decided a push. -/
theorem lawful_decided {hub' : TranscriptHub} {result : TranscriptIngestResult}
    (lawful : Lawful setup lane) (held : ∀ delta ∈ batch, delta ∈ lane.issued)
    (decision : PushDecided setup lane.ledger lane.issued lane.refused lane.hub batch hub' result) :
    Lawful setup { lane with hub := hub', refused := lane.refused ++ result.refused } where
  lives := lawful.lives
  numbered := lawful.numbered
  unacked := lawful.unacked
  buffered := lawful.buffered
  waiting := fun delta mem => (lawful.waiting delta mem).imp_right (·.trans decision.grows)
  marked := decision.bound _ lawful.marked fun delta mem => lawful.seq_le (held delta mem)
  sound := decision.sound
  passes := fun pass mem => (lawful.passes pass mem).grown decision.grows
  windows := lawful.windows

theorem lawful_push (lawful : Lawful setup lane) (push : Push) :
    Lawful setup (lane.push setup place push) := by
  rw [Lane.push]
  split
  · rename_i batch rest found
    split
    · exact lawful_drop lawful
    · rename_i records rendered
      split
      · exact lawful_drop lawful
      · split
        · exact lawful_drop lawful
        · rename_i hub' result done
          have decision := push_decides lawful found rendered done
          have decided := lawful_decided lawful (pushed_rows lawful found).1 decision
          have own := lawful.passes _ (List.mem_of_getElem? found)
          have sorted := own.sorted
          rw [List.flatten_cons, List.pairwise_append] at sorted
          dsimp only
          split
          · refine lawful_setPass decided ⟨?_, sorted.2.1, ?_, answered_lawful decision.under⟩
            · exact fun delta mem => own.held delta (List.mem_append_right _ mem)
            · intro delta mem other mem' less
              rcases own.gap delta (List.mem_append_right _ mem) other mem' less with under | held
              · exact .inl (under.trans decision.grows)
              · rcases List.mem_append.mp held with here | later
                · exact .inl (decision.under other here)
                · exact .inr later
          · exact lawful_drop decided
  · exact lawful

theorem lawful_writePass (lawful : Lawful setup lane) : Lawful setup (lane.writePass place) := by
  rw [Lane.writePass]
  split
  · rename_i batches write owed found
    have own := lawful.passes _ (List.mem_of_getElem? found)
    have left : ∀ {lane' : Lane}, (∀ pass ∈ lane'.passes,
        PassLawful lane'.issued (lane'.hub.mark setup.runnerId) pass) →
        lane'.passes = lane.passes →
        PassLawful lane'.issued (lane'.hub.mark setup.runnerId) ⟨batches, owed⟩ := by
      intro lane' all same
      have pass := all _ (same ▸ List.mem_of_getElem? found)
      exact ⟨pass.held, pass.sorted, pass.gap,
        fun write mem => pass.owed write (List.mem_cons_of_mem _ mem)⟩
    rcases own.owed write List.mem_cons_self with silent | ⟨seqs, ackedAt, rfl, under⟩
    · have wrote := lawful_silent lawful silent
      exact lawful_setPass wrote (left wrote.passes rfl)
    · have wrote := @lawful_ack setup lane lawful seqs ackedAt under
      exact lawful_setPass wrote (left wrote.passes rfl)
  · exact lawful

/-! ## Windows -/

theorem lawful_window {writes : List LedgerWrite} (lawful : Lawful setup lane)
    (own : WindowLawful lane.ledger segmentId writes) :
    Lawful setup { lane with windows := Function.update lane.windows segmentId writes } := by
  refine { lawful with windows := fun other => ?_ }
  by_cases here : other = segmentId
  · subst here
    simpa only [Function.update_self] using own
  · simpa only [Function.update_of_ne here] using lawful.windows other

theorem lawful_pump (lawful : Lawful setup lane) (chunkShippedBytes outstandingBytes : ℕ)
    (read : Option SourceRead) (now : Instant) :
    Lawful setup (lane.pump setup segmentId chunkShippedBytes outstandingBytes read now) := by
  rw [Lane.pump]
  split
  · rename_i segment _ found
    refine lawful_window lawful ?_
    have own := transcriptSegment_id found
    rcases @pumpOne_inHand setup.double setup.isoUtc setup.config segment now chunkShippedBytes
      outstandingBytes read with silent | ⟨before, deltas, after, is, first, last, follows⟩
    · exact .inl silent
    · refine .inr ⟨before, deltas, after, segment.shippedTurns, segment.finalizedAt.isSome, is,
        first, last, follows.own.trans own, ?_, follows.ranged, own ▸ follows.named⟩
      rw [standing, found]
      rfl
  · exact lawful

/-- The window's next write; its content is the first since the window was read. -/
theorem lawful_writeWindow (lawful : Lawful setup lane) :
    Lawful setup (lane.writeWindow segmentId) := by
  rw [Lane.writeWindow]
  split
  · exact lawful
  · rename_i write rest held
    have own := lawful.windows segmentId
    rw [held] at own
    rcases own with silent | ⟨before, deltas, after, turns, sealed, is, first, last, own, stands,
      ranged, named⟩
    · obtain ⟨silent, rest⟩ := List.forall_mem_cons.mp silent
      exact lawful_silent (lawful_window lawful (.inl rest)) silent
    · cases before with
      | nil =>
        obtain ⟨rfl, rfl⟩ := List.cons.inj is
        subst own
        obtain ⟨⟨added, grows⟩, apart⟩ := ship_grows stands ranged named
        have begun := @lawful_window setup lane deltas.segmentId rest lawful (.inl last)
        refine lawful_put begun grows (fun row _ known => (apart row.segmentId).2 known) ?_
        intro other
        by_cases here : other = deltas.segmentId
        · subst here
          simp only [Function.update_self]
          exact .inl last
        · exact (begun.windows other).counts fun stands is =>
            ⟨stands.sealed, ((apart other).1 here).trans is⟩
      | cons own before =>
        obtain ⟨rfl, rfl⟩ := List.cons.inj is
        obtain ⟨silent, first⟩ := List.forall_mem_cons.mp first
        refine lawful_silent (lawful_window lawful (.inr ?_)) silent
        exact ⟨before, deltas, after, turns, sealed, rfl, first, last, own, stands, ranged, named⟩

theorem window_grows {write : LedgerWrite} {writes : List LedgerWrite}
    (own : WindowLawful ledger segmentId (write :: writes)) :
    ∃ added, Grows ledger added (write.apply ledger) := by
  rcases own with silent | ⟨before, deltas, after, turns, sealed, is, first, last, own, stands,
    ranged, named⟩
  · exact ⟨[], (silent_apply (silent write List.mem_cons_self)).1⟩
  · cases before with
    | nil =>
      obtain ⟨rfl, rfl⟩ := List.cons.inj is
      subst own
      exact (ship_grows stands ranged named).1
    | cons other before =>
      obtain ⟨rfl, rfl⟩ := List.cons.inj is
      exact ⟨[], (silent_apply (first write List.mem_cons_self)).1⟩

/-! ## Other runners -/

/-- A write under a key of other segments keeps the rows of these. -/
theorem written_apart {table table' : SegmentTable} {written row : SegmentRow}
    (done : Written table written table') (apart : row.segmentId ≠ written.segmentId) :
    row ∈ table'.rows ↔ row ∈ table.rows := by
  rcases done with ⟨-, rows⟩ | ⟨-, rows⟩
  · rw [rows, List.mem_append, List.mem_singleton, or_iff_left]
    rintro rfl
    exact apart rfl
  · rw [rows, List.mem_map]
    constructor
    · rintro ⟨old, mem, rfl⟩
      rw [SegmentTable.replaced] at apart ⊢
      split at apart
      · exact absurd rfl apart
      · rename_i kept
        rwa [if_neg kept]
    · intro mem
      refine ⟨row, mem, if_neg fun both => apart ?_⟩
      exact congrArg Prod.fst both.1

theorem applied_apart {caps : TranscriptCaps} {table table' : SegmentTable}
    {record : TranscriptSlice} {at_ : Instant} {stored : Bool} {row : SegmentRow}
    (applied : Applied caps table record at_ table' stored) (apart : row.segmentId ≠ record.segmentId) :
    row ∈ table'.rows ↔ row ∈ table.rows := by
  cases applied with
  | kept => exact Iff.rfl
  | stored _ written => exact written_apart written apart
  | capped written => exact written_apart written apart

theorem decideBatch_apart {caps : TranscriptCaps} {hub : TranscriptHub} {call : Ingest}
    {unit : Deciding} {row : SegmentRow}
    (apart : ∀ record ∈ call.records, row.segmentId ≠ record.2.segmentId)
    (done : decideBatch caps hub call = some unit) :
    row ∈ unit.segments.rows ↔ row ∈ hub.segments.rows := by
  have each : ∀ (batch : List Prepared) (before after : Deciding),
      (∀ prepared ∈ batch, prepared ∈ prepare caps call.records) →
      batch.foldlM (decideRecord caps call.runnerId call.owners call.at_) before = some after →
      (row ∈ after.segments.rows ↔ row ∈ before.segments.rows) := by
    intro batch
    induction batch with
    | nil =>
      intro before after _ done
      cases done
      exact Iff.rfl
    | cons prepared rest ih =>
      intro before after mem done
      rw [List.foldlM_cons] at done
      obtain ⟨middle, first, later⟩ := Option.bind_eq_some_iff.mp done
      rw [ih middle after (fun other held => mem other (List.mem_cons_of_mem _ held)) later]
      have own := mem prepared List.mem_cons_self
      have foreign : row.segmentId ≠ prepared.record.segmentId := by
        obtain ⟨pair, held, rfl⟩ := mem_prepare.mp own
        exact apart pair held
      rcases decideRecord_segments (prepare_encoded own) first with same | ⟨stored, applied⟩
      · rw [same]
      · exact applied_apart applied foreign
  exact each _ _ _ (fun _ mem => mem) done

/-- Another runner's ingest leaves this runner's mark and rows as they are. -/
theorem ingest_apart {caps : TranscriptCaps} {hub : TranscriptHub} {call : Ingest}
    (other : call.runnerId ≠ setup.runnerId) :
    (ingest caps hub call).1.mark setup.runnerId = hub.mark setup.runnerId ∧
      ∀ row : SegmentRow, (∀ record ∈ call.records, row.segmentId ≠ record.2.segmentId) →
        (row ∈ (ingest caps hub call).1.segments.rows ↔ row ∈ hub.segments.rows) := by
  rw [ingest]
  split
  · exact ⟨rfl, fun _ _ => Iff.rfl⟩
  · split
    · exact ⟨rfl, fun _ _ => Iff.rfl⟩
    · rename_i unit decides
      dsimp only
      split
      · refine ⟨?_, fun row apart => decideBatch_apart apart decides⟩
        simp only [TranscriptHub.setHighWater, TranscriptHub.mark, if_neg other.symm]
      · exact ⟨rfl, fun row apart => decideBatch_apart apart decides⟩

theorem opened_of_standing (opened : standing ledger segmentId ≠ none) :
    segmentId ∈ ledger.segments.rows.map (·.segmentId) := by
  rw [standing, ne_eq, Option.map_eq_none_iff, ← ne_eq, Option.ne_none_iff_exists'] at opened
  obtain ⟨segment, found⟩ := opened
  exact List.mem_map.mpr ⟨segment, List.mem_of_find?_eq_some found, transcriptSegment_id found⟩

theorem lawful_others (lawful : Lawful setup lane) (call : Ingest) :
    Lawful setup (lane.others setup call) := by
  rw [Lane.others]
  split
  · rename_i foreign
    obtain ⟨mark, rows⟩ := @ingest_apart setup setup.caps lane.hub call foreign.1
    have own : ∀ row : SegmentRow, standing lane.ledger row.segmentId ≠ none →
        (row ∈ (ingest setup.caps lane.hub call).1.segments.rows ↔
          row ∈ lane.hub.segments.rows) := by
      intro row opened
      refine rows row fun record mem same => foreign.2 record mem ?_
      exact same ▸ opened_of_standing opened
    refine { lawful with
      waiting := by rw [mark]; exact lawful.waiting
      marked := by rw [mark]; exact lawful.marked
      passes := by rw [mark]; exact lawful.passes
      sound := ⟨fun row mem opened => ?_, fun delta mem under => ?_⟩ }
    · obtain ⟨delta, held, under, stands⟩ :=
        lawful.sound.known row ((own row opened).mp mem) opened
      exact ⟨delta, held, mark.symm ▸ under, stands⟩
    · rw [mark] at under
      refine (lawful.sound.settled delta mem under).imp_right fun ⟨row, held, stands⟩ => ?_
      refine ⟨row, (own row ?_).mpr held, stands⟩
      rw [stands.own]
      exact opened_of_mem lawful.lives mem
  · exact lawful

/-! ## Every step -/

theorem lawful_mint (lawful : Lawful setup lane)
    (grows : ∃ added, Grows lane.ledger added ledger)
    (counts : Counts (some segmentId) lane.ledger ledger) :
    Lawful setup (lane.mint segmentId ledger) := by
  rw [Lane.mint]
  split
  · exact lawful
  · rename_i fresh
    refine lawful_counts lawful grows counts fun other same => ?_
    exact Option.some.inj same ▸ fresh

theorem lawful_crash (lawful : Lawful setup lane) : Lawful setup lane.crash := by
  refine { lawful with passes := fun pass mem => ?_, windows := fun _ => .inl ?_ }
  · obtain ⟨-, -, rfl⟩ := List.mem_map.mp mem
    exact idle_lawful
  · exact fun _ mem => by cases mem

theorem lawful_next (lawful : Lawful setup lane) (label : Label) :
    Lawful setup (next setup lane label) := by
  have unopened : ∀ segmentId, (none : Option String) = some segmentId →
      segmentId ∉ lane.hub.segments.rows.map (·.segmentId) := fun _ is => by cases is
  cases label with
  | spawn segment =>
    obtain ⟨grows, counts⟩ := @openSpawn_grows lane.ledger segment
    exact lawful_mint lawful grows counts
  | open_ segment =>
    obtain ⟨grows, counts⟩ := @open_grows lane.ledger segment
    exact lawful_mint lawful ⟨[], grows⟩ counts
  | finalize segmentId at_ =>
    obtain ⟨grows, counts⟩ := @finalize_grows lane.ledger segmentId at_
    exact lawful_counts lawful grows counts unopened
  | closeLease leaseId at_ =>
    obtain ⟨grows, counts⟩ := @closeLease_grows lane.ledger leaseId at_
    exact lawful_counts lawful grows counts unopened
  | truncate segmentId reason =>
    exact @lawful_silent setup lane lawful (.truncated segmentId reason) trivial
  | pump segmentId chunkShippedBytes outstandingBytes read now =>
    exact lawful_pump lawful chunkShippedBytes outstandingBytes read now
  | window segmentId => exact lawful_writeWindow lawful
  | flush limit => exact lawful_flush lawful limit
  | push place push => exact lawful_push lawful push
  | write place => exact lawful_writePass lawful
  | abandon place => exact lawful_drop lawful
  | others call => exact lawful_others lawful call
  | crash => exact lawful_crash lawful

theorem lawful_foldl (lawful : Lawful setup lane) (labels : List Label) :
    Lawful setup (labels.foldl (next setup) lane) := by
  induction labels generalizing lane with
  | nil => exact lawful
  | cons label labels ih => exact ih (lawful_next lawful label)

theorem lawful_ran (setup : Setup) (labels : List Label) : Lawful setup (ran setup labels) := by
  refine lawful_foldl ⟨fun _ => .unopened, .nil _, ?_, ?_, ?_, le_refl _, ⟨?_, ?_⟩, ?_, ?_⟩ labels
  · exact fun _ mem => by cases mem
  · exact fun _ mem => by cases mem
  · exact fun _ mem => by cases mem
  · exact fun _ mem => by cases mem
  · exact fun _ mem => by cases mem
  · exact fun _ mem => by cases mem
  · exact fun _ => .inl fun _ mem => by cases mem

/-! ## What no step takes back -/

/-- A later state of the lane: what the hub holds of its segments stands, its mark is no lower and
the rows ever buffered are these and more. -/
structure Later (setup : Setup) (lane lane' : Lane) : Prop where
  rows : ∀ row ∈ lane.hub.segments.rows, standing lane.ledger row.segmentId ≠ none →
    row ∈ lane'.hub.segments.rows
  mark : lane.hub.mark setup.runnerId ≤ lane'.hub.mark setup.runnerId
  issued : lane.issued <+: lane'.issued
  known : ∀ segmentId, standing lane.ledger segmentId ≠ none →
    standing lane'.ledger segmentId ≠ none
  stays : Stays lane.ledger lane'.ledger

theorem Later.refl (lane : Lane) : Later setup lane lane :=
  ⟨fun _ mem _ => mem, le_refl _, List.prefix_refl _, fun _ opened => opened, fun _ _ is => is⟩

theorem Later.trans {lane' lane'' : Lane} (first : Later setup lane lane')
    (second : Later setup lane' lane'') : Later setup lane lane'' where
  rows := fun row mem opened =>
    second.rows row (first.rows row mem opened) (first.known row.segmentId opened)
  mark := first.mark.trans second.mark
  issued := first.issued.trans second.issued
  known := fun segmentId opened => second.known segmentId (first.known segmentId opened)
  stays := fun segmentId turns is => second.stays segmentId turns (first.stays segmentId turns is)

theorem later_put (known : ∀ segmentId, standing lane.ledger segmentId ≠ none →
    standing ledger segmentId ≠ none) (stays : Stays lane.ledger ledger) :
    Later setup lane (lane.put ledger) :=
  ⟨fun _ mem _ => mem, le_refl _, List.prefix_append _ _, known, stays⟩

theorem later_grows (grows : ∃ added, Grows lane.ledger added ledger) :
    Later setup lane (lane.put ledger) := by
  obtain ⟨added, grows⟩ := grows
  exact later_put grows.known grows.stays

theorem segments_foldl (records : List WireRecord) (own chunkId : String) (at_ : Instant) :
    (records.foldl (fun ledger record => ledger.insertOutboxRow own chunkId (some record) at_)
      ledger).segments = ledger.segments := by
  induction records generalizing ledger with
  | nil => rfl
  | cons record records ih => exact ih

/-- A write takes no segment away and moves no sealed one. -/
theorem apply_stays (write : LedgerWrite) :
    (∀ segmentId, standing ledger segmentId ≠ none →
      standing (write.apply ledger) segmentId ≠ none) ∧ Stays ledger (write.apply ledger) := by
  have silent : write.Silent → _ ∧ _ := fun silent =>
    ⟨(@silent_apply ledger write silent).1.known, (@silent_apply ledger write silent).1.stays⟩
  cases write with
  | ship deltas =>
    rw [LedgerWrite.apply, Ledger.recordTranscriptDeltas]
    split
    · rename_i accepts
      constructor
      · intro segmentId opened
        rw [standing, ne_eq, Option.map_eq_none_iff] at opened ⊢
        rw [Ledger.transcriptSegment, segments_foldl]
        rwa [← Ledger.transcriptSegment, transcriptSegment_amend, Option.map_eq_none_iff]
      · intro segmentId turns is
        rw [standing, Ledger.transcriptSegment, segments_foldl]
        rw [← Ledger.transcriptSegment, ← standing, standing_amend, is]
        rintro rfl
        obtain ⟨segment, found, stands⟩ := Option.map_eq_some_iff.mp is
        rw [Ledger.acceptsContent, found, Option.all_some, LedgerSegment.acceptsContent] at accepts
        have sealed := congrArg Standing.sealed stands
        simp only [LedgerSegment.standing] at sealed
        rw [Option.isNone_iff_eq_none.mp accepts] at sealed
        cases sealed
    · exact ⟨fun _ opened => opened, fun _ _ is => is⟩
  | acknowledge seqs ackedAt => exact ⟨fun _ opened => opened, fun _ _ is => is⟩
  | advance own cursor normalizerVersion harnessVersion learned => exact silent trivial
  | truncated own reason => exact silent trivial
  | stop own reason => exact silent trivial
  | sidechain own agentId => exact silent trivial

theorem later_write (write : LedgerWrite) :
    Later setup lane (lane.put (write.apply lane.ledger)) :=
  later_put (apply_stays write).1 (apply_stays write).2

theorem later_push (lawful : Lawful setup lane) (push : Push) :
    Later setup lane (lane.push setup place push) := by
  have same : Later setup lane lane := .refl lane
  rw [Lane.push]
  split
  · rename_i batch rest found
    split
    · exact { same with }
    · rename_i records rendered
      split
      · exact { same with }
      · split
        · exact { same with }
        · rename_i hub' result done
          have decision := push_decides lawful found rendered done
          have decided : Later setup lane
              { lane with hub := hub', refused := lane.refused ++ result.refused } :=
            { same with
              rows := fun row mem _ => decision.rows.subset mem
              mark := decision.grows }
          dsimp only
          split <;> exact { decided with }
  · exact same

theorem later_next (lawful : Lawful setup lane) (label : Label) :
    Later setup lane (next setup lane label) := by
  have same : Later setup lane lane := .refl lane
  have minted : ∀ {segmentId : String} {ledger : Ledger},
      (∃ added, Grows lane.ledger added ledger) →
      Later setup lane (lane.mint segmentId ledger) := by
    intro segmentId ledger grows
    rw [Lane.mint]
    split
    · exact same
    · exact later_grows grows
  cases label with
  | spawn segment => exact minted (openSpawn_grows segment).1
  | open_ segment => exact minted ⟨[], (open_grows segment).1⟩
  | finalize segmentId at_ => exact later_grows (finalize_grows segmentId at_).1
  | closeLease leaseId at_ => exact later_grows (closeLease_grows leaseId at_).1
  | truncate segmentId reason => exact later_write (.truncated segmentId reason)
  | pump segmentId chunkShippedBytes outstandingBytes read now =>
    rw [next, Lane.pump]
    split
    · exact { same with }
    · exact same
  | window segmentId =>
    rw [next, Lane.writeWindow]
    split
    · exact same
    · rename_i write _ _
      have wrote : Later setup lane (lane.put (write.apply lane.ledger)) := later_write write
      exact { wrote with }
  | flush limit => exact { same with }
  | push place push => exact later_push lawful push
  | write place =>
    rw [next, Lane.writePass]
    split
    · rename_i write _ _
      have wrote : Later setup lane (lane.put (write.apply lane.ledger)) := later_write write
      exact { wrote with }
    · exact same
  | abandon place => exact { same with }
  | others call =>
    rw [next, Lane.others]
    split
    · rename_i foreign
      obtain ⟨mark, rows⟩ := @ingest_apart setup setup.caps lane.hub call foreign.1
      refine { same with rows := fun row mem opened => (rows row ?_).mpr mem, mark := mark.ge }
      exact fun record held is => foreign.2 record held (is ▸ opened_of_standing opened)
    · exact same
  | crash => exact { same with }

theorem later_ran (before after : List Label) :
    Later setup (ran setup before) (ran setup (before ++ after)) := by
  induction after using List.reverseRecOn with
  | nil =>
    rw [List.append_nil]
    exact .refl _
  | append_singleton after label ih =>
    rw [← List.append_assoc, ran_append setup (before ++ after)]
    exact ih.trans (later_next (lawful_ran setup _) label)

end Blizzard.LaneRules
