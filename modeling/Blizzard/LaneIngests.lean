import Blizzard.LaneDecisions

/-! # A batch of the lane decided

Deciding one record leaves the rows as they were or adds the record's own at a
free key; a batch in seq order keeps the hub sound record by record, and with it
one ingest call. -/
namespace Blizzard.LaneIngests
open HubTables EpochFence TranscriptRecords TranscriptLedger TranscriptPump TranscriptIngest
  TranscriptLane SegmentLives LaneDecisions

/-- The seqs a unit has answered. -/
def answers (unit : Deciding) : List ℤ :=
  unit.applied ++ unit.already ++ unit.capped ++ unit.refused

/-- What deciding a record whose key is free above the mark did: nothing to the rows, where the
record is refused or its key is taken, or one row more, the record's own. -/
structure Decided (unit : Deciding) (prepared : Prepared) (unit' : Deciding) : Prop where
  mark : unit'.mark = max unit.mark prepared.seq
  answered : prepared.seq ∈ answers unit' ∧ answers unit ⊆ answers unit'
  marks : unit'.mark = unit.mark ∨
    ¬(unit'.applied = [] ∧ unit'.capped = [] ∧ unit'.refused = [])
  refused : unit'.refused = unit.refused ∨ unit'.refused = unit.refused ++ [prepared.seq]
  rows : (unit'.segments.rows = unit.segments.rows ∧
      (prepared.seq ∈ unit'.refused ∨
        ∃ row ∈ unit.segments.rows, row.key = prepared.record.key)) ∨
    ∃ row : SegmentRow, unit'.segments.rows = unit.segments.rows ++ [row] ∧
      row.toRecordIdentity = prepared.record.toRecordIdentity ∧
      (row.rejected = false → row.content = some prepared.record.turnsJson)
  keeps : ¬(unit.applied = [] ∧ unit.capped = [] ∧ unit.refused = []) →
    ¬(unit'.applied = [] ∧ unit'.capped = [] ∧ unit'.refused = [])
  stored : ∀ seq ∈ unit'.applied ++ unit'.already, seq ∈ unit.applied ++ unit.already ∨
    (seq = prepared.seq ∧ ∃ row ∈ unit'.segments.rows, row.key = prepared.record.key ∧
      row.rejected = false)

variable {caps : TranscriptCaps} {runnerId : RunnerId} {owners : ChunkId → ℤ → Option EpochOwner}
  {at_ : Instant} {unit unit' : Deciding} {prepared : Prepared}

/-- At a free key, applying a record adds its own row. -/
theorem applied_row {table table' : SegmentTable} {record : TranscriptSlice} {stored : Bool}
    (applied : Applied caps table record at_ table' stored)
    (free : record.key ∉ table.rows.map (·.key)) :
    ∃ row : SegmentRow, table'.rows = table.rows ++ [row] ∧
      row.toRecordIdentity = record.toRecordIdentity ∧
      (row.rejected = false → row.content = some record.turnsJson) := by
  have added : ∀ {row : SegmentRow}, row.toRecordIdentity = record.toRecordIdentity →
      Written table row table' → table'.rows = table.rows ++ [row] := by
    intro row same written
    rcases written with ⟨-, rows⟩ | ⟨⟨old, mem, key, -⟩, -⟩
    · exact rows
    · refine absurd (List.mem_map.mpr ⟨old, mem, key.trans ?_⟩) free
      rw [RecordIdentity.key, RecordIdentity.key, same]
  cases applied with
  | kept accepted =>
    obtain ⟨row, mem, key, -⟩ := naturalKeyState_accepted.mp accepted
    exact absurd (List.mem_map.mpr ⟨row, mem, key⟩) free
  | stored unmet written => exact ⟨_, added rfl written, rfl, fun _ => rfl⟩
  | capped written => exact ⟨_, added rfl written, rfl, fun kept => by cases kept⟩

/-- A record applied as stored leaves its key accepted. -/
theorem applied_stored {table table' : SegmentTable} {record : TranscriptSlice} {stored : Bool}
    (applied : Applied caps table record at_ table' stored) (kept : stored = true) :
    ∃ row ∈ table'.rows, row.key = record.key ∧ row.rejected = false := by
  cases applied with
  | kept accepted => exact naturalKeyState_accepted.mp accepted
  | stored unmet written =>
    refine ⟨acceptedRow record record.turnsJson at_, ?_, rfl, rfl⟩
    rcases written with ⟨-, rows⟩ | ⟨⟨old, mem, key, rejected⟩, rows⟩
    · rw [rows]
      exact List.mem_append_right _ List.mem_cons_self
    · rw [rows]
      exact List.mem_map.mpr ⟨old, mem, if_pos ⟨key, rejected⟩⟩
  | capped written => cases kept

theorem tally_stored {seq : ℤ} {record : TranscriptSlice}
    {outcome : SegmentTable × Bool × Option CapBreach} {one : ℤ}
    (mem : one ∈ (unit.tally seq record outcome).applied ++ (unit.tally seq record outcome).already) :
    one ∈ unit.applied ++ unit.already ∨ (one = seq ∧ outcome.2.1 = true) := by
  obtain ⟨table, stored, breach⟩ := outcome
  cases stored with
  | true =>
    simp only [Deciding.tally, if_true, List.mem_append, List.mem_singleton] at mem ⊢
    tauto
  | false => exact .inl mem

theorem tally_answers (seq : ℤ) (record : TranscriptSlice)
    (outcome : SegmentTable × Bool × Option CapBreach) :
    let tallied := unit.tally seq record outcome
    (seq ∈ answers tallied ∧ answers unit ⊆ answers tallied) ∧
      ¬(tallied.applied = [] ∧ tallied.capped = [] ∧ tallied.refused = []) := by
  obtain ⟨table, stored, breach⟩ := outcome
  cases stored with
  | true =>
    refine ⟨⟨by simp [answers, Deciding.tally], fun seq mem => ?_⟩, by simp [Deciding.tally]⟩
    simp only [answers, Deciding.tally, List.mem_append, if_true] at mem ⊢
    tauto
  | false =>
    refine ⟨⟨by simp [answers, Deciding.tally], fun seq mem => ?_⟩, by simp [Deciding.tally]⟩
    simp only [answers, Deciding.tally, List.mem_append, Bool.false_eq_true, if_false] at mem ⊢
    tauto

theorem decided (encoded : caps.recordBreach prepared.record.byteCount = none →
      prepared.turns = some prepared.record.turnsJson)
    (free : unit.mark < prepared.seq →
      prepared.record.key ∉ unit.segments.rows.map (·.key))
    (done : decideRecord caps runnerId owners at_ unit prepared = some unit') :
    Decided unit prepared unit' := by
  rw [decideRecord] at done
  split at done
  · cases done
    exact ⟨rfl, ⟨by simp [answers], fun seq mem => by simp [answers] at mem ⊢; tauto⟩,
      .inr (by simp), .inr rfl, .inl ⟨rfl, .inl (by simp)⟩, fun _ => by simp, fun _ => .inl⟩
  · split at done
    · rename_i under
      have same : unit.mark = max unit.mark prepared.seq := (max_eq_left under).symm
      split at done
      · rename_i capped
        cases done
        obtain ⟨row, mem, key, -⟩ : ∃ row ∈ unit.segments.rows, row.key = prepared.record.key ∧
            row.rejected = true := by
          apply naturalKeyState_rejected
          cases state : unit.segments.naturalKeyState prepared.record.key <;>
            simp [state, replayOutcome] at capped ⊢
        exact ⟨same, ⟨by simp [answers], fun seq mem => by simp [answers] at mem ⊢; tauto⟩,
          .inl rfl, .inl rfl, .inl ⟨rfl, .inr ⟨row, mem, key⟩⟩, fun _ => by simp, fun _ => .inl⟩
      · rename_i already
        cases done
        obtain ⟨row, mem, key, accepted⟩ : ∃ row ∈ unit.segments.rows,
            row.key = prepared.record.key ∧ row.rejected = false := by
          apply naturalKeyState_accepted.mp
          cases state : unit.segments.naturalKeyState prepared.record.key <;>
            simp [state, replayOutcome] at already ⊢
        exact ⟨same, ⟨by simp [answers], fun seq mem => by simp [answers] at mem ⊢; tauto⟩,
          .inl rfl, .inl rfl, .inl ⟨rfl, .inr ⟨row, mem, key⟩⟩, id, fun seq told => by
            simp only [List.mem_append, List.mem_singleton] at told ⊢
            rcases told with told | told | rfl
            · exact .inl (.inl told)
            · exact .inl (.inr told)
            · exact .inr ⟨rfl, row, mem, key, accepted⟩⟩
      · rename_i ahead
        obtain ⟨⟨table', stored, breach⟩, wrote, rfl⟩ := Option.map_eq_some_iff.mp done
        have absent : unit.segments.naturalKeyState prepared.record.key = .absent := by
          cases state : unit.segments.naturalKeyState prepared.record.key <;>
            simp [state, replayOutcome] at ahead ⊢
        have applied := applyRecord_applied encoded wrote
        obtain ⟨row, rows, identity, content⟩ := applied_row applied
          (naturalKeyState_absent.mp absent)
        obtain ⟨answered, told⟩ := @tally_answers
          { unit with ahead := unit.ahead ++ [(prepared.seq, prepared.record)] } prepared.seq
          prepared.record (table', stored, breach)
        exact ⟨same, answered, .inl rfl, .inl rfl, .inr ⟨row, rows, identity, content⟩,
          fun _ => told, fun seq mem => (tally_stored mem).imp id fun own =>
            ⟨own.1, applied_stored applied own.2⟩⟩
    · rename_i above
      obtain ⟨⟨table', stored, breach⟩, wrote, rfl⟩ := Option.map_eq_some_iff.mp done
      have applied := applyRecord_applied encoded wrote
      obtain ⟨row, rows, identity, content⟩ := applied_row applied (free (lt_of_not_ge above))
      obtain ⟨answered, told⟩ := @tally_answers { unit with mark := prepared.seq } prepared.seq
        prepared.record (table', stored, breach)
      exact ⟨(max_eq_right (le_of_not_ge above)).symm, answered, .inr told, .inl rfl,
        .inr ⟨row, rows, identity, content⟩, fun _ => told, fun seq mem =>
          (tally_stored mem).imp id fun own => ⟨own.1, applied_stored applied own.2⟩⟩

/-! ## A batch in seq order -/

section Batch

variable {setup : Setup} {ledger : Ledger} {issued : List BufferedDelta} {delta : BufferedDelta}
  {refused : List ℤ} {batch : List Prepared}

/-- The prepared record is the buffered row's. -/
structure Offers (setup : Setup) (ledger : Ledger) (issued : List BufferedDelta)
    (prepared : Prepared) (delta : BufferedDelta) : Prop where
  mem : delta ∈ issued
  seq : prepared.seq = delta.seq
  record : ∃ record, render ledger delta = some record ∧
    prepared.record = toDomainRecord setup record
  encoded : setup.caps.recordBreach prepared.record.byteCount = none →
    prepared.turns = some prepared.record.turnsJson

theorem Offers.key (offers : Offers setup ledger issued prepared delta)
    (lives : Lives ledger issued) :
    prepared.record.key = (delta.segmentId, spanStart ledger delta) := by
  obtain ⟨record, rendered, is⟩ := offers.record
  obtain ⟨own, starts, -⟩ := render_span lives offers.mem rendered
  rw [is, RecordIdentity.key, ← own, ← starts]
  rfl

/-- The row a record left stands for its buffered row. -/
theorem Offers.stands (offers : Offers setup ledger issued prepared delta)
    (lives : Lives ledger issued) {row : SegmentRow}
    (same : row.toRecordIdentity = prepared.record.toRecordIdentity)
    (content : row.rejected = false → row.content = some prepared.record.turnsJson) :
    Stands setup ledger delta row := by
  obtain ⟨record, rendered, is⟩ := offers.record
  obtain ⟨own, starts, ends, final⟩ := render_span lives offers.mem rendered
  rw [is] at same content
  refine ⟨?_, ?_, ?_, ?_, ?_⟩
  · rw [← own]
    exact congrArg RecordIdentity.segmentId same
  · rw [← starts]
    exact congrArg RecordIdentity.turnRangeStart same
  · rw [← ends]
    exact congrArg RecordIdentity.turnRangeEnd same
  · rw [← final]
    exact congrArg RecordIdentity.final same
  · intro payload filled
    rw [render, filled] at rendered
    obtain rfl := Option.some.inj rendered
    exact ⟨same, content⟩

/-- A row of the hub at the key of a buffered row stands for it. -/
theorem stands_of_key (lives : Lives ledger issued) {rows : List SegmentRow} {mark : ℤ}
    (sound : Sound setup ledger issued rows mark refused) (mem : delta ∈ issued) {row : SegmentRow}
    (held : row ∈ rows) (key : row.key = (delta.segmentId, spanStart ledger delta)) :
    delta.seq ≤ mark ∧ Stands setup ledger delta row := by
  obtain ⟨own, starts⟩ := Prod.mk.inj key
  obtain ⟨other, mem', under, stands⟩ := sound.known row held (own ▸ opened_of_mem lives mem)
  have same : other = delta := eq_of_key lives mem' mem (stands.own.symm.trans own)
    (stands.starts.symm.trans starts)
  exact same ▸ ⟨under, stands⟩

/-- A buffered row above the mark has its key free. -/
theorem Offers.free (offers : Offers setup ledger issued prepared delta)
    (lives : Lives ledger issued)
    (sound : Sound setup ledger issued unit.segments.rows unit.mark (refused ++ unit.refused))
    (above : unit.mark < prepared.seq) :
    prepared.record.key ∉ unit.segments.rows.map (·.key) := by
  intro mem
  obtain ⟨row, held, key⟩ := List.mem_map.mp mem
  have under := (stands_of_key lives sound offers.mem held (key.trans (offers.key lives))).1
  rw [offers.seq] at above
  omega

theorem sound_decided (lives : Lives ledger issued)
    (numbered : ∀ one ∈ issued, ∀ other ∈ issued, one.seq = other.seq → one = other)
    (offers : Offers setup ledger issued prepared delta)
    (gap : ∀ other ∈ issued, other.seq < prepared.seq → other.seq ≤ unit.mark)
    (sound : Sound setup ledger issued unit.segments.rows unit.mark (refused ++ unit.refused))
    (step : Decided unit prepared unit') :
    Sound setup ledger issued unit'.segments.rows unit'.mark (refused ++ unit'.refused) ∧
      unit.segments.rows <+: unit'.segments.rows := by
  have prefix_ : unit.segments.rows <+: unit'.segments.rows := by
    rcases step.rows with ⟨same, -⟩ | ⟨row, rows, -⟩
    · rw [same]
    · rw [rows]
      exact List.prefix_append _ _
  have told : refused ++ unit.refused ⊆ refused ++ unit'.refused := by
    rcases step.refused with same | more
    · rw [same]
      exact List.Subset.refl _
    · rw [more, ← List.append_assoc]
      exact List.subset_append_left _ _
  refine ⟨⟨?_, ?_⟩, prefix_⟩
  · intro row mem opened
    rcases step.rows with ⟨same, -⟩ | ⟨own, rows, identity, content⟩
    · obtain ⟨other, held, under, stands⟩ := sound.known row (same ▸ mem) opened
      exact ⟨other, held, step.mark ▸ le_max_of_le_left under, stands⟩
    · rw [rows, List.mem_append, List.mem_singleton] at mem
      rcases mem with mem | rfl
      · obtain ⟨other, held, under, stands⟩ := sound.known row mem opened
        exact ⟨other, held, step.mark ▸ le_max_of_le_left under, stands⟩
      · exact ⟨delta, offers.mem, by rw [step.mark, ← offers.seq]; exact le_max_right _ _,
          offers.stands lives identity content⟩
  · intro other mem under
    by_cases before : other.seq ≤ unit.mark
    · exact (sound.settled other mem before).imp (fun held => told held)
        fun ⟨row, held, stands⟩ => ⟨row, prefix_.subset held, stands⟩
    · have last : other.seq = prepared.seq := by
        rw [step.mark] at under
        rcases lt_or_eq_of_le ((le_max_iff.mp under).resolve_left before) with less | same
        · exact absurd (gap other mem less) before
        · exact same
      obtain rfl := numbered other mem delta offers.mem (last.trans offers.seq)
      rcases step.rows with ⟨same, gone | ⟨row, held, key⟩⟩ | ⟨row, rows, identity, content⟩
      · exact .inl (List.mem_append_right _ (last ▸ gone))
      · exact .inr ⟨row, same ▸ held,
          (stands_of_key lives sound mem held (key.trans (offers.key lives))).2⟩
      · exact .inr ⟨row, by rw [rows]; simp, offers.stands lives identity content⟩

/-- What deciding a batch did to a sound hub. -/
structure BatchDecided (setup : Setup) (ledger : Ledger) (issued : List BufferedDelta)
    (refused : List ℤ) (unit : Deciding) (batch : List Prepared) (unit' : Deciding) : Prop where
  sound : Sound setup ledger issued unit'.segments.rows unit'.mark (refused ++ unit'.refused)
  rows : unit.segments.rows <+: unit'.segments.rows
  under : unit.mark ≤ unit'.mark ∧ ∀ prepared ∈ batch, prepared.seq ≤ unit'.mark
  bound : ∀ bound, unit.mark ≤ bound → (∀ prepared ∈ batch, prepared.seq ≤ bound) →
    unit'.mark ≤ bound
  answered : (∀ prepared ∈ batch, prepared.seq ∈ answers unit') ∧ answers unit ⊆ answers unit'
  marks : unit'.mark = unit.mark ∨ ¬(unit'.applied = [] ∧ unit'.capped = [] ∧ unit'.refused = [])
  keeps : ¬(unit.applied = [] ∧ unit.capped = [] ∧ unit.refused = []) →
    ¬(unit'.applied = [] ∧ unit'.capped = [] ∧ unit'.refused = [])
  replayed : (∀ prepared ∈ batch, ∃ row ∈ unit.segments.rows, row.key = prepared.record.key) →
    unit'.segments.rows = unit.segments.rows
  kept : ∀ seq ∈ unit'.applied ++ unit'.already, seq ∈ unit.applied ++ unit.already ∨
    ∃ delta ∈ issued, delta.seq = seq ∧ ∃ row ∈ unit'.segments.rows,
      Stands setup ledger delta row ∧ row.rejected = false

theorem batch_decided (lives : Lives ledger issued)
    (numbered : ∀ one ∈ issued, ∀ other ∈ issued, one.seq = other.seq → one = other)
    (offered : ∀ prepared ∈ batch, ∃ delta, Offers setup ledger issued prepared delta)
    (sorted : batch.Pairwise fun one other => one.seq ≤ other.seq)
    (gap : ∀ prepared ∈ batch, ∀ other ∈ issued, other.seq < prepared.seq →
      other.seq ≤ unit.mark ∨ ∃ one ∈ batch, one.seq = other.seq)
    (sound : Sound setup ledger issued unit.segments.rows unit.mark (refused ++ unit.refused))
    (done : batch.foldlM (decideRecord setup.caps runnerId owners at_) unit = some unit') :
    BatchDecided setup ledger issued refused unit batch unit' := by
  induction batch generalizing unit with
  | nil =>
    cases done
    exact ⟨sound, List.prefix_refl _, ⟨le_refl _, fun _ mem => by cases mem⟩,
      fun bound under _ => under, ⟨fun _ mem => (by cases mem), List.Subset.refl _⟩, .inl rfl, id,
      fun _ => rfl, fun _ => .inl⟩
  | cons prepared rest ih =>
    rw [List.foldlM_cons] at done
    obtain ⟨middle, first, later⟩ := Option.bind_eq_some_iff.mp done
    obtain ⟨delta, offers⟩ := offered prepared List.mem_cons_self
    obtain ⟨after, sorted⟩ := List.pairwise_cons.mp sorted
    have before : ∀ other ∈ issued, other.seq < prepared.seq → other.seq ≤ unit.mark := by
      intro other mem less
      rcases gap prepared List.mem_cons_self other mem less with under | ⟨one, held, same⟩
      · exact under
      · rcases List.mem_cons.mp held with rfl | held
        · omega
        · have := after one held
          omega
    have step := decided offers.encoded (offers.free lives sound) first
    obtain ⟨sound', rows⟩ := sound_decided lives numbered offers before sound step
    have further := ih (fun one mem => offered one (List.mem_cons_of_mem _ mem)) sorted
      (fun one mem other held less => by
        rcases gap one (List.mem_cons_of_mem _ mem) other held less with under | ⟨two, mem', same⟩
        · exact .inl (step.mark ▸ le_max_of_le_left under)
        · rcases List.mem_cons.mp mem' with rfl | mem'
          · exact .inl (by rw [step.mark, ← same]; exact le_max_right _ _)
          · exact .inr ⟨two, mem', same⟩) sound' later
    have own : prepared.seq ≤ middle.mark := step.mark ▸ le_max_right _ _
    have kept : unit.mark ≤ middle.mark := step.mark ▸ le_max_left _ _
    refine ⟨further.sound, rows.trans further.rows, ⟨kept.trans further.under.1, ?_⟩, ?_, ⟨?_, ?_⟩,
      ?_, fun told => further.keeps (step.keeps told), ?_, ?_⟩
    · intro one mem
      rcases List.mem_cons.mp mem with rfl | mem
      · exact own.trans further.under.1
      · exact further.under.2 one mem
    · intro bound under all
      refine further.bound bound ?_ fun one mem => all one (List.mem_cons_of_mem _ mem)
      rw [step.mark]
      exact max_le under (all prepared List.mem_cons_self)
    · intro one mem
      rcases List.mem_cons.mp mem with rfl | mem
      · exact further.answered.2 step.answered.1
      · exact further.answered.1 one mem
    · exact fun seq mem => further.answered.2 (step.answered.2 mem)
    · rcases step.marks with same | told
      · rw [← same]
        exact further.marks
      · exact .inr (further.keeps told)
    · intro held
      have same : middle.segments.rows = unit.segments.rows := by
        rcases step.rows with ⟨same, -⟩ | ⟨row, rows, identity, -⟩
        · exact same
        · obtain ⟨old, mem, key⟩ := held prepared List.mem_cons_self
          have twice := middle.segments.key_unique
          rw [rows, List.map_append, List.nodup_append] at twice
          refine absurd ?_ (twice.2.2 old.key (List.mem_map_of_mem mem) row.key (by simp))
          rw [key, RecordIdentity.key, RecordIdentity.key, identity]
      rw [← same]
      exact further.replayed fun one mem => same ▸ held one (List.mem_cons_of_mem _ mem)
    · intro seq mem
      rcases further.kept seq mem with told | later
      · refine (step.stored seq told).imp id fun ⟨own, row, held, key, accepted⟩ => ?_
        refine ⟨delta, offers.mem, offers.seq.symm.trans own.symm, row, further.rows.subset held, ?_,
          accepted⟩
        exact (stands_of_key lives sound' offers.mem held (key.trans (offers.key lives))).2
      · exact .inr later

end Batch

/-! ## One push -/

section Push

variable {setup : Setup} {ledger : Ledger} {issued batch : List BufferedDelta} {refused : List ℤ}
  {records : List (ℤ × TranscriptSlice)} {hub hub' : TranscriptHub} {retired : Bool}
  {result : TranscriptIngestResult}

theorem prepare_sorted (caps : TranscriptCaps) (records : List (ℤ × TranscriptSlice)) :
    (prepare caps records).Pairwise fun one other => one.seq ≤ other.seq := by
  have : Std.Total fun one other : ℤ × TranscriptSlice => one.1 ≤ other.1 :=
    ⟨fun one other => le_total one.1 other.1⟩
  have : IsTrans _ fun one other : ℤ × TranscriptSlice => one.1 ≤ other.1 :=
    ⟨fun _ _ _ first second => le_trans first second⟩
  exact (List.pairwise_insertionSort _ records).map _ fun _ _ less => less

theorem mem_prepare {caps : TranscriptCaps} {prepared : Prepared} :
    prepared ∈ prepare caps records ↔ ∃ pair ∈ records, prepared =
      { seq := pair.1, record := pair.2
        turns :=
          if caps.recordBreach pair.2.byteCount = none then some pair.2.turnsJson else none } := by
  simp only [prepare, List.mem_map, List.mem_insertionSort, eq_comm]

theorem renderBatch_mem (rendered : renderBatch setup ledger batch = some records) :
    (∀ pair ∈ records, ∃ delta ∈ batch, ∃ record, render ledger delta = some record ∧
      pair = (delta.seq, toDomainRecord setup record)) ∧
    ∀ delta ∈ batch, ∃ record, render ledger delta = some record ∧
      (delta.seq, toDomainRecord setup record) ∈ records := by
  induction batch generalizing records with
  | nil =>
    cases rendered
    exact ⟨fun _ mem => (by cases mem), fun _ mem => (by cases mem)⟩
  | cons delta rest ih =>
    rw [renderBatch, List.mapM_cons] at rendered
    obtain ⟨pair, first, later⟩ := Option.bind_eq_some_iff.mp rendered
    obtain ⟨pairs, others, same⟩ := Option.bind_eq_some_iff.mp later
    obtain rfl := Option.some.inj same
    obtain ⟨record, own, rfl⟩ := Option.map_eq_some_iff.mp first
    obtain ⟨from_, into⟩ := ih others
    constructor
    · intro pair mem
      rcases List.mem_cons.mp mem with rfl | mem
      · exact ⟨delta, List.mem_cons_self, record, own, rfl⟩
      · obtain ⟨other, held, rest⟩ := from_ pair mem
        exact ⟨other, List.mem_cons_of_mem _ held, rest⟩
    · intro other mem
      rcases List.mem_cons.mp mem with rfl | mem
      · exact ⟨record, own, List.mem_cons_self⟩
      · obtain ⟨record', own', held⟩ := into other mem
        exact ⟨record', own', List.mem_cons_of_mem _ held⟩

/-- What an answered push did to a sound hub. -/
structure PushDecided (setup : Setup) (ledger : Ledger) (issued : List BufferedDelta)
    (refused : List ℤ) (hub : TranscriptHub) (batch : List BufferedDelta) (hub' : TranscriptHub)
    (result : TranscriptIngestResult) : Prop where
  sound : Sound setup ledger issued hub'.segments.rows (hub'.mark setup.runnerId)
    (refused ++ result.refused)
  rows : hub.segments.rows <+: hub'.segments.rows
  grows : hub.mark setup.runnerId ≤ hub'.mark setup.runnerId
  under : ∀ delta ∈ batch, delta.seq ≤ hub'.mark setup.runnerId
  bound : ∀ bound, hub.mark setup.runnerId ≤ bound → (∀ delta ∈ batch, delta.seq ≤ bound) →
    hub'.mark setup.runnerId ≤ bound
  answered : ∀ delta ∈ batch, delta.seq ∈
    result.applied ++ result.alreadyApplied ++ result.capped ++ result.refused
  replayed : (∀ delta ∈ batch, delta.seq ≤ hub.mark setup.runnerId ∧ delta.seq ∉ refused) →
    hub'.segments.rows = hub.segments.rows
  kept : ∀ delta ∈ batch, delta.seq ∈ result.applied ++ result.alreadyApplied →
    ∃ row ∈ hub'.segments.rows, Stands setup ledger delta row ∧ row.rejected = false

theorem push_decided (lives : Lives ledger issued)
    (numbered : ∀ one ∈ issued, ∀ other ∈ issued, one.seq = other.seq → one = other)
    (held : ∀ delta ∈ batch, delta ∈ issued)
    (gap : ∀ delta ∈ batch, ∀ other ∈ issued, other.seq < delta.seq →
      other.seq ≤ hub.mark setup.runnerId ∨ other ∈ batch)
    (sound : Sound setup ledger issued hub.segments.rows (hub.mark setup.runnerId) refused)
    (rendered : renderBatch setup ledger batch = some records)
    (done : ingest setup.caps hub { runnerId := setup.runnerId, records, at_, owners, retired } =
      (hub', some result)) :
    PushDecided setup ledger issued refused hub batch hub' result := by
  obtain ⟨from_, into⟩ := renderBatch_mem rendered
  have offers : ∀ delta ∈ batch, ∀ record, render ledger delta = some record →
      ∀ prepared : Prepared, prepared.seq = delta.seq →
      prepared.record = toDomainRecord setup record →
      (setup.caps.recordBreach prepared.record.byteCount = none →
        prepared.turns = some prepared.record.turnsJson) →
      Offers setup ledger issued prepared delta :=
    fun delta mem record own prepared seq is encoded => ⟨held delta mem, seq, ⟨record, own, is⟩,
      encoded⟩
  have offered : ∀ prepared ∈ prepare setup.caps records, ∃ delta ∈ batch,
      Offers setup ledger issued prepared delta := by
    intro prepared mem
    have encoded := prepare_encoded mem
    obtain ⟨pair, mem', rfl⟩ := mem_prepare.mp mem
    obtain ⟨delta, own, record, is, rfl⟩ := from_ pair mem'
    exact ⟨delta, own, offers delta own record is _ rfl rfl encoded⟩
  have of_delta : ∀ delta ∈ batch, ∃ prepared ∈ prepare setup.caps records,
      prepared.seq = delta.seq := by
    intro delta mem
    obtain ⟨record, -, mem'⟩ := into delta mem
    exact ⟨_, mem_prepare.mpr ⟨_, mem', rfl⟩, rfl⟩
  rw [ingest] at done
  split at done
  · cases done
  · split at done
    · cases done
    · rename_i unit decides
      rw [decideBatch] at decides
      have gap' : ∀ prepared ∈ prepare setup.caps records, ∀ other ∈ issued,
          other.seq < prepared.seq → other.seq ≤ hub.mark setup.runnerId ∨
            ∃ one ∈ prepare setup.caps records, one.seq = other.seq := by
        intro prepared mem other mem' less
        obtain ⟨delta, own, offers⟩ := offered prepared mem
        exact (gap delta own other mem' (offers.seq ▸ less)).imp_right (of_delta other)
      have decision : BatchDecided setup ledger issued refused _ _ unit :=
        batch_decided lives numbered (fun prepared mem => (offered prepared mem).imp fun _ both =>
          both.2) (prepare_sorted setup.caps records) gap' (by rw [List.append_nil]; exact sound)
          decides
      simp only [Prod.mk.injEq, Option.some.injEq] at done
      obtain ⟨hub_eq, rfl⟩ := done
      have segments : hub'.segments = unit.segments := by
        rw [← hub_eq]
        split <;> rfl
      have mark : hub'.mark setup.runnerId = unit.mark := by
        rw [← hub_eq]
        split
        · simp [TranscriptHub.setHighWater, TranscriptHub.mark]
        · rename_i silent
          rcases decision.marks with same | told
          · exact same.symm
          · refine absurd (by_contra fun told' => silent ?_) told
            tauto
      have of_batch : ∀ P : ℤ → Prop, (∀ prepared ∈ prepare setup.caps records, P prepared.seq) →
          ∀ delta ∈ batch, P delta.seq := by
        intro P all delta mem
        obtain ⟨prepared, mem', same⟩ := of_delta delta mem
        exact same ▸ all prepared mem'
      refine ⟨?_, ?_, ?_, ?_, ?_, ?_, ?_, ?_⟩
      · rw [mark, segments]
        exact decision.sound
      · rw [segments]
        exact decision.rows
      · rw [mark]
        exact decision.under.1
      · rw [mark]
        exact of_batch (· ≤ unit.mark) decision.under.2
      · intro bound under all
        rw [mark]
        refine decision.bound bound under fun prepared mem => ?_
        obtain ⟨delta, own, offers⟩ := offered prepared mem
        exact offers.seq ▸ all delta own
      · exact of_batch (· ∈ answers unit) decision.answered.1
      · intro replays
        rw [segments]
        refine decision.replayed fun prepared mem => ?_
        obtain ⟨delta, own, offers⟩ := offered prepared mem
        obtain ⟨under, kept⟩ := replays delta own
        obtain ⟨row, mem', stands⟩ := (sound.settled delta (held delta own) under).resolve_left kept
        refine ⟨row, mem', ?_⟩
        rw [offers.key lives, RecordIdentity.key, stands.own, stands.starts]
      · intro delta mem told
        rw [segments]
        obtain ⟨other, mem', same, kept⟩ := (decision.kept delta.seq told).resolve_left (by simp)
        exact numbered other mem' delta (held delta mem) same ▸ kept

end Push

end Blizzard.LaneIngests
