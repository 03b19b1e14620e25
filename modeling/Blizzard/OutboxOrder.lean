import Blizzard.OutboxFleet

/-! # Numbers of the outboxes over every run

The home's counter is at or above every number issued, so a number is never issued twice. What is
issued and not delivered waits in some store, and a drain sends what waits at home in order. -/
namespace Blizzard.OutboxOrder
open HubTables OutboxLanes OutboxFleet

variable {cap : ℕ} {w : Fleet}

/-! ## One write -/

/-- A lane's counter, zero where it has no row. -/
def count (o : Outbox) (lane : Lane) : ℕ := (o.lastSeq lane).getD 0

/-- An outbox holds an undelivered row. -/
def Waits (o : Outbox) (d : Delivery) : Prop :=
  ∃ row ∈ o.rows, row.ackedAt = none ∧ OutboxRow.delivery row = d

theorem advanced_eq (o : Outbox) (lane : Lane) : o.advanced lane = count o lane + 1 := by
  rw [Outbox.advanced, count]
  cases o.lastSeq lane <;> simp

/-- What one transaction's inserts add to an outbox. -/
structure Inserted (before after : Outbox) (added : List OutboxRow) : Prop where
  rows : after.rows = before.rows ++ added
  counts : ∀ lane, count before lane ≤ count after lane
  above : ∀ row ∈ added, count before row.lane < row.seq ∧ row.seq ≤ count after row.lane
  pending : ∀ row ∈ added, row.ackedAt = none
  rises : ∀ lane, (added.filter (·.lane = lane)).Pairwise fun a b => a.seq < b.seq

theorem Inserted.refl (o : Outbox) : Inserted o o [] := by
  constructor <;> simp

theorem insertOutboxRow_spec {at_ : Instant} {o after : Outbox} {entry : Buffered}
    (h : insertOutboxRow at_ o entry = some after) :
    ∃ row, row.seq = count o entry.lane + 1 ∧ row.lane = entry.lane ∧ row.ackedAt = none ∧
      after.rows = o.rows ++ [row] ∧
      ∀ lane, count after lane = if lane = entry.lane then row.seq else count o lane := by
  rw [insertOutboxRow] at h
  dsimp only at h
  split at h
  · cases h
  · rw [← Option.some_inj.mp h]
    refine ⟨_, advanced_eq o entry.lane, rfl, rfl, rfl, ?_⟩
    intro lane
    rw [count]
    split
    next same =>
      subst same
      simp
    next differs => simp [count, Function.update_of_ne differs]

theorem insertAll_spec {at_ : Instant} {entries : List Buffered} {o after : Outbox}
    (h : insertAll at_ o entries = some after) : ∃ added, Inserted o after added := by
  induction entries generalizing o with
  | nil =>
    rw [insertAll, List.foldlM_nil] at h
    rw [← Option.some_inj.mp h]
    exact ⟨[], .refl o⟩
  | cons entry rest ih =>
    rw [insertAll, List.foldlM_cons] at h
    obtain ⟨next, first, h⟩ := Option.bind_eq_some_iff.mp h
    obtain ⟨row, seq, lane, pending, rows, counts⟩ := insertOutboxRow_spec first
    obtain ⟨added, inserted⟩ := ih h
    have grown (other : Lane) : count o other ≤ count next other := by
      rw [counts]
      split
      next same =>
        rw [same, seq]
        omega
      next => exact le_refl _
    have own : count next row.lane = row.seq := by rw [counts, lane, if_pos rfl]
    refine ⟨row :: added, ?_, ?_, ?_, ?_, ?_⟩
    · rw [inserted.rows, rows, List.append_assoc, List.singleton_append]
    · intro other
      exact (grown other).trans (inserted.counts other)
    · intro new held
      rcases List.mem_cons.mp held with rfl | later
      · have := inserted.counts new.lane
        rw [lane] at own this ⊢
        omega
      · obtain ⟨low, high⟩ := inserted.above new later
        exact ⟨(grown _).trans_lt low, high⟩
    · intro new held
      rcases List.mem_cons.mp held with rfl | later
      · exact pending
      · exact inserted.pending new later
    · intro other
      rw [List.filter_cons]
      split
      next mine =>
        rw [decide_eq_true_eq] at mine
        refine List.pairwise_cons.mpr ⟨?_, inserted.rises other⟩
        intro new held
        obtain ⟨later, its⟩ := List.mem_filter.mp held
        have low := (inserted.above new later).1
        rw [of_decide_eq_true its, ← mine, own] at low
        exact low
      next => exact inserted.rises other

/-- A write at home that issues nothing: rows keep what they carry, a row is acknowledged or deleted
only once the hub has it. -/
structure Settles (hub : List Delivery) (before after : Outbox) : Prop where
  counts : after.lastSeq = before.lastSeq
  rows : ∀ row ∈ after.rows, ∃ old ∈ before.rows, OutboxRow.delivery old = OutboxRow.delivery row ∧
    (row.ackedAt ≠ none → old.ackedAt ≠ none ∨ OutboxRow.delivery row ∈ hub)
  waits : ∀ d, Waits before d → Waits after d ∨ d ∈ hub
  pending : ∀ row ∈ after.rows, row.ackedAt = none → row ∈ before.rows

theorem Settles.refl (hub : List Delivery) (o : Outbox) : Settles hub o o where
  counts := rfl
  rows := fun row held => ⟨row, held, rfl, .inl⟩
  waits := fun _ => .inl
  pending := fun _ held _ => held

theorem mem_pruneOutbound {o : Outbox} {now : Instant} {row : OutboxRow} :
    row ∈ (pruneOutbound o now).rows ↔ row ∈ o.rows ∧
      ¬(row.lane = .outbound ∧ (∃ acked ∈ row.ackedAt, acked < now - outboundRetentionWindow) ∧
        ∀ least ∈ ((o.pendingRows .outbound).map (·.seq)).min?, row.seq < least) := by
  rw [pruneOutbound, List.mem_filter, decide_eq_true_iff]

theorem prune_settles (hub : List Delivery) (o : Outbox) (now : Instant) :
    Settles hub o (pruneOutbound o now) where
  counts := rfl
  rows := fun row held => ⟨row, (mem_pruneOutbound.mp held).1, rfl, .inl⟩
  waits := by
    rintro d ⟨row, held, pending, rfl⟩
    refine .inl ⟨row, mem_pruneOutbound.mpr ⟨held, ?_⟩, pending, rfl⟩
    rintro ⟨_, ⟨acked, some_, _⟩, _⟩
    rw [pending] at some_
    cases some_
  pending := fun row held _ => (mem_pruneOutbound.mp held).1

/-- A pruned fact is acknowledged and below every fact still pending. -/
theorem pruned {o : Outbox} {now : Instant} {row : OutboxRow} (held : row ∈ o.rows)
    (gone : row ∉ (pruneOutbound o now).rows) :
    row.ackedAt ≠ none ∧ ∀ other ∈ o.rows, other.lane = row.lane → other.ackedAt = none →
      row.seq < other.seq := by
  rw [mem_pruneOutbound] at gone
  have ⟨lane, ⟨acked, some_, _⟩, below⟩ := not_not.mp fun kept => gone ⟨held, kept⟩
  constructor
  · intro none_
    rw [none_] at some_
    cases some_
  intro other stored its pending
  have listed : other.seq ∈ (o.pendingRows .outbound).map (·.seq) := by
    refine List.mem_map.mpr ⟨other, List.mem_filter.mpr ⟨stored, ?_⟩, rfl⟩
    rw [decide_eq_true_iff]
    exact ⟨its.trans lane, pending⟩
  obtain ⟨least, hleast⟩ := Option.isSome_iff_exists.mp
    (List.isSome_min?_of_mem listed)
  exact (below least hleast).trans_le ((List.min?_eq_some_iff.mp hleast).2 _ listed)

/-- What acknowledging a batch leaves: the rows of other numbers as they were, and of the batch's
only acknowledged ones. -/
theorem ackBatch_spec (lane : Lane) (o : Outbox) (seqs : List ℕ) (ackedAt : Instant) :
    (ackBatch lane o seqs ackedAt).lastSeq = o.lastSeq ∧
      (∀ row ∈ (ackBatch lane o seqs ackedAt).rows, ∃ old ∈ o.rows,
        OutboxRow.delivery old = OutboxRow.delivery row ∧
          (row = old ∧ (row.ackedAt = none → ¬(row.lane = lane ∧ row.seq ∈ seqs)) ∨
            old.lane = lane ∧ old.seq ∈ seqs ∧ row.ackedAt ≠ none)) ∧
      ∀ row ∈ o.rows, ¬(row.lane = lane ∧ row.seq ∈ seqs) →
        row ∈ (ackBatch lane o seqs ackedAt).rows := by
  cases lane with
  | outbound =>
    refine ⟨rfl, ?_, ?_⟩
    · intro row held
      obtain ⟨old, stored, rfl⟩ := List.mem_map.mp held
      refine ⟨old, stored, ?_⟩
      split
      next mine => exact ⟨rfl, .inr ⟨mine.1, mine.2.1, Option.some_ne_none _⟩⟩
      next other => exact ⟨rfl, .inl ⟨rfl, fun none_ mine => other ⟨mine.1, mine.2, none_⟩⟩⟩
    · intro row held other
      refine List.mem_map.mpr ⟨row, held, if_neg ?_⟩
      rintro ⟨mine, sent, _⟩
      exact other ⟨mine, sent⟩
  | transcript =>
    refine ⟨rfl, ?_, ?_⟩
    · intro row held
      obtain ⟨old, kept, rfl⟩ := List.mem_map.mp held
      obtain ⟨stored, left⟩ := List.mem_filter.mp kept
      rw [decide_eq_true_iff] at left
      refine ⟨old, stored, ?_⟩
      split
      next mine => exact ⟨rfl, .inr ⟨mine.1, mine.2.1, Option.some_ne_none _⟩⟩
      next other =>
        refine ⟨rfl, .inl ⟨rfl, ?_⟩⟩
        rintro none_ ⟨mine, sent⟩
        cases final : old.entry.isFinal with
        | true => exact other ⟨mine, sent, final, none_⟩
        | false => exact left ⟨mine, sent, final⟩
    · intro row held other
      refine List.mem_map.mpr ⟨row, List.mem_filter.mpr ⟨held, ?_⟩, if_neg ?_⟩
      · rw [decide_eq_true_iff]
        rintro ⟨mine, sent, _⟩
        exact other ⟨mine, sent⟩
      · rintro ⟨mine, sent, _⟩
        exact other ⟨mine, sent⟩

theorem mem_carried {source : Outbox} {row : OutboxRow} :
    row ∈ source.laneRows .outbound ++ source.laneRows .transcript ↔ row ∈ source.rows := by
  rw [List.mem_append, Outbox.laneRows, Outbox.laneRows, List.mem_insertionSort,
    List.mem_insertionSort, List.mem_filter, List.mem_filter]
  cases lane : row.lane <;> simp

theorem largerCounter_getD (offered held : Option ℕ) :
    (largerCounter offered held).getD 0 = max (offered.getD 0) (held.getD 0) := by
  rcases offered with _ | offered
  · rw [largerCounter, Option.getD_none, Nat.zero_max]
  · rcases held with _ | held
    · rw [largerCounter, Option.getD_none, Nat.max_zero]
    · rw [largerCounter, Option.getD_some, Option.getD_some, Option.getD_some]
      split <;> omega

/-- A transfer copies every row and keeps the larger counters. -/
theorem carryOutboxRows_spec {source destination held : Outbox}
    (h : carryOutboxRows source destination = some held) :
    (∀ row, row ∈ held.rows ↔ row ∈ destination.rows ∨ row ∈ source.rows) ∧
      ∀ lane, count held lane = max (count source lane) (count destination lane) := by
  rw [carryOutboxRows] at h
  split at h
  · cases h
  · rw [← Option.some_inj.mp h]
    constructor
    · intro row
      rw [List.mem_append, mem_carried]
    · intro lane
      exact largerCounter_getD (source.lastSeq lane) (destination.lastSeq lane)

/-! ## The stores -/

/-- What is issued, delivered and stored, over every store of the runner. -/
structure Numbered (w : Fleet) : Prop where
  ordered : ∀ lane, (w.issued.filter (·.lane = lane)).Pairwise fun a b => a.seq < b.seq
  top : ∀ d ∈ w.issued, d.seq ≤ count w.here d.lane
  counts : ∀ s lane, count (w.stores s) lane ≤ count w.here lane
  known : ∀ s, ∀ row ∈ (w.stores s).rows, OutboxRow.delivery row ∈ w.issued
  heard : ∀ d ∈ w.hub, d ∈ w.issued
  acked : ∀ s, ∀ row ∈ (w.stores s).rows, row.ackedAt ≠ none → OutboxRow.delivery row ∈ w.hub
  waits : ∀ d ∈ w.issued, d ∈ w.hub ∨ ∃ s, Waits (w.stores s) d
  copies : ∀ s s', w.copied s = some s' → s ≠ s' ∧
    (∀ lane, count (w.stores s) lane ≤ count (w.stores s') lane) ∧
    ∀ d, Waits (w.stores s) d → d ∈ w.hub ∨ Waits (w.stores s') d

/-- Two issued under one number are one. -/
theorem Numbered.unique (n : Numbered w) {a b : Delivery} (ha : a ∈ w.issued) (hb : b ∈ w.issued)
    (lane : a.lane = b.lane) (seq : a.seq = b.seq) : a = b := by
  have inA : a ∈ w.issued.filter (·.lane = b.lane) :=
    List.mem_filter.mpr ⟨ha, decide_eq_true lane⟩
  have inB : b ∈ w.issued.filter (·.lane = b.lane) := List.mem_filter.mpr ⟨hb, decide_eq_true rfl⟩
  have distinct : ((w.issued.filter (·.lane = b.lane)).map (·.seq)).Nodup :=
    List.pairwise_map.mpr ((n.ordered b.lane).imp ne_of_lt)
  exact List.inj_on_of_nodup_map distinct inA inB seq

/-- A write at home that issues nothing. -/
theorem Numbered.ran (n : Numbered w) {after : Outbox} (settles : Settles w.hub w.here after) :
    Numbered (w.ran after) := by
  have here : (w.ran after).here = after := Function.update_self ..
  have same (lane : Lane) : count after lane = count w.here lane := by
    rw [count, settles.counts, count]
  have stored (s : StoreId) : (w.ran after).stores s = if s = w.home then after else w.stores s :=
    Function.update_apply ..
  refine ⟨n.ordered, ?_, ?_, ?_, n.heard, ?_, ?_, ?_⟩
  · intro d held
    rw [here, same]
    exact n.top d held
  · intro s lane
    rw [here, same, stored]
    split
    · exact (same lane).le
    · exact n.counts s lane
  · intro s row held
    rw [stored] at held
    split at held
    next =>
      obtain ⟨old, before, carries, _⟩ := settles.rows row held
      rw [← carries]
      exact n.known _ old before
    next => exact n.known s row held
  · intro s row held acked
    rw [stored] at held
    split at held
    next =>
      obtain ⟨old, before, carries, was⟩ := settles.rows row held
      rcases was acked with already | heard
      · rw [← carries]
        exact n.acked _ old before already
      · exact heard
    next => exact n.acked s row held acked
  · intro d held
    rcases n.waits d held with heard | ⟨s, waits⟩
    · exact .inl heard
    · by_cases home : s = w.home
      · subst home
        rcases settles.waits d waits with still | heard
        · refine .inr ⟨w.home, ?_⟩
          rw [stored, if_pos rfl]
          exact still
        · exact .inl heard
      · refine .inr ⟨s, ?_⟩
        rw [stored, if_neg home]
        exact waits
  · intro s s' copied
    have marks : (w.ran after).copied s = if s = w.home then none else w.copied s :=
      Function.update_apply ..
    rw [marks] at copied
    split at copied
    · cases copied
    next away =>
      obtain ⟨apart, counts, waits⟩ := n.copies s s' copied
      refine ⟨apart, ?_, ?_⟩
      · intro lane
        rw [stored, if_neg away, stored]
        split
        next home =>
          rw [same, Fleet.here, ← home]
          exact counts lane
        next => exact counts lane
      · intro d waiting
        rw [stored, if_neg away] at waiting
        rcases waits d waiting with heard | there
        · exact .inl heard
        · rw [stored]
          split
          next home =>
            rw [home] at there
            exact (settles.waits d there).symm
          next => exact .inr there

theorem issuedBy_eq {before after : Outbox} {added : List OutboxRow}
    (inserted : Inserted before after added) :
    issuedBy before after = added.map OutboxRow.delivery := by
  rw [issuedBy, inserted.rows, List.drop_left]

/-- A committed transaction issues numbers above every one of their lanes. -/
theorem Numbered.unit (n : Numbered w) {after : Outbox} {added : List OutboxRow}
    (inserted : Inserted w.here after added) :
    Numbered { w.ran after with issued := w.issued ++ issuedBy w.here after } := by
  rw [issuedBy_eq inserted]
  set w' : Fleet := { w.ran after with issued := w.issued ++ added.map OutboxRow.delivery } with hw'
  have stored (s : StoreId) : w'.stores s = if s = w.home then after else w.stores s :=
    Function.update_apply ..
  have here : w'.here = after := by
    rw [Fleet.here, stored]
    exact if_pos rfl
  have issued (d : Delivery) : d ∈ w'.issued ↔
      d ∈ w.issued ∨ ∃ row ∈ added, OutboxRow.delivery row = d := by
    rw [hw', List.mem_append, List.mem_map]
  have keeps (d : Delivery) (waiting : Waits w.here d) : Waits after d := by
    obtain ⟨row, held, rest⟩ := waiting
    refine ⟨row, ?_, rest⟩
    rw [inserted.rows]
    exact List.mem_append_left _ held
  refine ⟨?_, ?_, ?_, ?_, ?_, ?_, ?_, ?_⟩
  · intro lane
    rw [hw', List.filter_append, List.pairwise_append]
    refine ⟨n.ordered lane, ?_, ?_⟩
    · rw [List.filter_map, List.pairwise_map]
      exact inserted.rises lane
    · intro old hold new hnew
      obtain ⟨held, itsLane⟩ := List.mem_filter.mp hold
      obtain ⟨fresh, newLane⟩ := List.mem_filter.mp hnew
      obtain ⟨row, hrow, rfl⟩ := List.mem_map.mp fresh
      have low := n.top old held
      rw [of_decide_eq_true itsLane] at low
      have high := (inserted.above row hrow).1
      have same : row.lane = lane := of_decide_eq_true newLane
      rw [same] at high
      exact low.trans_lt high
  · intro d held
    rw [here]
    rcases (issued d).mp held with old | ⟨row, new, rfl⟩
    · exact (n.top d old).trans (inserted.counts _)
    · exact (inserted.above row new).2
  · intro s lane
    rw [here, stored]
    split
    · exact le_refl _
    · exact (n.counts s lane).trans (inserted.counts lane)
  · intro s row held
    rw [issued]
    rw [stored] at held
    split at held
    next =>
      rw [inserted.rows, List.mem_append] at held
      rcases held with old | new
      · exact .inl (n.known w.home row old)
      · exact .inr ⟨row, new, rfl⟩
    next => exact .inl (n.known s row held)
  · intro d held
    exact (issued d).mpr (.inl (n.heard d held))
  · intro s row held acked
    rw [stored] at held
    split at held
    next =>
      rw [inserted.rows, List.mem_append] at held
      rcases held with old | new
      · exact n.acked w.home row old acked
      · exact absurd (inserted.pending row new) acked
    next => exact n.acked s row held acked
  · intro d held
    rcases (issued d).mp held with old | ⟨row, new, carries⟩
    · rcases n.waits d old with heard | ⟨s, waiting⟩
      · exact .inl heard
      · refine .inr ⟨s, ?_⟩
        rw [stored]
        split
        next home =>
          rw [home] at waiting
          exact keeps d waiting
        next => exact waiting
    · refine .inr ⟨w.home, ?_⟩
      rw [stored, if_pos rfl]
      refine ⟨row, ?_, inserted.pending row new, carries⟩
      rw [inserted.rows]
      exact List.mem_append_right _ new
  · intro s s' copied
    have marks : w'.copied s = if s = w.home then none else w.copied s :=
      Function.update_apply ..
    rw [marks] at copied
    split at copied
    · cases copied
    next away =>
      obtain ⟨apart, counts, waits⟩ := n.copies s s' copied
      refine ⟨apart, ?_, ?_⟩
      · intro lane
        rw [stored, if_neg away, stored]
        split
        next home =>
          rw [home] at counts
          exact (counts lane).trans (inserted.counts lane)
        next => exact counts lane
      · intro d waiting
        rw [stored, if_neg away] at waiting
        rcases waits d waiting with heard | there
        · exact .inl heard
        · rw [stored]
          split
          next home =>
            rw [home] at there
            exact .inr (keeps d there)
          next => exact .inr there

theorem not_waits {o : Outbox} (empty : o.rows = []) (d : Delivery) : ¬Waits o d := by
  rintro ⟨row, held, _⟩
  rw [empty] at held
  cases held

/-- A copy into an empty store. -/
theorem Numbered.copy (n : Numbered w) {source destination : StoreId} {held : Outbox}
    (apart : source ≠ destination) (empty : (w.stores destination).rows = [])
    (carried : carryOutboxRows (w.stores source) (w.stores destination) = some held) :
    Numbered { w with
      stores := Function.update w.stores destination held
      copied := Function.update (Function.update w.copied destination none) source
        (some destination) } := by
  obtain ⟨rows, counts⟩ := carryOutboxRows_spec carried
  set w' : Fleet := { w with
    stores := Function.update w.stores destination held
    copied := Function.update (Function.update w.copied destination none) source
      (some destination) } with hw'
  have stored (s : StoreId) : w'.stores s = if s = destination then held else w.stores s :=
    Function.update_apply ..
  have same (lane : Lane) : count w'.here lane = count w.here lane := by
    rw [Fleet.here, stored]
    split
    next home =>
      have home : w.home = destination := home
      rw [counts, Fleet.here, ← home]
      exact max_eq_right (n.counts source lane)
    next => rfl
  have fromSource (row : OutboxRow) : row ∈ held.rows ↔ row ∈ (w.stores source).rows := by
    rw [rows, empty]
    simp
  have moved (d : Delivery) : Waits held d ↔ Waits (w.stores source) d := by
    constructor
    · rintro ⟨row, inside, rest⟩
      exact ⟨row, (fromSource row).mp inside, rest⟩
    · rintro ⟨row, inside, rest⟩
      exact ⟨row, (fromSource row).mpr inside, rest⟩
  refine ⟨n.ordered, ?_, ?_, ?_, n.heard, ?_, ?_, ?_⟩
  · intro d issued
    rw [same]
    exact n.top d issued
  · intro s lane
    rw [same, stored]
    split
    · rw [counts]
      exact max_le (n.counts _ lane) (n.counts _ lane)
    · exact n.counts s lane
  · intro s row inside
    rw [stored] at inside
    split at inside
    · exact n.known source row ((fromSource row).mp inside)
    · exact n.known s row inside
  · intro s row inside acked
    rw [stored] at inside
    split at inside
    · exact n.acked source row ((fromSource row).mp inside) acked
    · exact n.acked s row inside acked
  · intro d issued
    rcases n.waits d issued with heard | ⟨s, waiting⟩
    · exact .inl heard
    · refine .inr ⟨s, ?_⟩
      have other : s ≠ destination := by
        rintro rfl
        exact not_waits empty d waiting
      rw [stored, if_neg other]
      exact waiting
  · intro s s' copied
    by_cases fromHere : s = source
    · subst fromHere
      have mark : w'.copied s = some destination := Function.update_self ..
      rw [mark, Option.some_inj] at copied
      subst copied
      refine ⟨apart, ?_, ?_⟩
      · intro lane
        rw [stored, if_neg apart, stored, if_pos rfl, counts]
        exact le_max_left _ _
      · intro d waiting
        rw [stored, if_neg apart] at waiting
        rw [stored, if_pos rfl]
        exact .inr ((moved d).mpr waiting)
    · have mark : w'.copied s = if s = destination then none else w.copied s := by
        rw [hw']
        exact (Function.update_of_ne fromHere ..).trans (Function.update_apply ..)
      rw [mark] at copied
      split at copied
      · cases copied
      next other =>
        obtain ⟨apart', counts', waits⟩ := n.copies s s' copied
        refine ⟨apart', ?_, ?_⟩
        · intro lane
          rw [stored, if_neg other, stored]
          split
          next into =>
            rw [into] at counts'
            rw [counts]
            exact (counts' lane).trans (le_max_right _ _)
          next => exact counts' lane
        · intro d waiting
          rw [stored, if_neg other] at waiting
          rcases waits d waiting with heard | there
          · exact .inl heard
          · rw [stored]
            split
            next into =>
              rw [into] at there
              exact absurd there (not_waits empty d)
            next => exact .inr there

/-- The home moves to the store its rows were copied into. -/
theorem Numbered.move (n : Numbered w) {destination : StoreId}
    (copied : w.copied w.home = some destination) : Numbered { w with home := destination } := by
  obtain ⟨_, counts, _⟩ := n.copies w.home destination copied
  refine ⟨n.ordered, ?_, ?_, n.known, n.heard, n.acked, n.waits, n.copies⟩
  · intro d issued
    exact (n.top d issued).trans (counts d.lane)
  · intro s lane
    exact (n.counts s lane).trans (counts lane)

theorem forgets_eq {store s s' : StoreId} (h : w.forgets store s = some s') :
    s ≠ store ∧ s' ≠ store ∧ w.copied s = some s' := by
  rw [Fleet.forgets] at h
  split at h
  · cases h
  next other =>
    rw [not_or] at other
    refine ⟨other.1, ?_, h⟩
    rintro rfl
    exact other.2 h

/-- A reset moves a store's rows into an unused archive and keeps the store's counters. -/
theorem Numbered.reset (n : Numbered w) {store archive : StoreId} {held : Outbox}
    (apart : store ≠ archive) (away : archive ≠ w.home) (unused : Unused (w.stores archive))
    (carried : carryOutboxRows (w.stores store) (w.stores archive) = some held) :
    Numbered { w with
      stores := Function.update (Function.update w.stores archive held) store
        (removeRunnerRows (w.stores store) true)
      copied := { w with copied := w.forgets archive }.forgets store } := by
  obtain ⟨rows, counts⟩ := carryOutboxRows_spec carried
  set w' : Fleet := { w with
    stores := Function.update (Function.update w.stores archive held) store
      (removeRunnerRows (w.stores store) true)
    copied := { w with copied := w.forgets archive }.forgets store } with hw'
  have emptied : w'.stores store = removeRunnerRows (w.stores store) true :=
    Function.update_self ..
  have archived : w'.stores archive = held := by
    rw [hw']
    exact (Function.update_of_ne apart.symm ..).trans (Function.update_self ..)
  have others {s : StoreId} (h : s ≠ store) (h' : s ≠ archive) : w'.stores s = w.stores s := by
    rw [hw']
    exact (Function.update_of_ne h ..).trans (Function.update_of_ne h' ..)
  have kept (lane : Lane) : count (w'.stores store) lane = count (w.stores store) lane := by
    rw [emptied]
    rfl
  have same (lane : Lane) : count w'.here lane = count w.here lane := by
    by_cases home : w.home = store
    · have home' : w'.home = store := home
      rw [Fleet.here, home', kept, Fleet.here, home]
    · rw [Fleet.here, others home away.symm]
      rfl
  have fromStore (row : OutboxRow) : row ∈ held.rows ↔ row ∈ (w.stores store).rows := by
    rw [rows, unused.1]
    simp
  have cases (s : StoreId) : s = store ∨ s = archive ∨ s ≠ store ∧ s ≠ archive := by
    tauto
  refine ⟨n.ordered, ?_, ?_, ?_, n.heard, ?_, ?_, ?_⟩
  · intro d issued
    rw [same]
    exact n.top d issued
  · intro s lane
    rw [same]
    rcases cases s with rfl | rfl | ⟨h, h'⟩
    · rw [kept]
      exact n.counts s lane
    · rw [archived, counts]
      exact max_le (n.counts _ lane) (n.counts _ lane)
    · rw [others h h']
      exact n.counts s lane
  · intro s row inside
    rcases cases s with rfl | rfl | ⟨h, h'⟩
    · rw [emptied] at inside
      cases inside
    · rw [archived] at inside
      exact n.known store row ((fromStore row).mp inside)
    · rw [others h h'] at inside
      exact n.known s row inside
  · intro s row inside acked
    rcases cases s with rfl | rfl | ⟨h, h'⟩
    · rw [emptied] at inside
      cases inside
    · rw [archived] at inside
      exact n.acked store row ((fromStore row).mp inside) acked
    · rw [others h h'] at inside
      exact n.acked s row inside acked
  · intro d issued
    rcases n.waits d issued with heard | ⟨s, waiting⟩
    · exact .inl heard
    · rcases cases s with rfl | rfl | ⟨h, h'⟩
      · obtain ⟨row, inside, rest⟩ := waiting
        refine .inr ⟨archive, row, ?_, rest⟩
        rw [archived]
        exact (fromStore row).mpr inside
      · exact absurd waiting (not_waits unused.1 d)
      · refine .inr ⟨s, ?_⟩
        rw [others h h']
        exact waiting
  · intro s s' copied
    obtain ⟨h, h', copied⟩ := forgets_eq copied
    obtain ⟨g, g', copied⟩ := forgets_eq copied
    rw [others h g, others h' g']
    exact n.copies s s' copied

/-- The source of a finished copy loses its rows and its counters. -/
theorem Numbered.discard (n : Numbered w) {source : StoreId} (away : source ≠ w.home)
    (copied : w.copied source ≠ none) :
    Numbered { w with
      stores := Function.update w.stores source (removeRunnerRows (w.stores source) false)
      copied := w.forgets source } := by
  obtain ⟨destination, mark⟩ := Option.ne_none_iff_exists'.mp copied
  obtain ⟨apart, _, moved⟩ := n.copies source destination mark
  set w' : Fleet := { w with
    stores := Function.update w.stores source (removeRunnerRows (w.stores source) false)
    copied := w.forgets source } with hw'
  have emptied : w'.stores source = removeRunnerRows (w.stores source) false :=
    Function.update_self ..
  have others {s : StoreId} (h : s ≠ source) : w'.stores s = w.stores s :=
    Function.update_of_ne h ..
  have here : w'.here = w.here := others away.symm
  refine ⟨n.ordered, ?_, ?_, ?_, n.heard, ?_, ?_, ?_⟩
  · intro d issued
    rw [here]
    exact n.top d issued
  · intro s lane
    rw [here]
    by_cases h : s = source
    · rw [h, emptied]
      exact Nat.zero_le _
    · rw [others h]
      exact n.counts s lane
  · intro s row inside
    by_cases h : s = source
    · rw [h, emptied] at inside
      cases inside
    · rw [others h] at inside
      exact n.known s row inside
  · intro s row inside acked
    by_cases h : s = source
    · rw [h, emptied] at inside
      cases inside
    · rw [others h] at inside
      exact n.acked s row inside acked
  · intro d issued
    rcases n.waits d issued with heard | ⟨s, waiting⟩
    · exact .inl heard
    · by_cases h : s = source
      · subst h
        rcases moved d waiting with heard | there
        · exact .inl heard
        · refine .inr ⟨destination, ?_⟩
          rw [others apart.symm]
          exact there
      · refine .inr ⟨s, ?_⟩
        rw [others h]
        exact waiting
  · intro s s' copied
    obtain ⟨h, h', copied⟩ := forgets_eq copied
    rw [others h, others h']
    exact n.copies s s' copied

/-! ## Drains in flight -/

theorem takeWithin_leads (cap taken : ℕ) (rows : List OutboxRow) :
    takeWithin cap taken rows <+: rows := by
  induction rows generalizing taken with
  | nil => exact List.prefix_refl _
  | cons row rest ih =>
    rw [takeWithin]
    split
    · exact List.nil_prefix
    · exact List.prefix_cons_inj row |>.mpr (ih _)

theorem nextGroup_leads (cap : ℕ) (lane : Lane) (rows : List OutboxRow) :
    nextGroup cap lane rows <+: rows := by
  rcases rows with _ | ⟨row, rest⟩
  · simp [nextGroup]
  · cases lane with
    | outbound =>
      rw [nextGroup]
      split
      · exact List.prefix_cons_inj row |>.mpr List.nil_prefix
      · exact List.prefix_cons_inj row |>.mpr (List.takeWhile_prefix _)
    | transcript =>
      rw [nextGroup]
      exact List.prefix_cons_inj row |>.mpr (takeWithin_leads _ _ _)

/-- Rows a drain still handles: in order, and ahead of all else that waits at home. -/
structure InOrder (w : Fleet) (lane : Lane) (rows : List OutboxRow) : Prop where
  sorted : rows.Pairwise fun a b => a.seq ≤ b.seq
  own : ∀ row ∈ rows, row.lane = lane ∧ OutboxRow.delivery row ∈ w.issued
  ahead : ∀ row ∈ w.here.rows, row.lane = lane → row.ackedAt = none →
    (∃ r ∈ rows, r.seq = row.seq) ∨ ∀ r ∈ rows, r.seq < row.seq

/-- What was read stays in order while home gains only rows of higher numbers. -/
theorem InOrder.later {lane : Lane} {rows : List OutboxRow} (inOrder : InOrder w lane rows)
    {w' : Fleet} (issued : w.issued ⊆ w'.issued)
    (pending : ∀ row ∈ w'.here.rows, row.lane = lane → row.ackedAt = none →
      row ∈ w.here.rows ∨ ∀ d ∈ w.issued, d.lane = lane → d.seq < row.seq) :
    InOrder w' lane rows := by
  refine ⟨inOrder.sorted, ?_, ?_⟩
  · intro row held
    exact ⟨(inOrder.own row held).1, issued (inOrder.own row held).2⟩
  · intro row held mine none_
    rcases pending row held mine none_ with old | new
    · exact inOrder.ahead row old mine none_
    · right
      intro r hr
      obtain ⟨its, known⟩ := inOrder.own r hr
      exact new _ known its

def FlightSound (w : Fleet) (lane : Lane) : Option Flight → Prop
  | none => True
  | some (.walking rest) => InOrder w lane rest
  | some (.answered group rest) =>
    InOrder w lane (group ++ rest) ∧ ∀ row ∈ group, OutboxRow.delivery row ∈ w.hub

theorem FlightSound.later {lane : Lane} {flight : Option Flight}
    (sound : FlightSound w lane flight) {w' : Fleet} (issued : w.issued ⊆ w'.issued)
    (hub : w.hub ⊆ w'.hub)
    (pending : ∀ row ∈ w'.here.rows, row.lane = lane → row.ackedAt = none →
      row ∈ w.here.rows ∨ ∀ d ∈ w.issued, d.lane = lane → d.seq < row.seq) :
    FlightSound w' lane flight := by
  rcases flight with _ | rest | ⟨group, rest⟩
  · trivial
  · exact InOrder.later sound issued pending
  · exact ⟨sound.1.later issued pending, fun row held => hub (sound.2 row held)⟩

/-- What drains are in flight is no part of the numbers. -/
theorem Numbered.flying (n : Numbered w) (flight : Lane → Option Flight) :
    Numbered { w with flight } :=
  ⟨n.ordered, n.top, n.counts, n.known, n.heard, n.acked, n.waits, n.copies⟩

theorem FlightSound.flying {lane : Lane} {held : Option Flight} (sound : FlightSound w lane held)
    (flight : Lane → Option Flight) : FlightSound { w with flight } lane held :=
  sound.later (List.Subset.refl _) (List.Subset.refl _) fun _ inside _ _ => .inl inside

structure Sound (w : Fleet) : Prop where
  numbered : Numbered w
  flights : ∀ lane, FlightSound w lane (w.flight lane)

/-- A stopped host has no drain to answer for. -/
theorem Sound.of_still {w' : Fleet} (numbered : Numbered w') (still : w.Still)
    (same : w'.flight = w.flight) : Sound w' := by
  refine ⟨numbered, ?_⟩
  intro lane
  rw [same]
  cases lane with
  | outbound =>
    rw [still.1]
    trivial
  | transcript =>
    rw [still.2]
    trivial

theorem here_ran (w : Fleet) (after : Outbox) : (w.ran after).here = after :=
  Function.update_self ..

/-- A write at home that issues nothing keeps every drain in order. -/
theorem FlightSound.ran {lane : Lane} {flight : Option Flight} (sound : FlightSound w lane flight)
    {after : Outbox} (settles : Settles w.hub w.here after) :
    FlightSound (w.ran after) lane flight := by
  refine sound.later (List.Subset.refl _) (List.Subset.refl _) ?_
  intro row held _ none_
  rw [here_ran] at held
  exact .inl (settles.pending row held none_)

/-- A drain reads the lane's pending rows in order, as far as its limit. -/
theorem pending_inOrder (n : Numbered w) (lane : Lane) : InOrder w lane (w.here.pending lane) := by
  set all := (w.here.pendingRows lane).insertionSort fun a b => a.seq ≤ b.seq with hall
  have total : Std.Total fun a b : OutboxRow => a.seq ≤ b.seq := ⟨fun a b => le_total a.seq b.seq⟩
  have trans : IsTrans OutboxRow fun a b => a.seq ≤ b.seq := ⟨fun _ _ _ => le_trans⟩
  have sorted : all.Pairwise fun a b => a.seq ≤ b.seq := List.pairwise_insertionSort _ _
  have split := List.take_append_drop (drainLimit lane) all
  have mem (row : OutboxRow) : row ∈ all ↔
      row ∈ w.here.rows ∧ row.lane = lane ∧ row.ackedAt = none := by
    rw [hall, List.mem_insertionSort, Outbox.pendingRows, List.mem_filter, decide_eq_true_iff]
  rw [Outbox.pending, ← hall]
  refine ⟨sorted.sublist (List.take_sublist _ _), ?_, ?_⟩
  · intro row held
    obtain ⟨stored, mine, _⟩ := (mem row).mp (List.mem_of_mem_take held)
    exact ⟨mine, n.known w.home row stored⟩
  · intro row held mine none_
    have inside : row ∈ all := (mem row).mpr ⟨held, mine, none_⟩
    rw [← split, List.mem_append] at inside
    rcases inside with read | left
    · exact .inl ⟨row, read, rfl⟩
    · rw [← split, List.pairwise_append] at sorted
      have bounds (r : OutboxRow) (hr : r ∈ all.take (drainLimit lane)) : r.seq ≤ row.seq :=
        sorted.2.2 r hr row left
      by_cases same : ∃ r ∈ all.take (drainLimit lane), r.seq = row.seq
      · exact .inl same
      · right
        intro r hr
        exact lt_of_le_of_ne (bounds r hr) fun equal => same ⟨r, hr, equal⟩

/-- The rows of a group are those of its numbers in the lane. -/
theorem group_heard (n : Numbered w) {lane : Lane} {group rest : List OutboxRow}
    (inOrder : InOrder w lane (group ++ rest))
    (heard : ∀ row ∈ group, OutboxRow.delivery row ∈ w.hub) {row : OutboxRow}
    (held : row ∈ w.here.rows) (mine : row.lane = lane) (sent : row.seq ∈ group.map (·.seq)) :
    OutboxRow.delivery row ∈ w.hub := by
  obtain ⟨r, hr, seq⟩ := List.mem_map.mp sent
  obtain ⟨its, known⟩ := inOrder.own r (List.mem_append_left _ hr)
  have same : OutboxRow.delivery r = OutboxRow.delivery row :=
    n.unique known (n.known w.home row held) (its.trans mine.symm) seq
  rw [← same]
  exact heard r hr

theorem ack_settles (n : Numbered w) {lane : Lane} {group rest : List OutboxRow}
    (inOrder : InOrder w lane (group ++ rest))
    (heard : ∀ row ∈ group, OutboxRow.delivery row ∈ w.hub) (at_ : Instant) :
    Settles w.hub w.here (ackBatch lane w.here (group.map (·.seq)) at_) := by
  obtain ⟨counts, rows, kept⟩ := ackBatch_spec lane w.here (group.map (·.seq)) at_
  refine ⟨counts, ?_, ?_, ?_⟩
  · intro row held
    obtain ⟨old, stored, carries, change⟩ := rows row held
    refine ⟨old, stored, carries, ?_⟩
    intro acked
    rcases change with ⟨same, _⟩ | ⟨mine, sent, _⟩
    · rw [same] at acked
      exact .inl acked
    · rw [← carries]
      exact .inr (group_heard n inOrder heard stored mine sent)
  · rintro d ⟨row, held, none_, rfl⟩
    by_cases sent : row.lane = lane ∧ row.seq ∈ group.map (·.seq)
    · exact .inr (group_heard n inOrder heard held sent.1 sent.2)
    · exact .inl ⟨row, kept row held sent, none_, rfl⟩
  · intro row held none_
    obtain ⟨old, stored, _, change⟩ := rows row held
    rcases change with ⟨same, _⟩ | ⟨_, _, acked⟩
    · rw [same]
      exact stored
    · exact absurd none_ acked

theorem Numbered.hears (n : Numbered w) {new : List Delivery} (issued : ∀ d ∈ new, d ∈ w.issued)
    (flight : Lane → Option Flight) :
    Numbered { w with hub := w.hub ++ new, flight } := by
  have kept : w.hub ⊆ w.hub ++ new := List.subset_append_left _ _
  refine ⟨n.ordered, n.top, n.counts, n.known, ?_, ?_, ?_, ?_⟩
  · intro d held
    rcases List.mem_append.mp held with old | recent
    · exact n.heard d old
    · exact issued d recent
  · intro s row held acked
    exact kept (n.acked s row held acked)
  · intro d held
    exact (n.waits d held).imp_left fun heard => kept heard
  · intro s s' copied
    obtain ⟨apart, counts, waits⟩ := n.copies s s' copied
    exact ⟨apart, counts, fun d waiting => (waits d waiting).imp_left fun heard => kept heard⟩

/-- What a push hands the hub is a first part of what its drain handles. -/
theorem pushed_leads (cap : ℕ) (lane : Lane) (rest : List OutboxRow) (received : ℕ) (answered : Bool) :
    (if answered then nextGroup cap lane rest else (nextGroup cap lane rest).take received) <+:
      rest := by
  split
  · exact nextGroup_leads cap lane rest
  · exact (List.take_prefix _ _).trans (nextGroup_leads cap lane rest)

end Blizzard.OutboxOrder
