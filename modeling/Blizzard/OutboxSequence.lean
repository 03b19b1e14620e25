import Blizzard.OutboxOrder

/-! # Outbox numbers from any start

Every event keeps the numbers sound, so no run issues one twice, prunes a row ahead of a pending one
or hands the hub a fact before an earlier one that waits at home. -/
namespace Blizzard.OutboxSequence
open HubTables OutboxLanes OutboxFleet OutboxOrder

variable {cap : ℕ} {w : Fleet}

theorem sound_start (home : StoreId) (clock : Instant) : Sound (Fleet.start home clock) := by
  constructor
  · constructor
    case ordered => exact fun _ => List.Pairwise.nil
    case counts => exact fun _ _ => le_refl _
    case top | heard | waits =>
      intro d held
      cases held
    case known | acked =>
      intro s row held
      cases held
    case copies =>
      intro s s' copied
      cases copied
  · exact fun _ => trivial

/-- The lane a step is about stands at the flight it leaves, the other as it was. -/
theorem flights_update {w' : Fleet} {lane : Lane} {flight : Option Flight}
    (others : ∀ other, FlightSound w' other (w.flight other)) (own : FlightSound w' lane flight)
    (other : Lane) : FlightSound w' other (Function.update w.flight lane flight other) := by
  rw [Function.update_apply]
  split
  next same =>
    rw [same]
    exact own
  next => exact others other

theorem walking_inOrder (sound : Sound w) {lane : Lane} {rest : List OutboxRow}
    (flying : w.flight lane = some (.walking rest)) : InOrder w lane rest := by
  have held := sound.flights lane
  rw [flying] at held
  exact held

theorem answered_inOrder (sound : Sound w) {lane : Lane} {group rest : List OutboxRow}
    (flying : w.flight lane = some (.answered group rest)) :
    InOrder w lane (group ++ rest) ∧ ∀ row ∈ group, OutboxRow.delivery row ∈ w.hub := by
  have held := sound.flights lane
  rw [flying] at held
  exact held

/-- A push adds to what the hub received and leaves its drain in order. -/
theorem sound_push (sound : Sound w) {lane : Lane} {rest : List OutboxRow}
    (flying : w.flight lane = some (.walking rest)) (received : ℕ) (answered : Bool) :
    Sound (w.step cap (.push lane received answered)) := by
  have inOrder := walking_inOrder sound flying
  set group := nextGroup cap lane rest with hgroup
  set new := (if answered then group else group.take received).map OutboxRow.delivery with hnew
  have known : ∀ d ∈ new, d ∈ w.issued := by
    intro d held
    obtain ⟨row, sent, rfl⟩ := List.mem_map.mp held
    exact (inOrder.own row ((pushed_leads cap lane rest received answered).subset sent)).2
  rw [Fleet.step, flying]
  dsimp only
  set next := if answered ∧ group ≠ [] then some (Flight.answered group (rest.drop group.length))
    else none with hnext
  set w' : Fleet := { w with
    hub := w.hub ++ new, flight := Function.update w.flight lane next } with hw'
  have grown : w.hub ⊆ w'.hub := List.subset_append_left _ _
  refine ⟨sound.numbered.hears known _, ?_⟩
  apply flights_update
  · intro other
    exact (sound.flights other).later (List.Subset.refl _) grown fun _ held _ _ => .inl held
  · rw [hnext]
    split
    next reached =>
      obtain ⟨left, parts⟩ := nextGroup_leads cap lane rest
      have whole : group ++ rest.drop group.length = rest := by
        have parts : group ++ left = rest := parts
        rw [← parts, List.drop_left]
      refine ⟨?_, ?_⟩
      · rw [whole]
        exact inOrder.later (List.Subset.refl _) fun _ held _ _ => .inl held
      · intro row held
        apply List.mem_append_right
        rw [hnew, if_pos reached.1]
        exact List.mem_map_of_mem held
    next => trivial

/-- An acknowledged group leaves the rest of its drain in order. -/
theorem sound_ack (sound : Sound w) {lane : Lane} {group rest : List OutboxRow}
    (flying : w.flight lane = some (.answered group rest)) :
    Sound (w.step cap (.ack lane)) := by
  obtain ⟨inOrder, heard⟩ := answered_inOrder sound flying
  have settles := ack_settles sound.numbered inOrder heard w.clock
  obtain ⟨_, rows, _⟩ := ackBatch_spec lane w.here (group.map (·.seq)) w.clock
  rw [Fleet.step, flying]
  dsimp only
  set after := ackBatch lane w.here (group.map (·.seq)) w.clock with hafter
  refine ⟨(sound.numbered.ran settles).flying _, ?_⟩
  apply flights_update
  · exact fun other => ((sound.flights other).ran settles).flying _
  · refine ⟨(List.pairwise_append.mp inOrder.sorted).2.1, ?_, ?_⟩
    · intro row held
      exact inOrder.own row (List.mem_append_right _ held)
    · intro row held mine none_
      have held : row ∈ after.rows := by rwa [← here_ran w after]
      obtain ⟨old, stored, _, change⟩ := rows row held
      rcases change with ⟨rfl, unsent⟩ | ⟨_, _, acked⟩
      · rcases inOrder.ahead row stored mine none_ with ⟨r, hr, seq⟩ | above
        · rcases List.mem_append.mp hr with sent | left
          · have its : row.seq ∈ group.map (·.seq) := List.mem_map.mpr ⟨r, sent, seq⟩
            exact absurd ⟨mine, its⟩ (unsent none_)
          · exact .inl ⟨r, left, seq⟩
        · exact .inr fun r hr => above r (List.mem_append_right _ hr)
      · exact absurd none_ acked

theorem sound_unit (sound : Sound w) (entries : List Buffered) (commits : Bool) :
    Sound (w.step cap (.unit entries commits)) := by
  rw [Fleet.step]
  split
  next after inserts =>
    obtain ⟨added, inserted⟩ := insertAll_spec inserts
    split
    · refine ⟨sound.numbered.unit inserted, ?_⟩
      intro lane
      refine FlightSound.later (sound.flights lane) (List.subset_append_left _ _)
        (List.Subset.refl _) ?_
      intro row held mine _
      have held : row ∈ after.rows := by rwa [← here_ran w after]
      rw [inserted.rows, List.mem_append] at held
      rcases held with old | new
      · exact .inl old
      · right
        intro d issued its
        have low := sound.numbered.top d issued
        have high := (inserted.above row new).1
        rw [its] at low
        rw [mine] at high
        exact low.trans_lt high
    · exact sound
  next => exact sound

/-- Every event keeps the numbers of every store and every drain sound. -/
theorem sound_step (sound : Sound w) (event : Event) : Sound (w.step cap event) := by
  have numbered := sound.numbered
  cases event with
  | unit entries commits => exact sound_unit sound entries commits
  | tick elapsed =>
    exact ⟨⟨numbered.ordered, numbered.top, numbered.counts, numbered.known, numbered.heard,
      numbered.acked, numbered.waits, numbered.copies⟩, fun lane =>
        (sound.flights lane).later (List.Subset.refl _) (List.Subset.refl _)
          fun _ held _ _ => .inl held⟩
  | prune =>
    have settles := prune_settles w.hub w.here w.clock
    exact ⟨numbered.ran settles, fun lane => (sound.flights lane).ran settles⟩
  | drain lane =>
    rw [Fleet.step]
    split
    · have settles := Settles.refl w.hub w.here
      refine ⟨(numbered.ran settles).flying _, ?_⟩
      apply flights_update
      · exact fun other => ((sound.flights other).ran settles).flying _
      · have read : FlightSound w lane (some (.walking (w.here.pending lane))) :=
          pending_inOrder numbered lane
        exact (read.ran settles).flying _
    · exact sound
  | push lane received answered =>
    rcases flying : w.flight lane with _ | rest | ⟨group, rest⟩
    · rw [Fleet.step, flying]
      exact sound
    · exact sound_push sound flying received answered
    · rw [Fleet.step, flying]
      exact sound
  | ack lane =>
    rcases flying : w.flight lane with _ | rest | ⟨group, rest⟩
    · rw [Fleet.step, flying]
      exact sound
    · rw [Fleet.step, flying]
      exact sound
    · exact sound_ack sound flying
  | restart =>
    exact ⟨numbered.flying _, fun _ => trivial⟩
  | copy source destination =>
    rw [Fleet.step]
    split
    next allowed =>
      split
      next held carried =>
        exact .of_still (numbered.copy allowed.2.1 allowed.2.2 carried) allowed.1 rfl
      next => exact sound
    next => exact sound
  | move destination =>
    rw [Fleet.step]
    split
    next allowed => exact .of_still (numbered.move allowed.2) allowed.1 rfl
    next => exact sound
  | reset store archive =>
    rw [Fleet.step]
    split
    next allowed =>
      obtain ⟨still, apart, away, unused⟩ := allowed
      split
      next held carried => exact .of_still (numbered.reset apart away unused carried) still rfl
      next => exact sound
    next => exact sound
  | discard source =>
    rw [Fleet.step]
    split
    next allowed => exact .of_still (numbered.discard allowed.2.1 allowed.2.2) allowed.1 rfl
    next => exact sound

theorem sound_run (sound : Sound w) (events : List Event) : Sound (w.run cap events) := by
  induction events generalizing w with
  | nil => exact sound
  | cons event rest ih => exact ih (sound_step sound event)

/-! ## What a step removes and what it sends -/

/-- The steps an operator takes while the runner does not run. -/
def isTransfer : Event → Bool
  | .copy .. | .move _ | .reset .. | .discard _ => true
  | .unit .. | .tick _ | .prune | .drain _ | .push .. | .ack _ | .restart => false

/-- The hub answered for a row: it is acknowledged, or of a group whose answer has arrived. -/
def Settled (w : Fleet) (row : OutboxRow) : Prop :=
  row.ackedAt ≠ none ∨ ∃ group rest, w.flight row.lane = some (.answered group rest) ∧
    row.seq ∈ group.map (·.seq)

/-- What a step of the runner deletes is settled, heard, and below all that is pending after it. -/
theorem removed (sound : Sound w) {event : Event} (running : isTransfer event = false)
    {row : OutboxRow} (held : row ∈ w.here.rows)
    (gone : ∀ kept ∈ (w.step cap event).here.rows,
      OutboxRow.delivery kept ≠ OutboxRow.delivery row) :
    Settled w row ∧ OutboxRow.delivery row ∈ w.hub ∧
      ∀ other ∈ (w.step cap event).here.rows, other.lane = row.lane → other.ackedAt = none →
        row.seq < other.seq := by
  have stays (same : (w.step cap event).here.rows = w.here.rows) : False := by
    rw [same] at gone
    exact gone row held rfl
  cases event with
  | unit entries commits =>
    rw [Fleet.step] at gone stays
    split at gone
    next after inserts =>
      obtain ⟨added, inserted⟩ := insertAll_spec inserts
      split at gone
      · refine absurd rfl (gone row ?_)
        have here : (w.ran after).here = after := here_ran w after
        have inside : row ∈ (w.ran after).here.rows := by
          rw [here, inserted.rows]
          exact List.mem_append_left _ held
        exact inside
      · exact absurd rfl (gone row held)
    next => exact absurd rfl (gone row held)
  | tick elapsed => exact (stays rfl).elim
  | prune =>
    have here : (w.step cap .prune).here = pruneOutbound w.here w.clock := here_ran w _
    rw [here] at gone ⊢
    have pruned' := pruned held fun kept => gone row kept rfl
    refine ⟨.inl pruned'.1, sound.numbered.acked w.home row held pruned'.1, ?_⟩
    intro other inside
    exact pruned'.2 other (mem_pruneOutbound.mp inside).1
  | drain lane =>
    apply (stays _).elim
    rw [Fleet.step]
    split
    · exact congrArg Outbox.rows (here_ran w w.here)
    · rfl
  | push lane received answered =>
    apply (stays _).elim
    rw [Fleet.step]
    split <;> rfl
  | ack lane =>
    rcases flying : w.flight lane with _ | rest | ⟨group, rest⟩
    · exact (stays (by rw [Fleet.step, flying])).elim
    · exact (stays (by rw [Fleet.step, flying])).elim
    · obtain ⟨inOrder, heard⟩ := answered_inOrder sound flying
      have here : (w.step cap (.ack lane)).here =
          ackBatch lane w.here (group.map (·.seq)) w.clock := by
        rw [Fleet.step, flying]
        exact here_ran w (ackBatch lane w.here (group.map (·.seq)) w.clock)
      rw [here] at gone ⊢
      obtain ⟨_, rows, kept⟩ := ackBatch_spec lane w.here (group.map (·.seq)) w.clock
      have ⟨mine, sent⟩ : row.lane = lane ∧ row.seq ∈ group.map (·.seq) := by
        by_contra other
        exact gone row (kept row held other) rfl
      refine ⟨.inr ⟨group, rest, mine ▸ flying, sent⟩,
        group_heard sound.numbered inOrder heard held mine sent, ?_⟩
      intro other inside its none_
      obtain ⟨old, stored, _, change⟩ := rows other inside
      rcases change with ⟨rfl, unsent⟩ | ⟨_, _, acked⟩
      · obtain ⟨r, hr, seq⟩ := List.mem_map.mp sent
        rcases inOrder.ahead other stored (its.trans mine) none_ with ⟨r', hr', seq'⟩ | above
        · rcases List.mem_append.mp hr' with early | left
          · exact absurd ⟨its.trans mine, List.mem_map.mpr ⟨r', early, seq'⟩⟩ (unsent none_)
          · have le := (List.pairwise_append.mp inOrder.sorted).2.2 r hr r' left
            rw [seq, seq'] at le
            apply lt_of_le_of_ne le
            intro same
            exact unsent none_ ⟨its.trans mine, same ▸ sent⟩
        · have lt := above r (List.mem_append_left _ hr)
          rwa [seq] at lt
      · exact absurd none_ acked
  | restart => exact (stays rfl).elim
  | copy source destination => cases running
  | move destination => cases running
  | reset store archive => cases running
  | discard source => cases running

/-- Whatever was issued before a delivery in its lane came before it, or waits away from home. -/
theorem sent_in_order (sound : Sound w) {lane : Lane} {rest sent left front back : List OutboxRow}
    {row : OutboxRow} (inOrder : InOrder w lane rest) (parts : sent ++ left = rest)
    (split : sent = front ++ row :: back) {d : Delivery} (issued : d ∈ w.issued)
    (mine : d.lane = lane) (before : d.seq < row.seq) :
    d ∈ w.hub ++ front.map OutboxRow.delivery ∨ ∃ s, s ≠ w.home ∧ Waits (w.stores s) d := by
  rcases sound.numbered.waits d issued with heard | ⟨s, waiting⟩
  · exact .inl (List.mem_append_left _ heard)
  · by_cases home : s = w.home
    · subst home
      obtain ⟨stored, held, none_, rfl⟩ := waiting
      have inside : row ∈ rest := by
        rw [← parts, split]
        simp
      rcases inOrder.ahead stored held mine none_ with ⟨r, hr, seq⟩ | above
      · have sorted := inOrder.sorted
        rw [← parts, split, List.append_assoc, List.pairwise_append] at sorted
        obtain ⟨_, tail, _⟩ := sorted
        rw [List.cons_append, List.pairwise_cons] at tail
        have its := inOrder.own r hr
        rw [← parts, split, List.append_assoc, List.cons_append, List.mem_append,
          List.mem_cons] at hr
        have low : r.seq < row.seq := by
          rw [seq]
          exact before
        rcases hr with early | rfl | late
        · have same : OutboxRow.delivery r = OutboxRow.delivery stored :=
            sound.numbered.unique its.2 issued (its.1.trans mine.symm) seq
          rw [← same]
          exact .inl (List.mem_append_right _ (List.mem_map_of_mem early))
        · exact absurd low (lt_irrefl _)
        · exact absurd low (not_lt.mpr (tail.1 r late))
      · exact absurd before (not_lt.mpr (above row inside).le)
    · exact .inr ⟨s, home, waiting⟩

/-- What a step hands the hub comes in order of the numbers. -/
theorem sends_in_order (sound : Sound w) (event : Event) :
    ∃ new, (w.step cap event).hub = w.hub ++ new ∧ ∀ front d back, new = front ++ d :: back →
      ∀ e ∈ w.issued, e.lane = d.lane → e.seq < d.seq →
        e ∈ w.hub ++ front ∨ ∃ s, s ≠ w.home ∧ Waits (w.stores s) e := by
  have quiet (same : (w.step cap event).hub = w.hub) :
      ∃ new, (w.step cap event).hub = w.hub ++ new ∧ ∀ front d back, new = front ++ d :: back →
        ∀ e ∈ w.issued, e.lane = d.lane → e.seq < d.seq →
          e ∈ w.hub ++ front ∨ ∃ s, s ≠ w.home ∧ Waits (w.stores s) e := by
    refine ⟨[], by rw [same, List.append_nil], ?_⟩
    intro front d back impossible
    simp at impossible
  cases event with
  | push lane received answered =>
    rcases flying : w.flight lane with _ | rest | ⟨group, rest⟩
    · exact quiet (by rw [Fleet.step, flying])
    · have inOrder := walking_inOrder sound flying
      obtain ⟨left, parts⟩ := pushed_leads cap lane rest received answered
      rw [Fleet.step, flying]
      refine ⟨_, rfl, ?_⟩
      intro front d back split
      obtain ⟨early, late, halves, rfl, tail⟩ := List.map_eq_append_iff.mp split
      obtain ⟨row, after, rfl, rfl, _⟩ := List.map_eq_cons_iff.mp tail
      intro e issued mine before
      have inside : row ∈ rest := by
        rw [← parts, halves]
        simp
      exact sent_in_order sound inOrder parts halves issued
        (mine.trans (inOrder.own row inside).1) before
    · exact quiet (by rw [Fleet.step, flying])
  | unit entries commits =>
    apply quiet
    rw [Fleet.step]
    split
    · split <;> rfl
    · rfl
  | tick elapsed => exact quiet rfl
  | prune => exact quiet rfl
  | drain lane =>
    apply quiet
    rw [Fleet.step]
    split <;> rfl
  | ack lane =>
    apply quiet
    rw [Fleet.step]
    split <;> rfl
  | restart => exact quiet rfl
  | copy source destination =>
    apply quiet
    rw [Fleet.step]
    split
    · split <;> rfl
    · rfl
  | move destination =>
    apply quiet
    rw [Fleet.step]
    split <;> rfl
  | reset store archive =>
    apply quiet
    rw [Fleet.step]
    split
    · split <;> rfl
    · rfl
  | discard source =>
    apply quiet
    rw [Fleet.step]
    split <;> rfl

def leaseMinted : Buffered := .fact "lease.minted" (some "ch_1") (some "ls_1") "{}"
def laterLease : Buffered := .fact "lease.minted" (some "ch_2") (some "ls_2") "{}"

/-- A fact is left pending in an archive, the runner runs on, and the archive is ingested back. -/
def archivedFact : List Event :=
  [.unit [leaseMinted] true, .reset "host.db" "host.db.rn", .unit [laterLease] true,
    .drain .outbound, .push .outbound 1 true, .ack .outbound, .restart,
    .reset "host.db" "host.db.rn2", .copy "host.db.rn" "host.db", .drain .outbound,
    .push .outbound 1 true]

end Blizzard.OutboxSequence
