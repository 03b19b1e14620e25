import Blizzard.KeysetPaging
import Blizzard.EventsWindow

/-! # Paging through the events

From any position on, the passes read every marker and every drop once, in the
events order, at every limit, just where no two drops share a position: a cut
between two that do resumes past both. -/
namespace Blizzard.EventsPages
open HubTables SortedRanks BoundedMerges KeysetPaging EventsWindow

variable {corpus : EventsCorpus} {until_ : Instant} {version : Option String}
  {readLimit limit : ℕ} {since position : EventsPosition} {item : EventsItem}

/-- The markers and drops recorded by an instant. -/
def recorded (corpus : EventsCorpus) (until_ : Instant) (version : Option String) :
    List EventsItem :=
  (corpus.markers.filter fun row => decide (row.derivedAt ≤ until_) &&
    version.all fun version => decide (row.extractorVersion = version)).map
      (fun row => EventsItem.marker (marker row)) ++
  (corpus.drops.filter fun row => decide (row.droppedAt ≤ until_)).map
    fun row => EventsItem.drop (drop row)

/-- Those past a position. -/
def owed (corpus : EventsCorpus) (until_ : Instant) (version : Option String)
    (since : EventsPosition) : List EventsItem :=
  (recorded corpus until_ version).filter fun item => decide (since < positionOf item)

/-- The passes from a position to the one that takes nothing. -/
def pages (corpus : EventsCorpus) (until_ : Instant) (version : Option String)
    (readLimit limit fuel : ℕ) (since : EventsPosition) : Option (List (List EventsItem)) :=
  readBatches positionOf (eventsPass corpus until_ version readLimit limit) fuel since

/-- The passes end with every owed item told once, in order, whole in one batch; and a pass leaves
nothing out before the last item it takes. -/
structure Paged (corpus : EventsCorpus) (until_ : Instant) (version : Option String)
    (readLimit limit : ℕ) (since : EventsPosition) : Prop where
  complete : ∃ fuel batches, pages corpus until_ version readLimit limit fuel since = some batches ∧
    batches.flatten.Perm (owed corpus until_ version since) ∧
    (batches.flatten.Pairwise fun a b => positionOf a ≤ positionOf b) ∧
    ∀ item ∈ owed corpus until_ version since,
      (batches.filter fun batch => decide (item ∈ batch)).length = 1
  gapless : ∀ last, (eventsPass corpus until_ version readLimit limit since).getLast? = some last →
    ∀ item ∈ owed corpus until_ version since, positionOf item ≤ positionOf last →
      item ∈ eventsPass corpus until_ version readLimit limit since

/-- No two drops recorded by an instant share a time, segment and tenant. -/
def DropsApart (corpus : EventsCorpus) (until_ : Instant) : Prop :=
  ((corpus.drops.filter fun row => decide (row.droppedAt ≤ until_)).map fun row =>
    (row.droppedAt, row.segmentId, row.tenantId)).Nodup

/-! ## Positions -/

theorem position_lt_iff {p q : EventsPosition} : p < q ↔ p.order < q.order := Iff.rfl

theorem position_le_iff {p q : EventsPosition} : p ≤ q ↔ p.order ≤ q.order := Iff.rfl

theorem position_lt_cases {p q : EventsPosition} : p < q ↔ p.at_ < q.at_ ∨ p.at_ = q.at_ ∧
    (p.segmentId < q.segmentId ∨ p.segmentId = q.segmentId ∧
      (p.extractorVersion < q.extractorVersion ∨ p.extractorVersion = q.extractorVersion ∧
        (p.tenant.isNone < q.tenant.isNone ∨ p.tenant.isNone = q.tenant.isNone ∧
          p.tenant.getD "" < q.tenant.getD ""))) := by
  rw [position_lt_iff, EventsPosition.order, EventsPosition.order, Prod.Lex.toLex_lt_toLex,
    Prod.Lex.toLex_lt_toLex, Prod.Lex.toLex_lt_toLex, Prod.Lex.toLex_lt_toLex]

/-- No text is before the empty one. -/
theorem not_lt_empty (text : String) : ¬text < "" := by
  intro less
  rw [String.lt_iff_toList_lt] at less
  exact absurd less (List.not_lt_nil _)

theorem markerPast_iff (position : EventsPosition) (row : MarkerRow) :
    markerPast position row = true ↔ position < positionOf (.marker (marker row)) := by
  obtain ⟨at_, segment, version, tenant⟩ := position
  have notPast : ¬true < false := by decide
  rw [position_lt_cases]
  cases tenant with
  | none =>
    simp only [markerPast, positionOf, marker, Bool.or_eq_true, Bool.and_eq_true, decide_eq_true_eq,
      Option.isNone_none, Option.isNone_some, notPast, Bool.true_eq_false, false_and, or_false,
      and_false, eq_comm (a := at_), eq_comm (a := segment)]
  | some tenant =>
    simp only [markerPast, positionOf, marker, Bool.or_eq_true, Bool.and_eq_true, decide_eq_true_eq,
      Option.isNone_some, lt_irrefl, Option.getD_some, false_or, true_and, eq_comm (a := at_),
      eq_comm (a := segment), eq_comm (a := version)]
    tauto

/-- A drop's version comes before every other. -/
theorem dropPast_iff (position : EventsPosition) (row : DropRow) :
    dropPast position row = true ↔ position < positionOf (.drop (drop row)) := by
  obtain ⟨at_, segment, version, tenant⟩ := position
  have notPast : ¬true < false := by decide
  rw [position_lt_cases]
  cases tenant with
  | none =>
    simp only [dropPast, positionOf, drop, Bool.or_eq_true, Bool.and_eq_true, decide_eq_true_eq,
      Option.isNone_none, Option.isNone_some, notPast, Bool.true_eq_false, false_and, or_false,
      and_false, eq_comm (a := at_), not_lt_empty]
  | some tenant =>
    by_cases bare : version = ""
    · simp only [dropPast, positionOf, drop, bare, if_true, Bool.or_eq_true, Bool.and_eq_true,
        decide_eq_true_eq, Option.isNone_some, lt_irrefl, Option.getD_some, false_or, true_and,
        eq_comm (a := at_), eq_comm (a := segment)]
      tauto
    · simp only [dropPast, positionOf, drop, bare, if_false, Bool.or_eq_true, Bool.and_eq_true,
        decide_eq_true_eq, not_lt_empty, false_and, or_false, and_false, eq_comm (a := at_)]

/-! ## The reads as streams -/

/-- The markers past a position, in the events order. -/
def markerStream (corpus : EventsCorpus) (until_ : Instant) (version : Option String)
    (position : EventsPosition) : List EventsItem :=
  (ranked markerOrder (corpus.markers.filter fun row =>
    markerPast position row && decide (row.derivedAt ≤ until_) &&
      version.all fun version => decide (row.extractorVersion = version))).map
        fun row => EventsItem.marker (marker row)

/-- The drops past a position, in the events order. -/
def dropStream (corpus : EventsCorpus) (until_ : Instant) (position : EventsPosition) :
    List EventsItem :=
  (ranked dropOrder (corpus.drops.filter fun row =>
    dropPast position row && decide (row.droppedAt ≤ until_))).map
      fun row => EventsItem.drop (drop row)

theorem markersAfter_stream (corpus : EventsCorpus) (until_ : Instant) (version : Option String)
    (readLimit : ℕ) (position : EventsPosition) :
    (markersAfter corpus position until_ readLimit version).map EventsItem.marker =
      (markerStream corpus until_ version position).take readLimit := by
  rw [markersAfter, markerStream, List.map_map, List.map_take]
  rfl

theorem dropsAfter_stream (corpus : EventsCorpus) (until_ : Instant) (readLimit : ℕ)
    (position : EventsPosition) :
    (dropsAfter corpus position until_ readLimit).map EventsItem.drop =
      (dropStream corpus until_ position).take readLimit := by
  rw [dropsAfter, dropStream, List.map_map, List.map_take]
  rfl

/-- The two streams are what is owed past the position. -/
theorem streams_owed (corpus : EventsCorpus) (until_ : Instant) (version : Option String)
    (position : EventsPosition) :
    (markerStream corpus until_ version position ++ dropStream corpus until_ position).Perm
      (owed corpus until_ version position) := by
  rw [owed, recorded, List.filter_append, List.filter_map, List.filter_map, List.filter_filter,
    List.filter_filter]
  refine List.Perm.append (((ranked_perm _ _).map _).trans (.of_eq ?_))
    (((ranked_perm _ _).map _).trans (.of_eq ?_))
  · congr 1
    apply List.filter_congr
    intro row _
    rw [Bool.and_assoc]
    congr 1
    rw [Bool.eq_iff_iff, markerPast_iff]
    exact decide_eq_true_iff.symm
  · congr 1
    apply List.filter_congr
    intro row _
    congr 1
    rw [Bool.eq_iff_iff, dropPast_iff]
    exact decide_eq_true_iff.symm

theorem markerStream_sorted (corpus : EventsCorpus) (until_ : Instant) (version : Option String)
    (position : EventsPosition) : (markerStream corpus until_ version position).Pairwise
      fun a b => positionOf a < positionOf b := by
  rw [markerStream, List.pairwise_map]
  have sorted := ranked_sorted markerOrder (corpus.markers.filter fun row =>
    markerPast position row && decide (row.derivedAt ≤ until_) &&
      version.all fun version => decide (row.extractorVersion = version))
  have keys := ((ranked_perm markerOrder (corpus.markers.filter fun row =>
    markerPast position row && decide (row.derivedAt ≤ until_) &&
      version.all fun version => decide (row.extractorVersion = version))).map
        fun row => (row.tenantId, row.segmentId, row.extractorVersion)).nodup_iff.mpr
    (corpus.keyed.sublist (List.filter_sublist.map _))
  have apart := List.pairwise_map.mp keys
  refine (sorted.and apart).imp ?_
  intro a b both
  obtain ⟨le, differ⟩ := both
  have less : markerOrder a < markerOrder b := by
    refine lt_of_le_of_ne le fun same => differ ?_
    simp only [markerOrder, EmbeddingLike.apply_eq_iff_eq, Prod.mk.injEq] at same
    rw [same.2.1, same.2.2.1, same.2.2.2]
  simp only [markerOrder, Prod.Lex.toLex_lt_toLex] at less
  apply position_lt_cases.mpr
  rcases less with less | ⟨at_, less | ⟨segment, less | ⟨version, less⟩⟩⟩
  · exact .inl less
  · exact .inr ⟨at_, .inl less⟩
  · exact .inr ⟨at_, .inr ⟨segment, .inl less⟩⟩
  · exact .inr ⟨at_, .inr ⟨segment, .inr ⟨version, .inr ⟨rfl, less⟩⟩⟩⟩

theorem dropStream_sorted (apart : DropsApart corpus until_) (position : EventsPosition) :
    (dropStream corpus until_ position).Pairwise fun a b => positionOf a < positionOf b := by
  rw [dropStream, List.pairwise_map]
  have sorted := ranked_sorted dropOrder (corpus.drops.filter fun row =>
    dropPast position row && decide (row.droppedAt ≤ until_))
  have part : (corpus.drops.filter fun row => dropPast position row &&
      decide (row.droppedAt ≤ until_)).Sublist
        (corpus.drops.filter fun row => decide (row.droppedAt ≤ until_)) := by
    rw [← List.filter_filter]
    exact List.filter_sublist
  have keys := ((ranked_perm dropOrder (corpus.drops.filter fun row =>
    dropPast position row && decide (row.droppedAt ≤ until_))).map fun row =>
      (row.droppedAt, row.segmentId, row.tenantId)).nodup_iff.mpr (List.Nodup.sublist
        (part.map fun row : DropRow => (row.droppedAt, row.segmentId, row.tenantId)) apart)
  refine (sorted.and (List.pairwise_map.mp keys)).imp ?_
  intro a b both
  obtain ⟨le, differ⟩ := both
  apply position_lt_cases.mpr
  simp only [dropOrder, Prod.Lex.toLex_le_toLex] at le
  rcases le with less | ⟨at_, less | ⟨segment, less | ⟨tenant, -⟩⟩⟩
  · exact .inl less
  · exact .inr ⟨at_, .inl less⟩
  · exact .inr ⟨at_, .inr ⟨segment, .inr ⟨rfl, .inr ⟨rfl, less⟩⟩⟩⟩
  · exact absurd (by rw [at_, segment, tenant]) differ

/-! ## One pass -/

/-- A cut takes some of the merged items that are not past the bound, the first at the least. -/
theorem takeLoop_take (bound : Option EventsPosition) (limit : ℕ) (items : List EventsItem) :
    ∀ (taken : List EventsItem) (rows : ℕ), ∃ n, takeLoop bound limit taken rows items =
      taken ++ (items.takeWhile (within positionOf bound)).take n ∧ (taken = [] → 0 < n) := by
  induction items with
  | nil =>
    intro taken rows
    exact ⟨1, by simp [takeLoop], fun _ => Nat.one_pos⟩
  | cons item items ih =>
    intro taken rows
    rw [takeLoop]
    split
    · rename_i past
      have outside : within positionOf bound item = false := by
        cases bound with
        | none => cases past
        | some last =>
          have less : last < positionOf item := by simpa using past
          simpa [within] using less
      refine ⟨1, ?_, fun _ => Nat.one_pos⟩
      rw [List.takeWhile_cons_of_neg (by rw [outside]; exact Bool.false_ne_true), List.take_nil,
        List.append_nil]
    · rename_i notPast
      have inside : within positionOf bound item = true := by
        cases bound with
        | none => rfl
        | some last => simpa [within] using notPast
      split
      · rename_i cut
        exact ⟨0, by simp, fun empty => absurd empty cut.1⟩
      · obtain ⟨n, is, -⟩ := ih (taken ++ [item]) (rows + cost item)
        refine ⟨n + 1, ?_, fun _ => Nat.succ_pos n⟩
        rw [is, List.takeWhile_cons_of_pos inside, List.take_succ_cons, List.append_assoc]
        rfl

/-- A pass takes first items of the merge of its reads. -/
theorem eventsPass_take (corpus : EventsCorpus) (until_ : Instant) (version : Option String)
    (readLimit limit : ℕ) (position : EventsPosition) : ∃ n, 0 < n ∧
    eventsPass corpus until_ version readLimit limit position =
      (mergedReads positionOf readLimit (markerStream corpus until_ version position)
        (dropStream corpus until_ position)).take n := by
  rw [eventsPass, EventsWindow.take, markersAfter_stream, dropsAfter_stream]
  obtain ⟨n, is, pos⟩ := takeLoop_take
    (leastBound (fullBound positionOf readLimit
        ((markerStream corpus until_ version position).take readLimit))
      (fullBound positionOf readLimit ((dropStream corpus until_ position).take readLimit)))
    limit (merged positionOf ((markerStream corpus until_ version position).take readLimit)
      ((dropStream corpus until_ position).take readLimit)) [] 0
  exact ⟨n, pos rfl, is⟩

/-- What a pass takes is owed past its position. -/
theorem eventsPass_owed (mem : item ∈ eventsPass corpus until_ version readLimit limit position) :
    item ∈ owed corpus until_ version position := by
  obtain ⟨n, -, is⟩ := eventsPass_take corpus until_ version readLimit limit position
  rw [is] at mem
  have merges := (List.takeWhile_sublist _).subset (List.mem_of_mem_take mem)
  rw [(merged_perm _ _ _).mem_iff, List.mem_append] at merges
  rw [← (streams_owed corpus until_ version position).mem_iff, List.mem_append]
  exact merges.imp List.mem_of_mem_take List.mem_of_mem_take

/-! ## All passes -/

theorem recorded_apart (version : Option String) (apart : DropsApart corpus until_) :
    ((recorded corpus until_ version).map positionOf).Nodup := by
  rw [recorded, List.map_append, List.map_map, List.map_map]
  refine List.nodup_append.mpr ⟨?_, ?_, ?_⟩
  · have keys := corpus.keyed.sublist ((List.filter_sublist (l := corpus.markers)
      (p := fun row => decide (row.derivedAt ≤ until_) &&
        version.all fun version => decide (row.extractorVersion = version))).map _)
    refine List.pairwise_map.mpr ((List.pairwise_map.mp keys).imp ?_)
    intro a b differ same
    simp only [Function.comp_apply, positionOf, marker, EventsPosition.mk.injEq,
      Option.some.injEq] at same
    exact differ (by rw [same.2.1, same.2.2.1, same.2.2.2])
  · refine List.pairwise_map.mpr ((List.pairwise_map.mp apart).imp ?_)
    intro a b differ same
    simp only [Function.comp_apply, positionOf, drop, EventsPosition.mk.injEq,
      Option.some.injEq] at same
    exact differ (by rw [same.1, same.2.1, same.2.2.2])
  · intro p ofMarkers q ofDrops same
    obtain ⟨row, mem, rfl⟩ := List.mem_map.mp ofMarkers
    obtain ⟨row', -, rfl⟩ := List.mem_map.mp ofDrops
    simp only [Function.comp_apply, positionOf, marker, drop, EventsPosition.mk.injEq] at same
    exact corpus.versioned row (List.mem_filter.mp mem).1 same.2.2.1

/-- Every recorded item in the events order. -/
def inOrder (corpus : EventsCorpus) (until_ : Instant) (version : Option String) :
    List EventsItem :=
  ranked positionOf (recorded corpus until_ version)

theorem rowsAfter_owed (corpus : EventsCorpus) (until_ : Instant) (version : Option String)
    (position : EventsPosition) :
    (rowsAfter positionOf (inOrder corpus until_ version) (some position)).Perm
      (owed corpus until_ version position) :=
  (ranked_perm _ _).filter _

/-- Where no two drops share a position, a pass takes the first items owed. -/
theorem eventsPass_fetches (apart : DropsApart corpus until_) (version : Option String)
    (some_ : 0 < readLimit) (limit : ℕ) (position : EventsPosition) :
    ∃ n, eventsPass corpus until_ version readLimit limit position =
        (rowsAfter positionOf (inOrder corpus until_ version) (some position)).take n ∧
      (rowsAfter positionOf (inOrder corpus until_ version) (some position) ≠ [] → 0 < n) := by
  have sorted : (rowsAfter positionOf (inOrder corpus until_ version) (some position)).Pairwise
      fun a b => positionOf a < positionOf b :=
    (ranked_strict (recorded_apart version apart)).filter _
  have parts := (streams_owed corpus until_ version position).trans
    (rowsAfter_owed corpus until_ version position).symm
  have left := markerStream_sorted corpus until_ version position
  have right := dropStream_sorted apart position
  obtain ⟨n, pos, is⟩ := eventsPass_take corpus until_ version readLimit limit position
  have whole := mergedReads_eq some_ sorted left right parts
  have first := List.prefix_iff_eq_take.mp (whole ▸ List.takeWhile_prefix _)
  refine ⟨min n (mergedReads positionOf readLimit (markerStream corpus until_ version position)
    (dropStream corpus until_ position)).length, ?_, ?_⟩
  · rw [is, ← List.take_take, ← first]
  · intro more
    have some_read := mergedReads_some some_ sorted left right parts more
    exact lt_min pos (List.length_pos_iff.mpr some_read)

/-- Where no two drops share a position, the passes are complete from every position on. -/
theorem apart_pages (apart : DropsApart corpus until_) (version : Option String)
    (some_ : 0 < readLimit) (limit : ℕ) (since : EventsPosition) :
    Paged corpus until_ version readLimit limit since := by
  have sorted : (inOrder corpus until_ version).Pairwise fun a b => positionOf a < positionOf b :=
    ranked_strict (recorded_apart version apart)
  have sortedAfter : (rowsAfter positionOf (inOrder corpus until_ version) (some since)).Pairwise
      fun a b => positionOf a < positionOf b := sorted.filter _
  have owes := rowsAfter_owed corpus until_ version since
  constructor
  · obtain ⟨batches, read, flat, -⟩ := readBatches_reads sorted
      (eventsPass_fetches apart version some_ limit)
      (Nat.lt_succ_self (rowsAfter positionOf (inOrder corpus until_ version) (some since)).length)
    refine ⟨_, batches, read, flat ▸ owes, flat ▸ sortedAfter.imp le_of_lt, ?_⟩
    intro item mem
    apply batch_once
    · rw [flat]
      exact sortedAfter.imp fun less same => less.ne (congrArg positionOf same)
    · rw [flat]
      exact owes.mem_iff.mpr mem
  · intro last isLast item mem le
    obtain ⟨n, is, -⟩ := eventsPass_fetches apart version some_ limit since
    have ofLast := List.mem_of_getLast? isLast
    have inAfter := owes.mem_iff.mpr mem
    rw [is] at ofLast ⊢
    rw [← List.take_append_drop n (rowsAfter positionOf (inOrder corpus until_ version)
      (some since))] at inAfter sortedAfter
    rcases List.mem_append.mp inAfter with front | back
    · exact front
    · have less := (List.pairwise_append.mp sortedAfter).2.2 last ofLast item back
      exact absurd le (not_le_of_gt less)

/-! ## One row at a time -/

theorem one_le_cost (item : EventsItem) : 1 ≤ cost item := by
  cases item with
  | drop _ => exact le_rfl
  | marker marker => exact Nat.le_add_right 1 marker.eventCount

/-- At one row a batch, a cut takes one item. -/
theorem takeLoop_single (bound : Option EventsPosition) (items : List EventsItem) :
    ∀ (taken : List EventsItem) (rows : ℕ), taken.length ≤ 1 → (taken ≠ [] → 1 ≤ rows) →
      (takeLoop bound 1 taken rows items).length ≤ 1 := by
  induction items with
  | nil =>
    intro taken rows short _
    exact short
  | cons item items ih =>
    intro taken rows short counted
    have paid := one_le_cost item
    rw [takeLoop]
    split
    · exact short
    · split
      · exact short
      · rename_i room
        have none_ : taken = [] := by
          by_contra more
          have started := counted more
          exact room ⟨more, by omega⟩
        subst none_
        exact ih [item] (rows + cost item) le_rfl fun _ => by omega

theorem eventsPass_single (corpus : EventsCorpus) (until_ : Instant) (version : Option String)
    (readLimit : ℕ) (position : EventsPosition) :
    (eventsPass corpus until_ version readLimit 1 position).length ≤ 1 :=
  takeLoop_single _ _ [] 0 (Nat.zero_le 1) fun some_ => absurd rfl some_

/-- An instant before every drop. -/
theorem earlier_instant (drops : List DropRow) :
    ∃ start : Instant, ∀ row ∈ drops, start < row.droppedAt := by
  induction drops with
  | nil => exact ⟨0, by simp⟩
  | cons row rest ih =>
    obtain ⟨start, before⟩ := ih
    refine ⟨min start (row.droppedAt - 1), ?_⟩
    intro other mem
    rcases List.mem_cons.mp mem with rfl | later
    · exact lt_of_le_of_lt (min_le_right _ _) (Int.sub_one_lt_iff.mpr le_rfl)
    · exact lt_of_le_of_lt (min_le_left _ _) (before other later)

/-- Where the passes of one row are complete from before every drop, no two drops share a
position. -/
theorem pages_apart (complete : ∀ since, Paged corpus until_ version 1 1 since) :
    DropsApart corpus until_ := by
  obtain ⟨start, before⟩ := earlier_instant corpus.drops
  obtain ⟨fuel, batches, read, all, -, -⟩ := (complete { at_ := start }).complete
  have increases := (readBatches_increases
    (fun cursor row mem => of_decide_eq_true (List.mem_filter.mp (eventsPass_owed mem)).2)
    (eventsPass_single corpus until_ version 1) read).1
  have positions : ((owed corpus until_ version { at_ := start }).map positionOf).Nodup := by
    rw [← (all.map positionOf).nodup_iff]
    exact List.pairwise_map.mpr (increases.imp ne_of_lt)
  have drops : ((corpus.drops.filter fun row => decide (row.droppedAt ≤ until_)).map
      fun row => EventsItem.drop (drop row)).Sublist
        (owed corpus until_ version { at_ := start }) := by
    have kept : ((corpus.drops.filter fun row => decide (row.droppedAt ≤ until_)).map
        fun row => EventsItem.drop (drop row)).filter
          (fun item => decide (({ at_ := start } : EventsPosition) < positionOf item)) =
        (corpus.drops.filter fun row => decide (row.droppedAt ≤ until_)).map
          fun row => EventsItem.drop (drop row) := by
      apply List.filter_eq_self.mpr
      intro item mem
      obtain ⟨row, ofRows, rfl⟩ := List.mem_map.mp mem
      exact decide_eq_true (position_lt_cases.mpr
        (.inl (before row (List.mem_filter.mp ofRows).1)))
    rw [owed, recorded, List.filter_append, kept]
    exact List.sublist_append_right _ _
  have dropPositions := positions.sublist (drops.map positionOf)
  rw [List.map_map] at dropPositions
  refine List.pairwise_map.mpr ((List.pairwise_map.mp dropPositions).imp ?_)
  intro a b differ same
  apply differ
  simp only [Prod.mk.injEq] at same
  simp only [Function.comp_apply, positionOf, drop, same.1, same.2.1, same.2.2]

/-- The passes are complete at every limit and from every position just where no two drops recorded
by the pass's end share a time, a segment and a tenant. -/
theorem events_paged_iff_drops_apart (corpus : EventsCorpus) (until_ : Instant)
    (version : Option String) :
    (∀ readLimit limit, 0 < readLimit → 0 < limit → ∀ since,
      Paged corpus until_ version readLimit limit since) ↔ DropsApart corpus until_ := by
  constructor
  · intro complete
    exact pages_apart (complete 1 1 Nat.one_pos Nat.one_pos)
  · intro apart readLimit limit some_ _ since
    exact apart_pages apart version some_ limit since

/-- A segment's spawn dropped twice at one moment: the second drop stands at the first one's
position. -/
def droppedTwice : EventsCorpus where
  markers := []
  drops := [
    { id := 1, segmentId := "seg_1", chunkId := "ch_1", epoch := 1, spawnGeneration := 1,
      droppedAt := 10, tenantId := "default" },
    { id := 2, segmentId := "seg_1", chunkId := "ch_1", epoch := 1, spawnGeneration := 2,
      droppedAt := 10, tenantId := "default" }]
  keyed := by decide
  versioned := by simp

/-- Read one at a time, the second of two drops at one position is never told. -/
theorem tied_drop_lost : ¬∀ (corpus : EventsCorpus) (until_ : Instant) (version : Option String)
    (readLimit limit : ℕ), 0 < readLimit → 0 < limit → ∀ since,
      Paged corpus until_ version readLimit limit since := by
  intro complete
  have apart := pages_apart (complete droppedTwice 20 none 1 1 Nat.one_pos Nat.one_pos)
  exact absurd apart (by unfold DropsApart; decide +kernel)

end Blizzard.EventsPages
