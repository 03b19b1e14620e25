import Blizzard.QueueWrites
import Blizzard.TerminalAgreement

/-! # The order a ranking write leaves

What a write stores is read back as the order it returned: the chunks it moved
where they were asked to stand, every other member in its order before. -/
namespace Blizzard.QueueOrders
open HubTables StatusLadder FactLoading StatusCounts ChunkLevers SortedRanks FloatSlots QueueRanking
  QueueWrites

variable {q : QueueTables} {list : QueueList} {members others order : List Chunk}
  {chunk moving anchor : Chunk} {written positions : List (ChunkId × ℚ)} {chunkId : ChunkId}
  {at_ : Instant} {spent : ℚ → ℚ → Bool} {slot : Slot} {index : Option ℕ} {status : ChunkStatus}
  {ids : List ChunkId}

/-! ## The members -/

theorem getMany_nodup (q : QueueTables) (ids : List ChunkId) :
    ((getMany q ids).map (·.chunkId)).Nodup := by
  rw [getMany, List.map_map]
  exact q.tables.chunks.chunkId_unique.sublist (List.filter_sublist.map _)

theorem mem_getMany_id (mem : chunk ∈ getMany q ids) : chunk.chunkId ∈ ids := by
  obtain ⟨row, kept, rfl⟩ := List.mem_map.mp mem
  have pass := (List.mem_filter.mp kept).2
  rw [Bool.and_eq_true, decide_eq_true_eq] at pass
  exact pass.1

/-- A live status is the one the chunk's status facts derive. -/
theorem status_of_live (mem : (chunkId, status) ∈ loadLiveStatuses q.tables) :
    (chunkFacts q.tables allFamilies chunkId).status = status := by
  have entry := (List.mem_filter.mp mem).1
  obtain ⟨row, -, loaded⟩ := List.mem_filterMap.mp entry
  obtain ⟨facts, found, same⟩ := Option.map_eq_some_iff.mp loaded
  obtain ⟨rfl, rfl⟩ := Prod.mk.inj same
  rw [loadChunkFacts] at found
  split at found
  · obtain rfl := Option.some.inj found
    exact (status_chunkFacts_statusFamilies q.tables row.chunkId).symm
  · cases found

theorem status_of_listed (mem : chunk ∈ listedWithStatus q status) :
    (chunkFacts q.tables allFamilies chunk.chunkId).status = status := by
  obtain ⟨⟨id, found⟩, kept, same⟩ := List.mem_map.mp (mem_getMany_id mem)
  obtain ⟨live, is⟩ := List.mem_filter.mp kept
  obtain rfl : found = status := of_decide_eq_true is
  rw [← same]
  exact status_of_live live

theorem promoted_allFamilies (tables : Tables) (chunkId : ChunkId) :
    (chunkFacts tables allFamilies chunkId).promoted = currentlyPromoted tables chunkId := by
  show (decide (Family.promoted ∈ allFamilies) && currentlyPromoted tables chunkId) = _
  rw [show decide (Family.promoted ∈ allFamilies) = true by decide, Bool.true_and]

/-- A backlog member is not promoted. -/
theorem unpromoted_of_notReady {facts : ChunkFacts} (is : facts.status = .notReady) :
    facts.promoted = false := by
  unfold ChunkFacts.status ChunkFacts.statusWith at is
  split_ifs at is with _ _ _ _ _ free
  simp only [Bool.and_eq_true, Bool.not_eq_true'] at free
  exact free.1

/-- A ready chunk is promoted. -/
theorem promoted_of_ready {facts : ChunkFacts} (is : facts.status = .ready) :
    facts.promoted = true := by
  have unrouted := hasLiveRoute_eq_false_of_ready is
  unfold ChunkFacts.status ChunkFacts.statusWith at is
  split_ifs at is with _ _ _ _ _ free
  simpa [unrouted] using free

theorem currentlyPromoted_of_backlog (mem : chunk ∈ candidates q .notReady) :
    currentlyPromoted q.tables chunk.chunkId = false := by
  rw [← promoted_allFamilies]
  exact unpromoted_of_notReady (status_of_listed mem)

theorem mem_withheld (mem : chunkId ∈ withheldByPause q.tables) :
    (chunkFacts q.tables allFamilies chunkId).status = .paused ∧
      currentlyPromoted q.tables chunkId = true := by
  obtain ⟨named, pass⟩ := List.mem_filter.mp mem
  obtain ⟨⟨id, found⟩, kept, rfl⟩ := List.mem_map.mp named
  obtain ⟨live, is⟩ := List.mem_filter.mp kept
  obtain rfl : found = .paused := of_decide_eq_true is
  refine ⟨status_of_live live, ?_⟩
  obtain ⟨facts, loaded, ready⟩ := (Option.any_eq_true _ _).mp pass
  rw [loadChunkFacts] at loaded
  split at loaded
  · obtain rfl := Option.some.inj loaded
    have promoted := promoted_of_ready (of_decide_eq_true ready)
    exact promoted
  · cases loaded

theorem currentlyPromoted_of_readyMember (mem : chunk ∈ readyMembers q) :
    currentlyPromoted q.tables chunk.chunkId = true := by
  rcases List.mem_append.mp mem with listed | withheld
  · rw [← promoted_allFamilies]
    exact promoted_of_ready (status_of_listed listed)
  · exact (mem_withheld (mem_getMany_id withheld)).2

theorem candidates_nodup (q : QueueTables) (list : QueueList) :
    ((candidates q list).map (·.chunkId)).Nodup := getMany_nodup q _

theorem readyMembers_nodup (q : QueueTables) : ((readyMembers q).map (·.chunkId)).Nodup := by
  rw [readyMembers, List.map_append]
  refine (candidates_nodup q .ready).append (getMany_nodup q _) ?_
  intro id listed withheld
  obtain ⟨chunk, of, rfl⟩ := List.mem_map.mp listed
  obtain ⟨other, in_, same⟩ := List.mem_map.mp withheld
  have paused := (mem_withheld (mem_getMany_id in_)).1
  rw [same, status_of_listed of] at paused
  cases paused

/-! ## What is read back -/

theorem effective_record (q : QueueTables) (written : List (ChunkId × ℚ)) (at_ : Instant)
    (chunk : Chunk) :
    (readRanking (recordQueuePositions q written at_)).effectivePosition chunk =
      (newestPosition written chunk.chunkId).getD ((readRanking q).effectivePosition chunk) := by
  have rows : (written.map fun pair : ChunkId × ℚ =>
      (⟨pair.1, pair.2, at_⟩ : QueuePositionRow)).map (fun row => (row.chunkId, row.position)) =
      written := by
    rw [List.map_map]
    exact List.map_id _
  simp only [QueueRanking.effectivePosition, readRanking, recordQueuePositions, List.map_append,
    rows, newestPosition_append]
  cases newestPosition written chunk.chunkId <;> rfl

/-- No pair of a ranking write names a promoted chunk of the backlog, so none is dropped. -/
theorem writePositions_eq (unpromoted : list = .notReady →
    ∀ pair ∈ written, currentlyPromoted q.tables pair.1 = false) :
    writePositions q list written at_ = recordQueuePositions q written at_ := by
  cases list with
  | ready => rfl
  | notReady =>
    rw [writePositions, recordBacklogPositions, List.filter_eq_self.mpr]
    intro pair mem
    rw [unpromoted rfl pair mem]
    rfl

/-- Distinct members read the whole numbers written beside them back. -/
theorem map_of_written {old new : Chunk → ℚ} {whole : List ℚ}
    (nodup : (others.map (·.chunkId)).Nodup) (length : whole.length = others.length)
    (read : ∀ chunk ∈ others, new chunk =
      (newestPosition ((others.map (·.chunkId)).zip whole) chunk.chunkId).getD (old chunk)) :
    others.map new = whole := by
  have back := newestPosition_zip nodup (by rw [length, List.length_map])
  rw [List.map_map] at back
  apply List.map_injective_iff.mpr (Option.some_injective ℚ)
  rw [← back, List.map_map]
  apply List.map_congr_left
  intro chunk mem
  have found : newestPosition ((others.map (·.chunkId)).zip whole) chunk.chunkId ∈
      whole.map some := by
    rw [← back]
    exact List.mem_map_of_mem (f := newestPosition _ ∘ Chunk.chunkId) mem
  obtain ⟨p, -, same⟩ := List.mem_map.mp found
  simp only [Function.comp_apply, read chunk mem, ← same, Option.getD_some]

/-- The members read the positions of a renumbering back. -/
theorem standing_of_renumbered {old new : Chunk → ℚ} (nodup : (others.map (·.chunkId)).Nodup)
    (length : slot.renumbered = [] ∨ slot.renumbered.length = (others.map old).length)
    (read : ∀ chunk ∈ others, new chunk =
      (newestPosition ((others.map (·.chunkId)).zip slot.renumbered) chunk.chunkId).getD
        (old chunk)) :
    others.map new = slot.standing (others.map old) := by
  rcases length with unwritten | length
  · rw [Slot.standing, if_pos unwritten]
    apply List.map_congr_left
    intro chunk mem
    rw [read chunk mem, unwritten, List.zip_nil_right]
    rfl
  · rw [List.length_map] at length
    have back := map_of_written nodup length read
    by_cases empty : slot.renumbered = []
    · rw [empty] at length
      rw [List.length_eq_zero_iff.mp length.symm, Slot.standing, if_pos empty]
      rfl
    · rw [Slot.standing, if_neg empty, back]

/-- The members read a landing's positions back, past the moved chunk's own. -/
theorem standing_of_written {old new : Chunk → ℚ} (nodup : (others.map (·.chunkId)).Nodup)
    (fresh : moving.chunkId ∉ others.map (·.chunkId))
    (length : slot.renumbered = [] ∨ slot.renumbered.length = (others.map old).length)
    (read : ∀ chunk ∈ others, new chunk = (newestPosition
      ((others.map (·.chunkId)).zip slot.renumbered ++ [(moving.chunkId, slot.position)])
      chunk.chunkId).getD (old chunk)) :
    others.map new = slot.standing (others.map old) := by
  apply standing_of_renumbered nodup length
  intro chunk mem
  have apart : moving.chunkId ≠ chunk.chunkId :=
    fun same => fresh (same ▸ List.mem_map_of_mem mem)
  have none_ : newestPosition [(moving.chunkId, slot.position)] chunk.chunkId = none := by
    simp [newestPosition, apart]
  rw [read chunk mem, newestPosition_append, none_, Option.none_or]

/-! ## Where a landing stands -/

/-- Where a moved chunk is asked to stand. -/
inductive Spot | top | after (anchor : Chunk) | tail

/-- The order is the others' own, with the moved chunk at the spot. -/
def Placed (moving : Chunk) (others order : List Chunk) : Spot → Prop
  | .top => order = moving :: others
  | .after anchor => ∃ front back, others = front ++ anchor :: back ∧
      order = front ++ anchor :: moving :: back
  | .tail => order = others ++ [moving]

def spotOf : Option Chunk → Spot
  | none => .top
  | some anchor => .after anchor

theorem placed_beside (moving : Chunk) {beside : Option Chunk} (mem : ∀ a, beside = some a → a ∈ others)
    (nodup : (others.map (·.chunkId)).Nodup) :
    Placed moving others (others.take (place (QueueRanking.indexOf others beside)) ++
      moving :: others.drop (place (QueueRanking.indexOf others beside))) (spotOf beside) ∧
    ∀ i, QueueRanking.indexOf others beside = some i → i < others.length := by
  cases beside with
  | none => exact ⟨rfl, by simp [QueueRanking.indexOf]⟩
  | some anchor =>
    have of := mem anchor rfl
    obtain ⟨i, at_⟩ : ∃ i, others.findIdx (fun chunk => decide (chunk.chunkId = anchor.chunkId)) = i :=
      ⟨_, rfl⟩
    have below : i < others.length := at_ ▸ List.findIdx_lt_length_of_exists ⟨anchor, of, by simp⟩
    have here : others[i] = anchor := by
      subst at_
      have found := List.findIdx_getElem (w := below)
      exact List.inj_on_of_nodup_map nodup (List.getElem_mem below) of (of_decide_eq_true found)
    simp only [QueueRanking.indexOf, Option.map_some, at_, place, Option.some.injEq]
    refine ⟨⟨others.take i, others.drop (i + 1), ?_, ?_⟩, ?_⟩
    · rw [← here, ← List.drop_eq_getElem_cons below, List.take_append_drop]
    · rw [List.take_add_one, List.getElem?_eq_getElem below, here]
      simp
    · rintro _ rfl
      exact below

/-- A landing found among ranked others, once written, is read back in its place. -/
theorem landed_in_place {ranking : QueueRanking} {beside : Option Chunk} (gap : GapTest spent 0) (nodup : (members.map (·.chunkId)).Nodup)
    (perm : (moving :: others).Perm members)
    (sorted : others.Pairwise fun a b => ranking.key a ≤ ranking.key b)
    (mem : ∀ a, beside = some a → a ∈ others) :
    ∃ landing, ranking.landAfter spent others beside = some landing ∧
      (∀ pair ∈ landing.renormalized, ∃ chunk ∈ others, pair.1 = chunk.chunkId) ∧
      ∀ after : QueueRanking,
        (∀ chunk ∈ moving :: others, after.effectivePosition chunk =
          (newestPosition (landing.renormalized ++ [(moving.chunkId, landing.position)])
            chunk.chunkId).getD (ranking.effectivePosition chunk)) →
        after.ordered members = others.take (place (QueueRanking.indexOf others beside)) ++
          moving :: others.drop (place (QueueRanking.indexOf others beside)) := by
  have ids := (perm.map (·.chunkId)).nodup_iff.mpr nodup
  obtain ⟨fresh, distinct⟩ := List.nodup_cons.mp ids
  obtain ⟨-, within⟩ := placed_beside moving mem distinct
  have rising : (others.map ranking.effectivePosition).Pairwise (· ≤ ·) := by
    rw [List.pairwise_map]
    exact sorted.imp position_le_of_key_le
  have bounded : ∀ i, QueueRanking.indexOf others beside = some i →
      i < (others.map ranking.effectivePosition).length := by
    intro i same
    rw [List.length_map]
    exact within i same
  obtain ⟨slot, found, lands⟩ := landAfter_lands gap rising bounded
  refine ⟨_, by rw [QueueRanking.landAfter, found]; rfl, ?_, ?_⟩
  · intro pair of
    obtain ⟨chunk, in_, same⟩ := List.mem_map.mp (List.of_mem_zip of).1
    exact ⟨chunk, in_, same.symm⟩
  · intro after read
    refine ordered_landed sorted lands ?_ ?_ perm nodup
    · refine standing_of_written distinct fresh ?_
        fun chunk of => read chunk (List.mem_cons_of_mem _ of)
      exact lands.renumbered.imp id And.left
    · rw [read moving List.mem_cons_self, newestPosition_append]
      simp [newestPosition]

/-! ## Replacing the order -/

theorem member_of_mem (nodup : (members.map (·.chunkId)).Nodup) (mem : chunk ∈ members) :
    member members chunk.chunkId = some chunk := by
  cases found : member members chunk.chunkId with
  | none =>
    have none_ := List.find?_eq_none.mp found chunk mem
    simp at none_
  | some other =>
    have same := of_decide_eq_true (List.find?_some (p := fun c : Chunk =>
      decide (c.chunkId = chunk.chunkId)) found)
    rw [List.inj_on_of_nodup_map nodup (List.mem_of_find?_eq_some found) mem same]

theorem member_some (found : member members chunkId = some chunk) :
    chunk ∈ members ∧ chunk.chunkId = chunkId :=
  ⟨List.mem_of_find?_eq_some found, of_decide_eq_true (List.find?_some
    (p := fun c : Chunk => decide (c.chunkId = chunkId)) found)⟩

/-- The named members' ids, read off the members the names find. -/
theorem named_ids {named : List ChunkId} (within : ∀ id ∈ named, id ∈ members.map (·.chunkId)) :
    (named.filterMap (member members)).map (·.chunkId) = named := by
  induction named with
  | nil => rfl
  | cons id named ih =>
    obtain ⟨chunk, mem, same⟩ := List.mem_map.mp (within id List.mem_cons_self)
    have rest := ih fun id mem => within id (List.mem_cons_of_mem _ mem)
    cases found : member members id with
    | none =>
      have none_ := List.find?_eq_none.mp found chunk mem
      simp [same] at none_
    | some other =>
      rw [List.filterMap_cons, found]
      simp only [List.map_cons, rest, (member_some found).2]

/-- A replacement puts the named members first and keeps the others in line. -/
theorem replacementOrder_ok (list : QueueList) (statuses : Statuses) {named : List ChunkId}
    (nodup : (members.map (·.chunkId)).Nodup) (distinct : named.Nodup)
    (within : ∀ id ∈ named, id ∈ members.map (·.chunkId)) :
    ∃ order, replacementOrder list members named statuses = .ok order ∧ order.Perm members ∧
      order.map (·.chunkId) =
        named ++ (members.map (·.chunkId)).filter fun id => decide (id ∉ named) := by
  have all : named.find? (fun id => (member members id).isNone) = none := by
    apply List.find?_eq_none.mpr
    intro id mem
    obtain ⟨chunk, of, rfl⟩ := List.mem_map.mp (within id mem)
    simp [member_of_mem nodup of]
  refine ⟨_, by rw [replacementOrder, if_neg (not_not.mpr distinct), all], ?_, ?_⟩
  · have ids : ((named.filterMap (member members) ++ members.filter fun chunk =>
        decide (chunk.chunkId ∉ named)).map (·.chunkId)).Nodup := by
      rw [List.map_append, named_ids within]
      refine distinct.append (nodup.sublist (List.filter_sublist.map _)) ?_
      intro id first last
      obtain ⟨chunk, kept, rfl⟩ := List.mem_map.mp last
      exact of_decide_eq_true (List.mem_filter.mp kept).2 first
    apply (List.perm_ext_iff_of_nodup ids.of_map nodup.of_map).mpr
    intro chunk
    constructor
    · intro mem
      rcases List.mem_append.mp mem with first | last
      · obtain ⟨id, -, found⟩ := List.mem_filterMap.mp first
        exact (member_some found).1
      · exact (List.mem_filter.mp last).1
    · intro mem
      by_cases is : chunk.chunkId ∈ named
      · exact List.mem_append_left _ (List.mem_filterMap.mpr ⟨_, is, member_of_mem nodup mem⟩)
      · exact List.mem_append_right _ (List.mem_filter.mpr ⟨mem, decide_eq_true is⟩)
  · rw [List.map_append, named_ids within, List.filter_map]
    rfl

/-- An order numbered from the front is read back. -/
theorem ordered_of_numbered (nodup : (members.map (·.chunkId)).Nodup) (perm : order.Perm members) :
    (readRanking (recordQueuePositions q (order.zipIdx.map fun entry =>
      (entry.1.chunkId, (entry.2 : ℚ))) at_)).ordered members = order := by
  have numbered : (order.zipIdx.map fun entry => (entry.1.chunkId, (entry.2 : ℚ))) =
      (order.map (·.chunkId)).zip (renumbered order.length 0) := by
    apply List.ext_getElem?
    intro i
    by_cases below : i < order.length
    · simp [below, renumbered]
    · rw [List.getElem?_eq_none (by simp; omega), List.getElem?_eq_none (by simp; omega)]
  have distinct : (order.map (·.chunkId)).Nodup := (perm.map (·.chunkId)).nodup_iff.mpr nodup
  have strict := renumbered_sorted order.length 0
  have positions := map_of_written distinct (renumbered_length order.length 0)
    fun chunk _ => effective_record q ((order.map (·.chunkId)).zip (renumbered order.length 0)) at_
      chunk
  rw [numbered]
  apply ordered_eq nodup perm
  rw [← positions, List.pairwise_map] at strict
  exact strict.imp key_le_of_lt

theorem ordered_perm (q : QueueTables) (list : QueueList) :
    (ordered q list).Perm (candidates q list) :=
  ranked_perm _ _

theorem ordered_nodup (q : QueueTables) (list : QueueList) :
    ((ordered q list).map (·.chunkId)).Nodup :=
  ((ordered_perm q list).map (·.chunkId)).nodup_iff.mpr (candidates_nodup q list)

/-- A ranking write of members' positions drops none of them. -/
theorem writePositions_members {q : QueueTables} {list : QueueList}
    (of : ∀ pair ∈ written, ∃ chunk ∈ candidates q list, pair.1 = chunk.chunkId) :
    writePositions q list written at_ = recordQueuePositions q written at_ := by
  apply writePositions_eq
  rintro rfl pair mem
  obtain ⟨chunk, in_, same⟩ := of pair mem
  rw [same]
  exact currentlyPromoted_of_backlog in_

/-- A reorder's order is read back: the named members first, every other in its order before. -/
theorem reorder_stands (q : QueueTables) (list : QueueList) {named : List ChunkId} (at_ : Instant)
    (distinct : named.Nodup) (within : ∀ id ∈ named, id ∈ (candidates q list).map (·.chunkId)) :
    ∃ order q', reorder q list named at_ = .ok (order, q') ∧
      ordered q' list = order.ordered ∧ order.ordered.Perm (candidates q list) ∧
      order.ordered.map (·.chunkId) =
        named ++ ((ordered q list).map (·.chunkId)).filter fun id => decide (id ∉ named) := by
  have same := ordered_perm q list
  obtain ⟨order, replaced, perm, ids⟩ := replacementOrder_ok list (loadLiveStatuses q.tables)
    (ordered_nodup q list) distinct
    fun id mem => (same.map (·.chunkId)).mem_iff.mpr (within id mem)
  have members := perm.trans same
  refine ⟨⟨order, loadLiveStatuses q.tables⟩, _, by simp only [reorder, replaced]; rfl, ?_, members,
    ids⟩
  rw [writePositions_members]
  · exact ordered_of_numbered (candidates_nodup q list) members
  · intro pair mem
    obtain ⟨⟨chunk, i⟩, entry, rfl⟩ := List.mem_map.mp mem
    exact ⟨chunk, members.mem_iff.mp (List.fst_mem_of_mem_zipIdx entry), rfl⟩

/-- The members other than one, ranked on their own, stand as they do among all. -/
theorem ordered_filter (q : QueueTables) (list : QueueList) (chunkId : ChunkId) :
    (readRanking q).ordered ((candidates q list).filter fun chunk =>
      decide (chunk.chunkId ≠ chunkId)) =
    (ordered q list).filter fun chunk => decide (chunk.chunkId ≠ chunkId) := by
  apply ordered_eq ((candidates_nodup q list).sublist (List.filter_sublist.map _))
  · exact (ordered_perm q list).filter _
  · exact (ranked_sorted _ _).sublist List.filter_sublist

theorem perm_cons_filter (nodup : (members.map (·.chunkId)).Nodup) (mem : moving ∈ members) :
    (moving :: members.filter fun chunk => decide (chunk.chunkId ≠ moving.chunkId)).Perm
      members := by
  have fresh : moving ∉ members.filter fun chunk => decide (chunk.chunkId ≠ moving.chunkId) := by
    intro kept
    exact of_decide_eq_true (List.mem_filter.mp kept).2 rfl
  apply (List.perm_ext_iff_of_nodup
    (List.nodup_cons.mpr ⟨fresh, nodup.of_map.filter _⟩) nodup.of_map).mpr
  intro chunk
  rw [List.mem_cons, List.mem_filter, decide_eq_true_eq]
  constructor
  · rintro (rfl | ⟨of, -⟩)
    · exact mem
    · exact of
  · intro of
    by_cases same : chunk.chunkId = moving.chunkId
    · exact .inl (List.inj_on_of_nodup_map nodup of mem same)
    · exact .inr ⟨of, same⟩

/-- A repositioned chunk is read back right after its anchor, at the top with none, and every other
member in its order before. -/
theorem reposition_stands (gap : GapTest spent 0) (q : QueueTables) (list : QueueList)
    (at_ : Instant) (mem : moving ∈ candidates q list) {beside : Option Chunk}
    (of : ∀ a, beside = some a → a ∈ candidates q list ∧ a.chunkId ≠ moving.chunkId) :
    ∃ order q', reposition spent q list moving.chunkId (beside.map (·.chunkId)) at_ =
        .ok (order, q') ∧
      ordered q' list = order.ordered ∧ order.ordered.Perm (candidates q list) ∧
      Placed moving ((ordered q list).filter fun chunk => decide (chunk.chunkId ≠ moving.chunkId))
        order.ordered (spotOf beside) := by
  have resolved : resolveMove list (candidates q list) moving.chunkId
      (beside.map (·.chunkId)) (loadLiveStatuses q.tables) = .ok (moving, beside) := by
    cases beside with
    | none =>
      rw [resolveMove, if_neg (by simp), member_of_mem (candidates_nodup q list) mem]
      rfl
    | some anchor =>
      obtain ⟨in_, apart⟩ := of anchor rfl
      rw [resolveMove, if_neg (by simpa using apart), member_of_mem (candidates_nodup q list) mem]
      simp only [Option.map_some, member_of_mem (candidates_nodup q list) in_]
  have perm : (moving :: (ordered q list).filter fun chunk =>
      decide (chunk.chunkId ≠ moving.chunkId)).Perm (candidates q list) :=
    (perm_cons_filter (ordered_nodup q list) ((ordered_perm q list).mem_iff.mpr mem)).trans
      (ordered_perm q list)
  have sorted : ((ordered q list).filter fun chunk =>
      decide (chunk.chunkId ≠ moving.chunkId)).Pairwise
        fun a b => (readRanking q).key a ≤ (readRanking q).key b :=
    (ranked_sorted _ _).sublist List.filter_sublist
  have among : ∀ a, beside = some a → a ∈ (ordered q list).filter fun chunk =>
      decide (chunk.chunkId ≠ moving.chunkId) := by
    intro a same
    obtain ⟨in_, apart⟩ := of a same
    exact List.mem_filter.mpr ⟨(ordered_perm q list).mem_iff.mpr in_, decide_eq_true apart⟩
  obtain ⟨landing, found, named, read⟩ :=
    landed_in_place gap (candidates_nodup q list) perm sorted among
  obtain ⟨placed, -⟩ := placed_beside moving among
    ((ordered_nodup q list).sublist (List.filter_sublist.map _))
  refine ⟨⟨_, loadLiveStatuses q.tables⟩, _, by
    simp only [reposition, resolved, ordered_filter, found]; rfl, ?_, ?_, placed⟩
  · rw [writePositions_members]
    · exact read _ fun chunk _ => effective_record q _ at_ chunk
    · intro pair in_
      rcases List.mem_append.mp in_ with renormalized | last
      · obtain ⟨chunk, of, same⟩ := named pair renormalized
        exact ⟨chunk, perm.mem_iff.mp (List.mem_cons_of_mem _ of), same⟩
      · obtain rfl := List.mem_singleton.mp last
        exact ⟨moving, mem, rfl⟩
  · refine List.perm_middle.trans ?_
    rw [List.take_append_drop]
    exact perm

/-! ## Entering a list -/

/-- Two states of the tables that differ in one chunk's promotion at most. -/
structure Elsewhere (chunkId : ChunkId) (tables tables' : Tables) : Prop where
  chunks : tables'.chunks = tables.chunks
  ephemeral : ∀ id, isEphemeralId tables' id = isEphemeralId tables id
  live : ∀ id, TerminalPredicates.maybeLive tables' id = TerminalPredicates.maybeLive tables id
  facts : ∀ other, other ≠ chunkId →
    loadChunkFacts tables' statusFamilies other = loadChunkFacts tables statusFamilies other
  promotedAts : ∀ other, other ≠ chunkId →
    currentlyPromoted tables' other = currentlyPromoted tables other ∧
      promotedInstants tables' other = promotedInstants tables other

/-- A chunk's facts but its promotion do not read the promotion tables. -/
theorem loadChunkFacts_promotion {tables tables' : Tables} {other : ChunkId}
    (same : currentlyPromoted tables' other = currentlyPromoted tables other)
    (rest : tables' = { tables with
      chunkPromoted := tables'.chunkPromoted, chunkDemoted := tables'.chunkDemoted }) :
    loadChunkFacts tables' statusFamilies other = loadChunkFacts tables statusFamilies other := by
  have facts : chunkFacts tables' statusFamilies other =
      { chunkFacts tables statusFamilies other with
        promoted := decide (Family.promoted ∈ statusFamilies) &&
          currentlyPromoted tables' other } := by
    rw [rest]
    rfl
  have loadable : isLoadable tables' other = isLoadable tables other := by
    rw [rest]
    rfl
  rw [loadChunkFacts, loadChunkFacts, loadable, facts, same]
  rfl

theorem elsewhere_promoted (tables : Tables) (chunkId : ChunkId) (now : Instant) :
    Elsewhere chunkId tables (insertPromoted tables chunkId now) := by
  have instants : ∀ other, other ≠ chunkId →
      promotedInstants (insertPromoted tables chunkId now) other = promotedInstants tables other := by
    intro other apart
    simp [promotedInstants, insertPromoted, apart.symm]
  have promoted : ∀ other, other ≠ chunkId →
      currentlyPromoted (insertPromoted tables chunkId now) other =
        currentlyPromoted tables other := by
    intro other apart
    rw [currentlyPromoted, instants other apart]
    rfl
  exact ⟨rfl, fun _ => rfl, fun _ => rfl,
    fun other apart => loadChunkFacts_promotion (promoted other apart) rfl,
    fun other apart => ⟨promoted other apart, instants other apart⟩⟩

theorem elsewhere_demoted (tables : Tables) (chunkId : ChunkId) (now : Instant) :
    Elsewhere chunkId tables (insertDemoted tables chunkId now) := by
  have instants : ∀ other, other ≠ chunkId →
      demotedInstants (insertDemoted tables chunkId now) other = demotedInstants tables other := by
    intro other apart
    simp [demotedInstants, insertDemoted, apart.symm]
  have promoted : ∀ other, other ≠ chunkId →
      currentlyPromoted (insertDemoted tables chunkId now) other =
        currentlyPromoted tables other := by
    intro other apart
    rw [currentlyPromoted, instants other apart]
    rfl
  exact ⟨rfl, fun _ => rfl, fun _ => rfl,
    fun other apart => loadChunkFacts_promotion (promoted other apart) rfl,
    fun other apart => ⟨promoted other apart, rfl⟩⟩

variable {q' : QueueTables} {other : Chunk}

theorem mem_live {tables : Tables} : (chunkId, status) ∈ loadLiveStatuses tables ↔
    (∃ row ∈ countedRows tables none, row.chunkId = chunkId) ∧
      TerminalPredicates.maybeLive tables chunkId = true ∧
      (loadChunkFacts tables statusFamilies chunkId).map (·.status) = some status ∧
      status ∉ terminalStatuses := by
  rw [loadLiveStatuses, List.mem_filter, maybeLiveStatuses, List.mem_filterMap]
  constructor
  · rintro ⟨⟨row, kept, loaded⟩, live⟩
    obtain ⟨counted, maybe⟩ := List.mem_filter.mp kept
    obtain ⟨facts, found, same⟩ := Option.map_eq_some_iff.mp loaded
    obtain ⟨rfl, rfl⟩ := Prod.mk.inj same
    exact ⟨⟨row, counted, rfl⟩, maybe, by rw [found]; rfl, of_decide_eq_true live⟩
  · rintro ⟨⟨row, counted, rfl⟩, maybe, loaded, live⟩
    obtain ⟨facts, found, rfl⟩ := Option.map_eq_some_iff.mp loaded
    exact ⟨⟨row, List.mem_filter.mpr ⟨counted, maybe⟩, by rw [found]; rfl⟩, decide_eq_true live⟩

theorem mem_live_elsewhere {tables tables' : Tables} {id : ChunkId}
    (elsewhere : Elsewhere chunkId tables tables') (apart : id ≠ chunkId) :
    (id, status) ∈ loadLiveStatuses tables' ↔ (id, status) ∈ loadLiveStatuses tables := by
  have counted : countedRows tables' none = countedRows tables none := by
    simp only [countedRows, elsewhere.chunks, elsewhere.ephemeral]
  rw [mem_live, mem_live, counted, elsewhere.live, elsewhere.facts id apart]

theorem mem_getMany_elsewhere {ids ids' : List ChunkId}
    (elsewhere : Elsewhere chunkId q.tables q'.tables) (minted : q'.mintedAt = q.mintedAt)
    (same : other.chunkId ∈ ids' ↔ other.chunkId ∈ ids) :
    other ∈ getMany q' ids' ↔ other ∈ getMany q ids := by
  simp only [getMany, List.mem_map, List.mem_filter, Bool.and_eq_true, decide_eq_true_eq,
    elsewhere.chunks, elsewhere.ephemeral, minted]
  constructor
  · rintro ⟨row, ⟨of, in_, live⟩, rfl⟩
    exact ⟨row, ⟨of, same.mp in_, live⟩, rfl⟩
  · rintro ⟨row, ⟨of, in_, live⟩, rfl⟩
    exact ⟨row, ⟨of, same.mpr in_, live⟩, rfl⟩

theorem mem_candidates_elsewhere (list : QueueList) (elsewhere : Elsewhere chunkId q.tables q'.tables)
    (minted : q'.mintedAt = q.mintedAt) (apart : other.chunkId ≠ chunkId) :
    other ∈ candidates q' list ↔ other ∈ candidates q list := by
  apply mem_getMany_elsewhere elsewhere minted
  simp only [List.mem_map, List.mem_filter, decide_eq_true_eq, Prod.exists, exists_and_right,
    exists_eq_right]
  exact mem_live_elsewhere elsewhere apart

theorem mem_readyMembers_elsewhere (elsewhere : Elsewhere chunkId q.tables q'.tables)
    (minted : q'.mintedAt = q.mintedAt) (apart : other.chunkId ≠ chunkId) :
    other ∈ readyMembers q' ↔ other ∈ readyMembers q := by
  rw [readyMembers, readyMembers, List.mem_append, List.mem_append,
    mem_candidates_elsewhere .ready elsewhere minted apart]
  apply or_congr_right
  apply mem_getMany_elsewhere elsewhere minted
  simp only [withheldByPause, List.mem_filter, List.mem_map, decide_eq_true_eq, Prod.exists,
    exists_and_right, exists_eq_right, elsewhere.facts other.chunkId apart]
  apply and_congr_left
  intro _
  exact mem_live_elsewhere elsewhere apart

/-- Where a placement asks a chunk to stand among the members it joins. -/
def Asks (placement : Placement) (members : List Chunk) : Spot → Prop
  | .top => placement.toTop = true
  | .after anchor => anchor ∈ members ∧ placement.afterChunkId = some anchor.chunkId
  | .tail => placement.afterChunkId = none ∧ placement.toTop = false

theorem position_lt_tail (ranking : QueueRanking) (mem : chunk ∈ members) :
    ranking.effectivePosition chunk < ranking.tail members := by
  have listed := List.mem_map_of_mem (f := ranking.effectivePosition) mem
  rw [QueueRanking.tail]
  cases found : (members.map ranking.effectivePosition).max? with
  | none =>
    rw [List.max?_eq_none_iff.mp found] at listed
    cases listed
  | some top =>
    have le := (List.max?_eq_some_iff.mp found).2 _ listed
    rw [Option.getD_some]
    exact lt_of_le_of_lt le (lt_add_one top)

/-- A landing, once written, is read back by every list that holds its chunk and the members. -/
def ReadBack (ranking : QueueRanking) (moving : Chunk) (members : List Chunk) (landing : Landing)
    (spot : Spot) : Prop :=
  (∀ pair ∈ landing.renormalized, ∃ chunk ∈ members, pair.1 = chunk.chunkId) ∧
  ∀ after : QueueRanking,
    (∀ chunk ∈ moving :: members, after.effectivePosition chunk =
      (newestPosition (landing.renormalized ++ [(moving.chunkId, landing.position)])
        chunk.chunkId).getD (ranking.effectivePosition chunk)) →
    ∀ joined, joined.Perm (moving :: members) →
      Placed moving (ranking.ordered members) (after.ordered joined) spot

/-- A landing beside a member is read back there, at the top with none. -/
theorem landAfter_readBack (gap : GapTest spent 0) (ranking : QueueRanking)
    (nodup : ((moving :: members).map (·.chunkId)).Nodup) (beside : Option Chunk)
    (of : ∀ a, beside = some a → a ∈ members) :
    ∃ landing, ranking.landAfter spent (ranking.ordered members) beside = some landing ∧
      ReadBack ranking moving members landing (spotOf beside) := by
  have same : (ranking.ordered members).Perm members := ranked_perm _ _
  have perm : (moving :: ranking.ordered members).Perm (moving :: members) := same.cons moving
  have distinct : ((moving :: ranking.ordered members).map (·.chunkId)).Nodup :=
    (perm.map (·.chunkId)).nodup_iff.mpr nodup
  have sorted : (ranking.ordered members).Pairwise fun a b => ranking.key a ≤ ranking.key b :=
    ranked_sorted _ _
  have among : ∀ a, beside = some a → a ∈ ranking.ordered members :=
    fun a is => same.mem_iff.mpr (of a is)
  obtain ⟨landing, found, named, read⟩ :=
    landed_in_place gap distinct (List.Perm.refl _) sorted among
  refine ⟨landing, found, ?_, ?_⟩
  · intro pair in_
    obtain ⟨chunk, of, is⟩ := named pair in_
    exact ⟨chunk, same.mem_iff.mp of, is⟩
  · intro after reads joined whole
    have one : after.ordered joined = after.ordered (moving :: ranking.ordered members) := by
      have whole := whole.trans perm.symm
      exact ordered_eq ((whole.map (·.chunkId)).nodup_iff.mpr distinct)
        ((ranked_perm _ _).trans whole.symm) (ranked_sorted _ _)
    rw [one, read after fun chunk of => reads chunk (perm.mem_iff.mp of)]
    exact (placed_beside moving among (List.nodup_cons.mp distinct).2).1

/-- One past every member's position is read back at the tail. -/
theorem tail_readBack (ranking : QueueRanking)
    (nodup : ((moving :: members).map (·.chunkId)).Nodup) :
    ReadBack ranking moving members ⟨ranking.tail members, []⟩ .tail := by
  refine ⟨by simp, ?_⟩
  intro after reads joined whole
  have same : (ranking.ordered members).Perm members := ranked_perm _ _
  obtain ⟨fresh, -⟩ := List.nodup_cons.mp nodup
  have kept : ∀ chunk ∈ members, after.effectivePosition chunk =
      ranking.effectivePosition chunk := by
    intro chunk of
    have apart : moving.chunkId ≠ chunk.chunkId :=
      fun is => fresh (List.mem_map.mpr ⟨chunk, of, is.symm⟩)
    have none_ : newestPosition [(moving.chunkId, ranking.tail members)] chunk.chunkId = none := by
      simp [newestPosition, apart]
    rw [reads chunk (List.mem_cons_of_mem _ of), List.nil_append, none_, Option.getD_none]
  have last : after.effectivePosition moving = ranking.tail members := by
    rw [reads moving List.mem_cons_self]
    simp [newestPosition]
  apply ordered_eq ((whole.map (·.chunkId)).nodup_iff.mpr nodup)
  · exact (List.perm_append_singleton _ _).trans ((same.cons moving).trans whole.symm)
  · apply sorted_between
    · rw [List.append_nil]
      refine (ranked_sorted ranking.key members).imp_of_mem ?_
      intro a b ofA ofB le
      rw [key_le_iff] at le ⊢
      rw [kept a (same.mem_iff.mp ofA), kept b (same.mem_iff.mp ofB)]
      exact le
    · intro a of
      apply key_le_of_lt
      rw [last, kept a (same.mem_iff.mp of)]
      exact position_lt_tail ranking (same.mem_iff.mp of)
    · simp

/-- The landing resolved for a chunk that joins a list is read back at the spot asked for. -/
theorem resolveLanding_readBack (gap : GapTest spent 0) (ranking : QueueRanking)
    (list : QueueList) (statuses : Statuses) {placement : Placement} {spot : Spot}
    (nodup : ((moving :: members).map (·.chunkId)).Nodup) (asks : Asks placement members spot) :
    ∃ landing, resolveLanding spent ranking list members moving.chunkId placement statuses =
        .ok landing ∧ ReadBack ranking moving members landing spot := by
  obtain ⟨fresh, members_nodup⟩ := List.nodup_cons.mp nodup
  cases spot with
  | top =>
    have high : placement.toTop = true := asks
    obtain ⟨landing, found, read⟩ := landAfter_readBack gap ranking nodup none (by simp)
    refine ⟨landing, ?_, read⟩
    simp only [resolveLanding, placement.consistent high, found, high]
    rfl
  | after anchor =>
    obtain ⟨of, named⟩ := asks
    obtain ⟨landing, found, read⟩ :=
      landAfter_readBack gap ranking nodup (some anchor) (by rintro _ ⟨⟩; exact of)
    refine ⟨landing, ?_, read⟩
    have other : ¬ some anchor.chunkId = some moving.chunkId :=
      fun is => fresh (List.mem_map.mpr ⟨anchor, of, Option.some.inj is⟩)
    simp only [resolveLanding, named, if_neg other, member_of_mem members_nodup of, found]
  | tail =>
    obtain ⟨unanchored, low⟩ := asks
    refine ⟨_, ?_, tail_readBack ranking nodup⟩
    simp only [resolveLanding, unanchored, low]
    rfl

/-- What a chunk that enters a list reads back: its own new position, the members' with the list's
renormalization. -/
theorem effective_entered (at_ : Instant) {position : ℚ} {renormalized : List (ChunkId × ℚ)}
    (elsewhere : Elsewhere moving.chunkId q.tables q'.tables)
    (rows : q'.queuePositions.map (fun row => (row.chunkId, row.position)) =
      (recordQueuePositions q renormalized at_).queuePositions.map
        (fun row => (row.chunkId, row.position)) ++ [(moving.chunkId, position)]) :
    (readRanking q').effectivePosition chunk =
      (newestPosition (renormalized ++ [(moving.chunkId, position)]) chunk.chunkId).getD
        ((readRanking q).effectivePosition chunk) := by
  by_cases same : chunk.chunkId = moving.chunkId
  · have mine : newestPosition [(moving.chunkId, position)] chunk.chunkId = some position := by
      simp [newestPosition, same]
    rw [newestPosition_append, mine]
    simp only [QueueRanking.effectivePosition, readRanking, rows, newestPosition_append, mine]
    rfl
  · have none_ : newestPosition [(moving.chunkId, position)] chunk.chunkId = none := by
      simp [newestPosition, Ne.symm same]
    obtain ⟨promoted, instants⟩ := elsewhere.promotedAts chunk.chunkId same
    rw [newestPosition_append, none_, Option.none_or, ← effective_record q renormalized at_ chunk]
    simp only [QueueRanking.effectivePosition, readRanking, rows, newestPosition_append, none_,
      Option.none_or, promoted, instants]
    rfl

/-- A chunk has entered a list: the other members are those before, and any list of them and the
chunk reads it back at the spot, they in their order. -/
structure Entered (members : QueueTables → List Chunk) (q q' : QueueTables) (moving : Chunk)
    (spot : Spot) : Prop where
  others : ∀ other : Chunk, other.chunkId ≠ moving.chunkId → (other ∈ members q' ↔ other ∈ members q)
  joined : moving ∈ members q' → (members q').Perm (moving :: members q)
  placed : ∀ joined, joined.Perm (moving :: members q) →
    Placed moving ((readRanking q).ordered (members q)) ((readRanking q').ordered joined) spot

theorem joined_perm (members : QueueTables → List Chunk)
    (nodup : ((moving :: members q).map (·.chunkId)).Nodup)
    (nodup' : ((members q').map (·.chunkId)).Nodup)
    (others : ∀ other : Chunk, other.chunkId ≠ moving.chunkId →
      (other ∈ members q' ↔ other ∈ members q))
    (mem : moving ∈ members q') : (members q').Perm (moving :: members q) := by
  apply (List.perm_ext_iff_of_nodup nodup'.of_map nodup.of_map).mpr
  intro chunk
  rw [List.mem_cons]
  by_cases same : chunk.chunkId = moving.chunkId
  · constructor
    · intro of
      exact .inl (List.inj_on_of_nodup_map nodup' of mem same)
    · rintro (rfl | of)
      · exact mem
      · exact absurd (List.mem_map.mpr ⟨chunk, of, same⟩) (List.nodup_cons.mp nodup).1
  · rw [others chunk same]
    constructor
    · exact .inr
    · rintro (rfl | of)
      · exact absurd rfl same
      · exact of

theorem minted_promoted (q : QueueTables) (written : List (ChunkId × ℚ)) (chunkId : ChunkId)
    (position : ℚ) (at_ : Instant) :
    (insertPromoteRows (recordQueuePositions q written at_) chunkId position at_).mintedAt =
      q.mintedAt := rfl

theorem minted_demoted (q : QueueTables) (written : List (ChunkId × ℚ)) (chunkId : ChunkId)
    (position : ℚ) (at_ : Instant) :
    (insertDemoteRows (recordQueuePositions q written at_) chunkId position at_).mintedAt =
      q.mintedAt := rfl

/-- A chunk that is not promoted lands in the ready queue at the spot asked for. -/
theorem landReady_enters (gap : GapTest spent 0) (q : QueueTables) (at_ : Instant)
    {placement : Placement} {spot : Spot}
    (fresh : currentlyPromoted q.tables moving.chunkId = false)
    (asks : Asks placement (readyMembers q) spot) :
    ∃ q', landReady spent q moving.chunkId placement at_ = .ok q' ∧
      Entered readyMembers q q' moving spot := by
  have nodup : ((moving :: readyMembers q).map (·.chunkId)).Nodup := by
    refine List.nodup_cons.mpr ⟨?_, readyMembers_nodup q⟩
    intro mem
    obtain ⟨chunk, of, same⟩ := List.mem_map.mp mem
    have promoted := currentlyPromoted_of_readyMember of
    rw [same, fresh] at promoted
    cases promoted
  obtain ⟨landing, found, -, read⟩ := resolveLanding_readBack gap (readRanking q) .ready
    (loadLiveStatuses q.tables) nodup asks
  refine ⟨_, by simp only [landReady, found]; rfl, ?_⟩
  have elsewhere := elsewhere_promoted q.tables moving.chunkId at_
  have others := fun (other : Chunk) (apart : other.chunkId ≠ moving.chunkId) =>
    mem_readyMembers_elsewhere elsewhere (minted_promoted q landing.renormalized moving.chunkId
      landing.position at_) apart
  refine ⟨others, joined_perm readyMembers nodup (readyMembers_nodup _) others, ?_⟩
  apply read
  intro chunk _
  apply effective_entered at_ elsewhere
  exact List.map_append

/-- A promoted chunk lands in the backlog at the spot asked for. -/
theorem demote_enters (gap : GapTest spent 0) (q : QueueTables) (at_ : Instant)
    {placement : Placement} {spot : Spot} {facts : ChunkFacts}
    (loaded : loadFacts q.tables moving.chunkId = some facts)
    (promoted : facts.promoted = true)
    (demotable : facts.admits .demote = true ∨ facts.isReadyButForPause = true)
    (asks : Asks placement (candidates q .notReady) spot) :
    ∃ q', QueueWrites.demote spent q moving.chunkId placement at_ = .ok (some q') ∧
      Entered (candidates · .notReady) q q' moving spot := by
  obtain ⟨-, rfl⟩ := TerminalAgreement.loadFacts_eq_some loaded
  have standing : currentlyPromoted q.tables moving.chunkId = true := by
    rw [← promoted_allFamilies]
    exact promoted
  have nodup : ((moving :: candidates q .notReady).map (·.chunkId)).Nodup := by
    refine List.nodup_cons.mpr ⟨?_, candidates_nodup q .notReady⟩
    intro mem
    obtain ⟨chunk, of, same⟩ := List.mem_map.mp mem
    have unpromoted := currentlyPromoted_of_backlog of
    rw [same, standing] at unpromoted
    cases unpromoted
  obtain ⟨landing, found, named, read⟩ := resolveLanding_readBack gap (readRanking q) .notReady
    (loadLiveStatuses q.tables) nodup asks
  refine ⟨_, by
    rw [QueueWrites.demote, loaded]
    simp only [promoted, found]
    rw [if_neg (by simp), if_neg (by rcases demotable with is | is <;> simp [is])], ?_⟩
  rw [writePositions_members named]
  have elsewhere := elsewhere_demoted q.tables moving.chunkId at_
  have others := fun (other : Chunk) (apart : other.chunkId ≠ moving.chunkId) =>
    mem_candidates_elsewhere .notReady elsewhere (minted_demoted q landing.renormalized moving.chunkId
      landing.position at_) apart
  refine ⟨others, joined_perm (candidates · .notReady) nodup (candidates_nodup _ _)
    others, ?_⟩
  apply read
  intro chunk _
  apply effective_entered at_ elsewhere
  exact List.map_append

/-- A renumbering on its own leaves the list's order as it was. -/
theorem renormalized_keeps_order (gap : GapTest spent 0) (q : QueueTables) (list : QueueList)
    (at_ : Instant) {beside : Option Chunk} (of : ∀ a, beside = some a → a ∈ candidates q list)
    {landing : Landing}
    (found : (readRanking q).landAfter spent (ordered q list) beside = some landing) :
    ordered (writePositions q list landing.renormalized at_) list = ordered q list := by
  have same := ordered_perm q list
  have sorted : (ordered q list).Pairwise fun a b => (readRanking q).key a ≤ (readRanking q).key b :=
    ranked_sorted _ _
  have rising : ((ordered q list).map (readRanking q).effectivePosition).Pairwise (· ≤ ·) := by
    rw [List.pairwise_map]
    exact sorted.imp position_le_of_key_le
  have within : ∀ i, QueueRanking.indexOf (ordered q list) beside = some i →
      i < ((ordered q list).map (readRanking q).effectivePosition).length := by
    intro i is
    rw [List.length_map]
    cases beside with
    | none => cases is
    | some anchor =>
      exact (placed_beside anchor (fun a is => same.mem_iff.mpr (of a is))
        (ordered_nodup q list)).2 i is
  obtain ⟨slot, landed, lands⟩ := landAfter_lands gap rising within
  rw [QueueRanking.landAfter, landed] at found
  obtain rfl := Option.some.inj found
  rw [writePositions_members]
  · apply ordered_eq (candidates_nodup q list) same
    refine sorted_standing sorted lands (standing_of_renumbered (ordered_nodup q list)
      (lands.renumbered.imp id And.left) ?_)
    exact fun chunk _ => effective_record q _ at_ chunk
  · intro pair mem
    obtain ⟨chunk, in_, is⟩ := List.mem_map.mp (List.of_mem_zip mem).1
    exact ⟨chunk, same.mem_iff.mp in_, is.symm⟩

/-- The order the stored ranks derive after a ranking write is the order the write returned: the
members it moved where they were asked to stand, all others in their order before. -/
theorem ranking_writes_read_back (spent : ℚ → ℚ → Bool) (gap : GapTest spent 0) (q : QueueTables)
    (at_ : Instant) :
    (∀ (list : QueueList) (named : List ChunkId), named.Nodup →
      (∀ id ∈ named, id ∈ (candidates q list).map (·.chunkId)) →
      ∃ order q', reorder q list named at_ = .ok (order, q') ∧
        ordered q' list = order.ordered ∧ order.ordered.Perm (candidates q list) ∧
        order.ordered.map (·.chunkId) =
          named ++ ((ordered q list).map (·.chunkId)).filter fun id => decide (id ∉ named)) ∧
    (∀ (list : QueueList) (moving : Chunk) (beside : Option Chunk), moving ∈ candidates q list →
      (∀ a, beside = some a → a ∈ candidates q list ∧ a.chunkId ≠ moving.chunkId) →
      ∃ order q', reposition spent q list moving.chunkId (beside.map (·.chunkId)) at_ =
          .ok (order, q') ∧
        ordered q' list = order.ordered ∧ order.ordered.Perm (candidates q list) ∧
        Placed moving
          ((ordered q list).filter fun chunk => decide (chunk.chunkId ≠ moving.chunkId))
          order.ordered (spotOf beside)) ∧
    (∀ (moving : Chunk) (placement : Placement) (spot : Spot) (facts : ChunkFacts),
      loadFacts q.tables moving.chunkId = some facts → isPromotable facts = true →
      Asks placement (readyMembers q) spot →
      ∃ q', QueueWrites.promote spent q moving.chunkId placement at_ = .ok (some q') ∧
        Entered readyMembers q q' moving spot) ∧
    (∀ moving : Chunk, currentlyPromoted q.tables moving.chunkId = false →
      ∃ q', land spent q moving.chunkId at_ = .ok q' ∧ Entered readyMembers q q' moving .tail) ∧
    (∀ (moving : Chunk) (placement : Placement) (spot : Spot) (facts : ChunkFacts),
      loadFacts q.tables moving.chunkId = some facts → facts.promoted = true →
      (facts.admits .demote = true ∨ facts.isReadyButForPause = true) →
      Asks placement (candidates q .notReady) spot →
      ∃ q', QueueWrites.demote spent q moving.chunkId placement at_ = .ok (some q') ∧
        Entered (candidates · .notReady) q q' moving spot) ∧
    ∀ (list : QueueList) (beside : Option Chunk) (landing : Landing),
      (∀ a, beside = some a → a ∈ candidates q list) →
      (readRanking q).landAfter spent (ordered q list) beside = some landing →
      ordered (writePositions q list landing.renormalized at_) list = ordered q list := by
  refine ⟨fun list named => reorder_stands q list at_, ?_, ?_, ?_, ?_, ?_⟩
  · intro list moving beside mem of
    exact reposition_stands gap q list at_ mem of
  · intro moving placement spot facts loaded promotable asks
    have unpromoted : facts.promoted = false := by
      rw [isPromotable, Bool.and_eq_true, Bool.not_eq_true'] at promotable
      exact promotable.1
    have fresh : currentlyPromoted q.tables moving.chunkId = false := by
      rw [← promoted_allFamilies, ← TerminalAgreement.loadFacts_eq_some loaded]
      exact unpromoted
    obtain ⟨q', landed, entered⟩ := landReady_enters gap q at_ fresh asks
    refine ⟨q', ?_, entered⟩
    simp only [QueueWrites.promote, loaded, unpromoted, promotable, landed]
    rfl
  · exact fun moving fresh => landReady_enters gap q at_ fresh ⟨rfl, rfl⟩
  · exact fun moving placement spot facts => demote_enters gap q at_
  · intro list beside landing of found
    exact renormalized_keeps_order gap q list at_ of found

/-- A backlog of two chunks that share a rank, whose gap is spent. -/
def tiedBacklog : QueueTables where
  tables := .minted ⟨[⟨"a", "p", "g", none⟩, ⟨"b", "p", "g", none⟩, ⟨"c", "p", "g", none⟩],
    by decide⟩ []
  mintedAt := fun _ => 0

/-- Between two tied chunks the third lands, the list renumbered. -/
theorem tied_backlog_reads_back :
    ∃ order q', reposition (fun a b => decide (b ≤ a)) tiedBacklog .notReady "c" (some "a") 1 =
        .ok (order, q') ∧
      ordered q' .notReady = order.ordered ∧
      order.ordered.Perm (candidates tiedBacklog .notReady) ∧
      Placed ⟨"c", "p", 0⟩ ((ordered tiedBacklog .notReady).filter fun chunk =>
        decide (chunk.chunkId ≠ "c")) order.ordered (.after ⟨"a", "p", 0⟩) := by
  have gap : GapTest (fun a b => decide (b ≤ a)) 0 := by
    refine ⟨fun a b is => ?_, fun n => ?_⟩
    · simpa using is
    · simp
  exact (ranking_writes_read_back _ gap tiedBacklog 1).2.1 .notReady ⟨"c", "p", 0⟩
    (some ⟨"a", "p", 0⟩) (by decide +kernel) (by rintro _ ⟨⟩; exact by decide +kernel)

end Blizzard.QueueOrders
