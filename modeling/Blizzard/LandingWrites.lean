import Mathlib.Data.List.Nodup
import Blizzard.LandingMoves

/-! # Landing-order writes and the order they leave

Each of the four writes displaces what it names and nothing else; the three that
give positions keep silent about a standing order exactly where the links sit at
the positions they would give. -/
namespace Blizzard.LandingWrites
open SortedRanks FloatSlots LandingOrder LandingMoves

variable {spent : ℚ → ℚ → Bool} {order : LandingOrder} {links others : List RankedLink}
  {link : RankedLink} {facts : List PositionFact} {wanted : List (RepositoryId × Option ℚ)}
  {repositoryId : RepositoryId} {index : Option ℕ} {slot : Slot}

/-! ## A landing after a ranked link -/

/-- The positions a landing asks for: the renumbered others', then the moved link's own. -/
def landingWanted (others : List RankedLink) (repositoryId : RepositoryId) (slot : Slot) :
    List (RepositoryId × Option ℚ) :=
  (others.map (·.repositoryId)).zip (slot.renumbered.map some) ++ [(repositoryId, some slot.position)]

theorem rankedOthers_sublist (order : LandingOrder) (repositoryId : RepositoryId) :
    (rankedOthers order.links repositoryId).Sublist order.links := by
  rw [rankedOthers, inLandingOrder_eq]
  exact List.filter_sublist

theorem rankedOthers_sorted (order : LandingOrder) (repositoryId : RepositoryId) :
    (rankedOthers order.links repositoryId).Pairwise fun a b => a.key ≤ b.key :=
  order.sorted.sublist (rankedOthers_sublist order repositoryId)

theorem rankedOthers_ids (order : LandingOrder) (repositoryId : RepositoryId) :
    ((rankedOthers order.links repositoryId).map (·.repositoryId)).Nodup :=
  order.ids.sublist ((rankedOthers_sublist order repositoryId).map _)

theorem id_ne_of_others (mem : link ∈ rankedOthers links repositoryId) :
    link.repositoryId ≠ repositoryId := by
  have kept := (List.mem_filter.mp mem).2
  rw [Bool.and_eq_true, decide_eq_true_eq] at kept
  exact kept.2

theorem zip_ids_sublist (ids : List RepositoryId) (positions : List (Option ℚ)) :
    ((ids.zip positions).map Prod.fst).Sublist ids := by
  induction ids generalizing positions with
  | nil => simp
  | cons id ids ih =>
    cases positions with
    | nil => simp
    | cons position positions => exact (ih positions).cons_cons id

theorem landingWanted_distinct (order : LandingOrder) (repositoryId : RepositoryId) (slot : Slot) :
    ((landingWanted (rankedOthers order.links repositoryId) repositoryId slot).map
      Prod.fst).Nodup := by
  rw [landingWanted, List.map_append, List.map_singleton]
  have part := zip_ids_sublist ((rankedOthers order.links repositoryId).map (·.repositoryId))
    (slot.renumbered.map some)
  refine List.nodup_append.mpr ⟨(rankedOthers_ids order repositoryId).sublist part,
    List.nodup_singleton _, ?_⟩
  intro id mem last isLast same
  obtain ⟨other, of, rfl⟩ := List.mem_map.mp (part.subset mem)
  exact id_ne_of_others of (same.trans (List.mem_singleton.mp isLast))

/-- Where nothing is renumbered, the others stay as they are. -/
theorem moved_others_held (links : List RankedLink) (repositoryId : RepositoryId)
    (held : slot.renumbered = []) :
    (rankedOthers links repositoryId).map (moved (changed links
      (landingWanted (rankedOthers links repositoryId) repositoryId slot))) =
      rankedOthers links repositoryId := by
  apply (List.map_congr_left _).trans (List.map_id _)
  intro other mem
  apply moved_of_absent
  rw [landingWanted, held]
  simpa using id_ne_of_others mem

/-- The ranked others read the standing positions back. -/
theorem moved_others_positions (slot : Slot) (order : LandingOrder) (repositoryId : RepositoryId)
    (renumbered : slot.renumbered = [] ∨ slot.renumbered.length =
      (positionsOf (rankedOthers order.links repositoryId)).length) :
    ((rankedOthers order.links repositoryId).map (moved (changed order.links
      (landingWanted (rankedOthers order.links repositoryId) repositoryId slot)))).map (·.position) =
      (slot.standing (positionsOf (rankedOthers order.links repositoryId))).map some := by
  have ranked := fun link (mem : link ∈ rankedOthers order.links repositoryId) =>
    ranked_of_others mem
  have inLinks := (rankedOthers_sublist order repositoryId).subset
  have distinct := landingWanted_distinct order repositoryId slot
  rw [positionsOf_length ranked] at renumbered
  by_cases held : slot.renumbered = []
  · rw [moved_others_held order.links repositoryId held, Slot.standing, if_pos held,
      map_position ranked]
  · rw [Slot.standing, if_neg held]
    have same := renumbered.resolve_left held
    apply List.ext_getElem
    · simp [same]
    · intro i here there
      have below : i < (rankedOthers order.links repositoryId).length := by simpa using here
      have mem := List.getElem_mem below
      have numbered : i < slot.renumbered.length := same ▸ below
      have want : ((rankedOthers order.links repositoryId)[i].repositoryId,
          some slot.renumbered[i]) ∈
          landingWanted (rankedOthers order.links repositoryId) repositoryId slot := by
        rw [landingWanted, List.mem_append]
        left
        apply List.mem_iff_getElem.mpr
        refine ⟨i, by simpa [same] using below, ?_⟩
        rw [List.getElem_zip, List.getElem_map, List.getElem_map]
      simp only [List.getElem_map, moved_of_wanted order.ids (inLinks mem) distinct want]

theorem sorted_of_strict {positions : List ℚ} (at_ : others.map (·.position) = positions.map some)
    (strict : positions.Pairwise (· < ·)) : others.Pairwise fun a b => a.key ≤ b.key := by
  have apart : (others.map (·.position)).Pairwise fun a b =>
      ∃ p q, a = some p ∧ b = some q ∧ p < q := by
    rw [at_, List.pairwise_map]
    exact strict.imp fun less => ⟨_, _, rfl, rfl, less⟩
  rw [List.pairwise_map] at apart
  refine apart.imp ?_
  intro a b found
  obtain ⟨p, q, ofA, ofB, less⟩ := found
  exact key_le_of_lt ofA ofB less

theorem moved_others_sorted (order : LandingOrder) (repositoryId : RepositoryId)
    (renumbered : slot.renumbered = [] ∨ slot.renumbered.length =
      (positionsOf (rankedOthers order.links repositoryId)).length ∧
        slot.renumbered.Pairwise (· < ·)) :
    ((rankedOthers order.links repositoryId).map (moved (changed order.links
      (landingWanted (rankedOthers order.links repositoryId) repositoryId slot)))).Pairwise
        fun a b => a.key ≤ b.key := by
  by_cases held : slot.renumbered = []
  · rw [moved_others_held order.links repositoryId held]
    exact rankedOthers_sorted order repositoryId
  · obtain ⟨length, strict⟩ := renumbered.resolve_left held
    have positions := moved_others_positions slot order repositoryId (.inr length)
    rw [Slot.standing, if_neg held] at positions
    exact sorted_of_strict positions strict

theorem mem_unrankedOthers (mem : link ∈ unrankedOthers links repositoryId) :
    link ∈ links ∧ link.repositoryId ≠ repositoryId ∧ link.position = none := by
  obtain ⟨kept, unranked⟩ := List.mem_filter.mp mem
  obtain ⟨of, other⟩ := List.mem_filter.mp kept
  exact ⟨of, of_decide_eq_true other, by simpa using unranked⟩

/-- A landing moves no unranked link but its own. -/
theorem moved_unranked_others (order : LandingOrder) (repositoryId : RepositoryId) (slot : Slot) :
    (unrankedOthers order.links repositoryId).map (moved (changed order.links
      (landingWanted (rankedOthers order.links repositoryId) repositoryId slot))) =
      unrankedOthers order.links repositoryId := by
  apply (List.map_congr_left _).trans (List.map_id _)
  intro other mem
  obtain ⟨of, apart, unranked⟩ := mem_unrankedOthers mem
  apply moved_of_absent
  intro named
  rw [landingWanted, List.map_append, List.mem_append] at named
  rcases named with among | last
  · obtain ⟨ranked, ofRanked, same⟩ := List.mem_map.mp ((zip_ids_sublist _ _).subset among)
    have is := List.inj_on_of_nodup_map order.ids
      ((rankedOthers_sublist order repositoryId).subset ofRanked) of same
    obtain ⟨p, at_⟩ := ranked_of_others ofRanked
    rw [is, unranked] at at_
    cases at_
  · rw [List.map_singleton, List.mem_singleton] at last
    exact apart last

/-- The order a landing leaves: the moved link right after those before its slot. -/
theorem landing_order (mem : link ∈ order.links)
    (lands : slot.Lands (positionsOf (rankedOthers order.links link.repositoryId)) index)
    (asked : facts = changed order.links
      (landingWanted (rankedOthers order.links link.repositoryId) link.repositoryId slot)) :
    after order.links facts =
      (((rankedOthers order.links link.repositoryId).map (moved facts)).take (place index) ++
        { link with position := some slot.position } ::
          ((rankedOthers order.links link.repositoryId).map (moved facts)).drop (place index)) ++
        unrankedOthers order.links link.repositoryId := by
  have distinct := landingWanted_distinct order link.repositoryId slot
  have positions := moved_others_positions slot order link.repositoryId
    (lands.renumbered.imp id And.left)
  have placed : moved facts link = { link with position := some slot.position } := by
    rw [asked]
    apply moved_of_wanted order.ids mem distinct
    rw [landingWanted]
    exact List.mem_append_right _ (List.mem_singleton_self _)
  have inLine := moved_others_sorted order link.repositoryId lands.renumbered
  rw [← asked] at positions inLine
  have perm := ((others_perm order mem).map (moved facts)).symm
  have unmoved := moved_unranked_others order link.repositoryId slot
  rw [← asked] at unmoved
  rw [List.map_cons, List.map_append, unmoved, placed] at perm
  generalize others_ : (rankedOthers order.links link.repositoryId).map (moved facts) = others
    at positions inLine perm ⊢
  have rankedAt : ∀ other ∈ others, ∃ p, other.position = some p := by
    intro other mem
    have at_ := List.mem_map_of_mem (f := fun link : RankedLink => link.position) mem
    rw [positions] at at_
    obtain ⟨p, -, is⟩ := List.mem_map.mp at_
    exact ⟨p, is.symm⟩
  apply after_eq
  · refine List.Perm.trans ?_ perm.symm
    refine List.perm_middle.append_right _ |>.trans ?_
    rw [List.take_append_drop]
    rfl
  · refine List.pairwise_append.mpr ⟨sorted_between ?_ ?_ ?_, ?_, ?_⟩
    · rwa [List.take_append_drop]
    · intro other ofFront
      have at_ := List.mem_map_of_mem (f := fun link : RankedLink => link.position) ofFront
      rw [List.map_take, positions, ← List.map_take] at at_
      obtain ⟨p, inFront, is⟩ := List.mem_map.mp at_
      exact key_le_of_lt is.symm rfl (lands.below p inFront)
    · intro other ofBack
      have at_ := List.mem_map_of_mem (f := fun link : RankedLink => link.position) ofBack
      rw [List.map_drop, positions, ← List.map_drop] at at_
      obtain ⟨p, inBack, is⟩ := List.mem_map.mp at_
      exact key_le_of_lt rfl is.symm (lands.above p inBack)
    · exact order.sorted.sublist (List.filter_sublist.trans List.filter_sublist)
    · intro a ofA b ofB
      have unranked : b.position = none := by simpa using (List.mem_filter.mp ofB).2
      apply key_le_of_unranked _ unranked
      apply Option.isSome_iff_exists.mpr
      rcases List.mem_append.mp ofA with front | moved
      · exact rankedAt a (List.mem_of_mem_take front)
      · rcases List.mem_cons.mp moved with rfl | back
        · exact ⟨_, rfl⟩
        · exact rankedAt a (List.mem_of_mem_drop back)

/-- A landing's facts are those of a slot that lands among the ranked others. -/
theorem landing_planned (gap : GapTest spent firstPosition)
    (within : ∀ i, index = some i → i < (rankedOthers order.links repositoryId).length)
    (planned : landing spent order.links repositoryId index = .ok facts) : ∃ slot,
    landAfter spent (positionsOf (rankedOthers order.links repositoryId)) index firstPosition =
      some slot ∧ slot.Lands (positionsOf (rankedOthers order.links repositoryId)) index ∧
    facts = changed order.links
      (landingWanted (rankedOthers order.links repositoryId) repositoryId slot) := by
  have ranked := fun link (mem : link ∈ rankedOthers order.links repositoryId) =>
    ranked_of_others mem
  have sorted := positionsOf_sorted ranked (rankedOthers_sorted order repositoryId)
  obtain ⟨slot, landed, lands⟩ := landAfter_lands gap sorted
    (fun i is => (within i is).trans_eq (positionsOf_length ranked).symm)
  refine ⟨slot, landed, lands, ?_⟩
  simp only [landing, ← positionsOf.eq_1, landed, Except.ok.injEq] at planned
  exact planned.symm

@[simp] theorem standing_append (front back : List RankedLink) :
    standing (front ++ back) = standing front ++ standing back := by
  simp [standing]

/-- The entries of the other links. -/
theorem standing_others (order : LandingOrder) (repositoryId : RepositoryId) :
    (standing order.links).filter (otherThan repositoryId) =
      standing (rankedOthers order.links repositoryId) ++
        standing (unrankedOthers order.links repositoryId) := by
  rw [rankedOthers_eq, unrankedOthers, ← standing_append, ← ranked_first, standing, standing,
    List.filter_map]
  rfl

/-- Moving a ranked link leaves its entry as it was. -/
theorem standing_of_positions {first second : List RankedLink}
    (ids : first.map (·.repositoryId) = second.map (·.repositoryId))
    (ranked : ∀ link ∈ first, link.position.isSome = true)
    (ranked' : ∀ link ∈ second, link.position.isSome = true) : standing first = standing second := by
  have entries : ∀ links : List RankedLink, (∀ link ∈ links, link.position.isSome = true) →
      standing links = (links.map (·.repositoryId)).map fun id => (id, true) := by
    intro links all
    rw [standing, List.map_map]
    apply List.map_congr_left
    intro link mem
    rw [all link mem]
    rfl
  rw [entries first ranked, entries second ranked', ids]

/-- A landing displaces the moved link to right after those before its slot, and no other. -/
theorem standing_landing (mem : link ∈ order.links)
    (lands : slot.Lands (positionsOf (rankedOthers order.links link.repositoryId)) index)
    (asked : facts = changed order.links
      (landingWanted (rankedOthers order.links link.repositoryId) link.repositoryId slot)) :
    standing (after order.links facts) =
      standing ((rankedOthers order.links link.repositoryId).take (place index)) ++
        (link.repositoryId, true) ::
          standing ((rankedOthers order.links link.repositoryId).drop (place index) ++
            unrankedOthers order.links link.repositoryId) := by
  rw [landing_order mem lands asked]
  have positions := moved_others_positions slot order link.repositoryId
    (lands.renumbered.imp id And.left)
  rw [← asked] at positions
  have ids := map_moved_ids (rankedOthers order.links link.repositoryId) facts
  have now : ∀ other ∈ (rankedOthers order.links link.repositoryId).map (moved facts),
      other.position.isSome = true := by
    intro other of
    have at_ := List.mem_map_of_mem (f := fun link : RankedLink => link.position) of
    rw [positions] at at_
    obtain ⟨p, -, is⟩ := List.mem_map.mp at_
    exact Option.isSome_iff_exists.mpr ⟨p, is.symm⟩
  have before : ∀ other ∈ rankedOthers order.links link.repositoryId,
      other.position.isSome = true :=
    fun other of => Option.isSome_iff_exists.mpr (ranked_of_others of)
  have front : standing (((rankedOthers order.links link.repositoryId).map (moved facts)).take
      (place index)) = standing ((rankedOthers order.links link.repositoryId).take (place index)) := by
    apply standing_of_positions
    · rw [List.map_take, ids, List.map_take]
    · exact fun other of => now other (List.mem_of_mem_take of)
    · exact fun other of => before other (List.mem_of_mem_take of)
  have back : standing (((rankedOthers order.links link.repositoryId).map (moved facts)).drop
      (place index)) = standing ((rankedOthers order.links link.repositoryId).drop (place index)) := by
    apply standing_of_positions
    · rw [List.map_drop, ids, List.map_drop]
    · exact fun other of => now other (List.mem_of_mem_drop of)
    · exact fun other of => before other (List.mem_of_mem_drop of)
  rw [standing_append, standing_append, standing_append, front, ← back, List.append_assoc]
  rfl

/-! ## Landing where the link stands -/

theorem standing_ranked (links : List RankedLink) :
    ((standing links).filter Prod.snd).map Prod.fst = (rankedLinks links).map (·.repositoryId) := by
  rw [standing, rankedLinks, List.filter_map, List.map_map]
  rfl

/-- Two lists of a project's links with the same repositories are one. -/
theorem eq_of_ids (order : LandingOrder) {first second : List RankedLink}
    (ofFirst : first ⊆ order.links) (ofSecond : second ⊆ order.links)
    (ids : first.map (·.repositoryId) = second.map (·.repositoryId)) : first = second := by
  have readBack : ∀ part ⊆ order.links,
      (part.map (·.repositoryId)).filterMap (byId order.links) = part := by
    intro part of
    rw [List.filterMap_map]
    apply (List.filterMap_congr (g := some) _).trans List.filterMap_some
    intro link mem
    exact byId_of_mem order.ids (of mem)
  rw [← readBack first ofFirst, ids, readBack second ofSecond]

/-- The ranked others are the ranked links around the link. -/
theorem others_of_split {front back : List RankedLink}
    (split : rankedLinks order.links = front ++ link :: back) :
    rankedOthers order.links link.repositoryId = front ++ back := by
  have distinct : ((front ++ link :: back).map (·.repositoryId)).Nodup := by
    rw [← split]
    exact order.ids.sublist (List.filter_sublist.map _)
  rw [List.map_append, List.map_cons, List.nodup_middle, List.nodup_cons, ← List.map_append]
    at distinct
  have kept : (front ++ back).filter (fun other =>
      decide (other.repositoryId ≠ link.repositoryId)) = front ++ back := by
    apply List.filter_eq_self.mpr
    intro other mem
    apply decide_eq_true
    intro same
    exact distinct.1 (same ▸ List.mem_map_of_mem (f := fun link => link.repositoryId) mem)
  rw [rankedOthers_eq, split, List.filter_append, List.filter_cons_of_neg (by simp),
    ← List.filter_append, kept]

/-- The unranked links of a project stay when a ranked one is left out. -/
theorem unrankedOthers_of_ranked (order : LandingOrder) (mem : link ∈ order.links)
    (ranked : link.position.isSome = true) :
    order.links = rankedLinks order.links ++ unrankedOthers order.links link.repositoryId := by
  have parts := ranked_first order fun _ => true
  rw [List.filter_true, List.filter_true] at parts
  have same : unrankedOthers order.links link.repositoryId =
      order.links.filter fun link => !link.position.isSome := by
    rw [unrankedOthers, List.filter_filter]
    apply List.filter_congr
    intro other of
    by_cases is : other.repositoryId = link.repositoryId
    · rw [List.inj_on_of_nodup_map order.ids of mem is, ranked]
      rfl
    · simp [is]
  rw [same]
  exact parts

/-- A landing keeps the standing order just where the link already comes right after those before
its slot. -/
theorem stands_iff (mem : link ∈ order.links) (count : ℕ) :
    standing ((rankedOthers order.links link.repositoryId).take count) ++
        (link.repositoryId, true) ::
          standing ((rankedOthers order.links link.repositoryId).drop count ++
            unrankedOthers order.links link.repositoryId) = standing order.links ↔
      rankedLinks order.links = (rankedOthers order.links link.repositoryId).take count ++
        link :: (rankedOthers order.links link.repositoryId).drop count := by
  constructor
  · intro same
    have ids := congrArg (fun entries => (entries.filter Prod.snd).map Prod.fst) same
    simp only [standing_append, List.filter_append, List.map_append, List.filter_cons_of_pos,
      List.map_cons, standing_ranked] at ids
    have inLinks := (rankedOthers_sublist order link.repositoryId).subset
    have ofRanked : ∀ part ⊆ rankedOthers order.links link.repositoryId,
        rankedLinks part = part := by
      intro part of
      apply List.filter_eq_self.mpr
      exact fun other of' => Option.isSome_iff_exists.mpr (ranked_of_others (of of'))
    have ofUnranked : rankedLinks (unrankedOthers order.links link.repositoryId) = [] := by
      apply List.filter_eq_nil_iff.mpr
      intro other of
      simp [(mem_unrankedOthers of).2.2]
    rw [ofUnranked, ofRanked _ (List.take_subset _ _), ofRanked _ (List.drop_subset _ _),
      List.map_nil, List.append_nil] at ids
    refine (eq_of_ids order ?_ List.filter_sublist.subset
      ((List.map_append).trans ids)).symm
    intro other of
    rcases List.mem_append.mp of with front | back
    · exact inLinks (List.mem_of_mem_take front)
    · rcases List.mem_cons.mp back with rfl | back
      · exact mem
      · exact inLinks (List.mem_of_mem_drop back)
  · intro split
    have ranked : link.position.isSome = true := by
      have of : link ∈ rankedLinks order.links := by
        rw [split]
        exact List.mem_append_right _ List.mem_cons_self
      exact (List.mem_filter.mp of).2
    have parts := congrArg standing (unrankedOthers_of_ranked order mem ranked)
    rw [parts, split, standing_append, standing_append, standing_append, List.append_assoc]
    simp [standing, ranked]

/-- A landing that renumbers nothing writes nothing just where the link is at the slot. -/
theorem unrenumbered_silent (mem : link ∈ order.links) (held : slot.renumbered = []) :
    changed order.links (landingWanted others link.repositoryId slot) = [] ↔
      link.position = some slot.position := by
  rw [changed_eq_nil_iff, landingWanted, held, List.map_nil, List.zip_nil_right, List.nil_append]
  simp [byId_of_mem order.ids mem]

theorem position_at (ranked : ∀ link ∈ others, ∃ p, link.position = some p) (i : ℕ) :
    (positionsOf others)[i]?.map some = others[i]?.map (·.position) := by
  have same := congrArg (fun positions : List (Option ℚ) => positions[i]?) (map_position ranked)
  simpa using same.symm

/-- Where a gap is spent, renumbering always writes: the positions around it were not whole numbers
one apart. -/
theorem renumbered_writes (gap : GapTest spent firstPosition) {i : ℕ} {p q : ℚ}
    (here : (positionsOf (rankedOthers order.links repositoryId))[i]? = some p)
    (next : (positionsOf (rankedOthers order.links repositoryId))[i + 1]? = some q)
    (closed : spent p q = true)
    (whole : slot.renumbered = renumbered
      (positionsOf (rankedOthers order.links repositoryId)).length firstPosition) :
    changed order.links (landingWanted (rankedOthers order.links repositoryId) repositoryId slot) ≠
      [] := by
  intro silent
  have positions := moved_others_positions slot order repositoryId
    (.inr (by rw [whole, renumbered_length]))
  have still : ∀ link, moved [] link = link := fun _ => rfl
  rw [silent, List.map_congr_left (fun link _ => still link), List.map_id',
    map_position (fun _ => ranked_of_others)] at positions
  have same := (Option.some_injective ℚ).list_map positions
  have below := (List.getElem?_eq_some_iff.mp here).1
  have below' := (List.getElem?_eq_some_iff.mp next).1
  have some_ : slot.renumbered ≠ [] := by
    intro empty
    rw [empty] at whole
    have length := congrArg List.length whole
    rw [renumbered_length, List.length_nil] at length
    omega
  rw [Slot.standing, if_neg some_, whole] at same
  rw [same, renumbered_getElem? (by simpa using below)] at here
  rw [same, renumbered_getElem? (by simpa using below')] at next
  have open_ := gap.whole i
  rw [Option.some.inj here, Option.some.inj next, closed] at open_
  cases open_

/-- A landing where the link stands writes nothing just where the link is at its place. -/
theorem landing_silent (gap : GapTest spent firstPosition) (mem : link ∈ order.links)
    (within : ∀ i, index = some i → i < (rankedOthers order.links link.repositoryId).length)
    (landed : landAfter spent (positionsOf (rankedOthers order.links link.repositoryId)) index
      firstPosition = some slot) :
    changed order.links (landingWanted (rankedOthers order.links link.repositoryId)
        link.repositoryId slot) = [] ↔
      AtPlace spent (index.bind fun i => (rankedOthers order.links link.repositoryId)[i]?) link
        ((rankedOthers order.links link.repositoryId).drop (place index)) := by
  have ranked := fun link' (mem : link' ∈ rankedOthers order.links link.repositoryId) =>
    ranked_of_others mem
  have at_ := position_at ranked
  generalize others_ : rankedOthers order.links link.repositoryId = others at *
  rw [landAfter] at landed
  cases index with
  | none =>
    cases others with
    | nil =>
      obtain rfl := Option.some.inj landed
      rw [unrenumbered_silent mem rfl]
      rfl
    | cons next rest =>
      obtain ⟨q, ofNext⟩ := ranked next List.mem_cons_self
      have first : positionsOf (next :: rest) = q :: positionsOf rest := by
        rw [positionsOf, List.filterMap_cons, ofNext]
        rfl
      rw [first] at landed
      obtain rfl := Option.some.inj landed
      rw [unrenumbered_silent mem rfl]
      simp [AtPlace, place, ofNext]
  | some i =>
    have below := within i rfl
    obtain ⟨p, ofAnchor⟩ := ranked others[i] (List.getElem_mem below)
    have here : (positionsOf others)[i]? = some p := by
      have is := at_ i
      rw [List.getElem?_eq_getElem below, Option.map_some, ofAnchor] at is
      simpa using is
    rw [Option.bind_some, List.getElem?_eq_getElem below, place]
    by_cases more : i + 1 < others.length
    · obtain ⟨q, ofNext⟩ := ranked others[i + 1] (List.getElem_mem more)
      have next : (positionsOf others)[i + 1]? = some q := by
        have is := at_ (i + 1)
        rw [List.getElem?_eq_getElem more, Option.map_some, ofNext] at is
        simpa using is
      rw [List.drop_eq_getElem_cons more, AtPlace]
      simp only [slotAfter, here, next] at landed
      cases closed : spent p q with
      | false =>
        rw [closed] at landed
        obtain rfl := Option.some.inj landed
        rw [unrenumbered_silent mem rfl]
        simp [ofAnchor, ofNext, closed]
      | true =>
        rw [closed] at landed
        have whole : slot.renumbered =
            renumbered (positionsOf others).length firstPosition := by
          simp only [if_true, Option.map_eq_some_iff] at landed
          obtain ⟨position, -, is⟩ := landed
          rw [← is]
        subst others_
        have writes := renumbered_writes gap here next closed whole
        constructor
        · exact fun silent => absurd silent writes
        · rintro ⟨p', q', ofAnchor', ofNext', open_, -⟩
          rw [ofAnchor, Option.some.injEq] at ofAnchor'
          rw [ofNext, Option.some.injEq] at ofNext'
          rw [← ofAnchor', ← ofNext', closed] at open_
          cases open_
    · have end_ : (positionsOf others)[i + 1]? = none := by
        apply List.getElem?_eq_none
        rw [positionsOf_length ranked]
        omega
      simp only [slotAfter, here, end_] at landed
      obtain rfl := Option.some.inj landed
      rw [unrenumbered_silent mem rfl, List.drop_eq_nil_of_le (by omega), AtPlace]
      simp [ofAnchor]

end Blizzard.LandingWrites
