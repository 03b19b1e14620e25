import Blizzard.LandingWrites

/-! # Every write against the order that stood

The four writes one by one, then together: each displaces what it names, and a
write asking for the order that stands is silent on just the settled links. -/
namespace Blizzard.LandingOrders
open SortedRanks FloatSlots LandingOrder LandingMoves LandingWrites

variable {spent : ℚ → ℚ → Bool} {order : LandingOrder} {link anchor : RankedLink}
  {facts : List PositionFact} {repositoryId anchorId : RepositoryId} {ordered : List RepositoryId}
  {project : String}

/-- What a write owes: it displaces what it names, and is silent about a standing order just when
the links are settled. -/
def Kept (spent : ℚ → ℚ → Bool) (links : List RankedLink) (facts : List PositionFact)
    (write : OrderWrite) : Prop :=
  Displaced (standing links) (standing (after links facts)) write ∧
    ((standing (after links facts) = standing links → facts = []) ↔ Settled spent links write)

theorem mem_of_byId {links : List RankedLink} (found : byId links repositoryId = some link) :
    link ∈ links ∧ link.repositoryId = repositoryId :=
  ⟨List.mem_of_find?_eq_some found, of_decide_eq_true
    (List.find?_some (p := fun link : RankedLink =>
      decide (link.repositoryId = repositoryId)) found)⟩

/-! ## To the front, and beside an anchor -/

theorem front_kept (gap : GapTest spent firstPosition) (mem : link ∈ order.links)
    (planned : landing spent order.links link.repositoryId none = .ok facts) :
    Kept spent order.links facts (.front link.repositoryId) := by
  obtain ⟨slot, landed, lands, asked⟩ := landing_planned gap (fun i is => by cases is) planned
  have now := standing_landing mem lands asked
  have silent := landing_silent gap mem (fun i is => by cases is) landed
  have stands := stands_iff mem 0
  rw [← asked] at silent
  simp only [place, List.take_zero, List.drop_zero, Option.bind_none] at now silent stands
  constructor
  · rw [now, Displaced, standing_others, ← standing_append]
    rfl
  · rw [now, stands, silent, Settled]
    constructor
    · intro held link' rest split same
      have ofLinks : link' ∈ order.links := by
        apply List.filter_sublist.subset
        change link' ∈ rankedLinks order.links
        rw [split]
        exact List.mem_cons_self
      obtain rfl := List.inj_on_of_nodup_map order.ids ofLinks mem same
      have others : rankedOthers order.links link'.repositoryId = [] ++ rest := others_of_split split
      rw [List.nil_append] at others
      rw [← others]
      apply held
      rw [others]
      exact split
    · intro settled split
      exact settled link _ split rfl

theorem beside_kept (gap : GapTest spent firstPosition) (mem : link ∈ order.links) {i : ℕ}
    (found : (rankedOthers order.links link.repositoryId)[i]? = some anchor)
    (planned : landing spent order.links link.repositoryId (some i) = .ok facts) :
    Kept spent order.links facts (.beside link.repositoryId anchor.repositoryId) := by
  obtain ⟨below, at_⟩ := List.getElem?_eq_some_iff.mp found
  have within : ∀ j, some i = some j →
      j < (rankedOthers order.links link.repositoryId).length := by
    intro j is
    exact Option.some.inj is ▸ below
  obtain ⟨slot, landed, lands, asked⟩ := landing_planned gap within planned
  have now := standing_landing mem lands asked
  have silent := landing_silent gap mem within landed
  have stands := stands_iff mem (i + 1)
  rw [← asked] at silent
  have taken : (rankedOthers order.links link.repositoryId).take (i + 1) =
      (rankedOthers order.links link.repositoryId).take i ++ [anchor] := by
    rw [List.take_add_one, found]
    rfl
  have whole : rankedOthers order.links link.repositoryId =
      (rankedOthers order.links link.repositoryId).take i ++ anchor ::
        (rankedOthers order.links link.repositoryId).drop (i + 1) := by
    rw [← at_, ← List.drop_eq_getElem_cons, List.take_append_drop]
  have rankedAnchor : anchor.position.isSome = true :=
    Option.isSome_iff_exists.mpr (ranked_of_others (List.mem_of_getElem? found))
  have entry : standing [anchor] = [(anchor.repositoryId, true)] := by
    rw [standing, List.map_singleton, rankedAnchor]
  simp only [place, Option.bind_some, found] at now silent stands
  constructor
  · refine ⟨standing ((rankedOthers order.links link.repositoryId).take i),
      standing ((rankedOthers order.links link.repositoryId).drop (i + 1) ++
        unrankedOthers order.links link.repositoryId), ?_, ?_⟩
    · rw [standing_others]
      nth_rewrite 1 [whole]
      rw [List.append_cons, standing_append, standing_append, entry, standing_append]
      simp
    · rw [now, taken, standing_append, entry]
      simp
  · rw [now, stands, silent, Settled]
    constructor
    · intro held front anchor' link' back split sameAnchor same
      have inRanked : ∀ other ∈ front ++ anchor' :: link' :: back, other ∈ order.links := by
        intro other of
        rw [← split] at of
        exact List.filter_sublist.subset of
      obtain rfl := List.inj_on_of_nodup_map order.ids
        (inRanked link' (by simp)) mem same
      obtain rfl := List.inj_on_of_nodup_map order.ids (inRanked anchor' (by simp))
        ((rankedOthers_sublist order _).subset (List.mem_of_getElem? found)) sameAnchor
      have others : rankedOthers order.links link'.repositoryId = front ++ [anchor'] ++ back :=
        others_of_split (by simpa using split)
      have at_' : (rankedOthers order.links link'.repositoryId)[front.length]? = some anchor' := by
        rw [others, List.append_assoc, List.getElem?_append_right le_rfl, Nat.sub_self]
        rfl
      have is : i = front.length :=
        (List.getElem?_inj below (rankedOthers_ids order _).of_map).mp (found.trans at_'.symm)
      have count : i + 1 = (front ++ [anchor']).length := by
        rw [is, List.length_append, List.length_singleton]
      have behind : (rankedOthers order.links link'.repositoryId).drop (i + 1) = back := by
        rw [others, count, List.drop_left]
      have ahead : (rankedOthers order.links link'.repositoryId).take (i + 1) = front ++ [anchor'] := by
        rw [others, count, List.take_left]
      rw [behind, ahead] at held
      apply held
      rw [split, List.append_assoc]
      rfl
    · intro settled split
      refine settled ((rankedOthers order.links link.repositoryId).take i) anchor link _ ?_ rfl rfl
      rw [split, taken, List.append_assoc]
      rfl

/-! ## To the unranked -/

theorem after_sorted (links : List RankedLink) (facts : List PositionFact) :
    (after links facts).Pairwise fun a b => a.key ≤ b.key :=
  ranked_sorted _ _

theorem after_perm (links : List RankedLink) (facts : List PositionFact) :
    (after links facts).Perm (links.map (moved facts)) :=
  ranked_perm _ _

/-- A part of the order that no fact moves stays as it was. -/
theorem after_filter (order : LandingOrder) (facts : List PositionFact) (keep : RankedLink → Bool)
    (moves : (order.links.map (moved facts)).filter keep = order.links.filter keep) :
    (after order.links facts).filter keep = order.links.filter keep := by
  refine landing_unique (order.slugs.sublist (List.filter_sublist.map _)) ?_
    ((after_sorted _ _).sublist List.filter_sublist) (order.sorted.sublist List.filter_sublist)
  rw [← moves]
  exact (after_perm _ _).filter keep

theorem unranked_kept (mem : link ∈ order.links) :
    Kept spent order.links (changed order.links [(link.repositoryId, none)])
      (.unranked link.repositoryId) := by
  have placed : moved (changed order.links [(link.repositoryId, none)]) link =
      { link with position := none } :=
    moved_of_wanted order.ids mem (by simp) (List.mem_singleton_self _)
  have unranked : { link with position := none } ∈
      after order.links (changed order.links [(link.repositoryId, none)]) := by
    rw [(after_perm _ _).mem_iff, ← placed]
    exact List.mem_map_of_mem mem
  have entry : (link.repositoryId, false) ∈
      standing (after order.links (changed order.links [(link.repositoryId, none)])) :=
    List.mem_map_of_mem (f := fun link : RankedLink => (link.repositoryId, link.position.isSome))
      unranked
  refine ⟨⟨?_, entry, ?_⟩, ?_⟩
  · rw [standing, standing, List.filter_map, List.filter_map]
    apply congrArg
    apply after_filter
    rw [List.filter_map]
    apply (List.map_congr_left _).trans (List.map_id _) |>.trans
    · apply List.filter_congr
      intro other _
      simp [otherThan]
    · intro other of
      apply moved_of_absent
      simpa [otherThan] using (List.mem_filter.mp of).2
  · rw [standing, List.pairwise_map]
    refine (after_sorted _ _).imp ?_
    intro a b le ranked
    obtain ⟨q, ofB⟩ := Option.isSome_iff_exists.mp ranked
    obtain ⟨p, ofA, -⟩ := le_of_key_le le ofB
    exact Option.isSome_iff_exists.mpr ⟨p, ofA⟩
  · rw [Settled, iff_true]
    intro same
    rw [same] at entry
    obtain ⟨other, of, is⟩ := List.mem_map.mp entry
    obtain rfl := List.inj_on_of_nodup_map order.ids of mem (congrArg Prod.fst is)
    have bare : other.position = none := by simpa using congrArg Prod.snd is
    rw [changed_eq_nil_iff]
    intro pair named
    rw [List.mem_singleton.mp named, byId_of_mem order.ids mem]
    exact bare

/-! ## A whole order -/

/-- The position a whole order gives a repository. -/
def wholePosition (ordered : List RepositoryId) (repositoryId : RepositoryId) : Option ℚ :=
  (ordered.idxOf? repositoryId).map fun index : ℕ => firstPosition + index

/-- The facts of a whole order that names linked repositories once each. -/
def wholeFacts (links : List RankedLink) (ordered : List RepositoryId) : List PositionFact :=
  changed links (links.map fun link =>
    (link.repositoryId, wholePosition ordered link.repositoryId))

/-- What passes the check is linked, and named once. -/
theorem checkNamed_passed {links : List RankedLink} {field : String} {seen : List RepositoryId}
    (passed : checkNamed links project field seen ordered = none) :
    ordered.Nodup ∧ ∀ id ∈ ordered, id ∉ seen ∧ ∃ link ∈ links, link.repositoryId = id := by
  induction ordered generalizing seen with
  | nil => simp
  | cons id rest ih =>
    rw [checkNamed] at passed
    cases found : byId links id with
    | none =>
      rw [found] at passed
      cases passed
    | some link =>
      simp only [found] at passed
      split at passed
      · cases passed
      · rename_i fresh
        obtain ⟨once, linked⟩ := ih passed
        refine ⟨List.nodup_cons.mpr ⟨?_, once⟩, ?_⟩
        · intro again
          exact (linked id again).1 List.mem_cons_self
        · intro other mem
          rcases List.mem_cons.mp mem with rfl | later
          · exact ⟨fresh, link, mem_of_byId found⟩
          · obtain ⟨unseen, of⟩ := linked other later
            exact ⟨fun old => unseen (List.mem_cons_of_mem _ old), of⟩

theorem moved_whole (order : LandingOrder) (ordered : List RepositoryId) (mem : link ∈ order.links) :
    moved (wholeFacts order.links ordered) link =
      { link with position := wholePosition ordered link.repositoryId } := by
  apply moved_of_wanted order.ids mem
  · rw [List.map_map]
    exact order.ids
  · exact List.mem_map_of_mem (f := fun link : RankedLink =>
      (link.repositoryId, wholePosition ordered link.repositoryId)) mem

theorem mem_after_whole (mem : link ∈ after order.links (wholeFacts order.links ordered)) :
    link.position = wholePosition ordered link.repositoryId := by
  rw [(after_perm _ _).mem_iff] at mem
  obtain ⟨other, of, is⟩ := List.mem_map.mp mem
  rw [moved_whole order ordered of] at is
  rw [← is]

theorem wholePosition_isSome : (wholePosition ordered repositoryId).isSome = true ↔
    repositoryId ∈ ordered := by
  rw [wholePosition, Option.isSome_map, List.isSome_idxOf?]

theorem idxOf_of_wholePosition {p : ℚ} (at_ : wholePosition ordered repositoryId = some p) :
    p = firstPosition + (ordered.idxOf repositoryId : ℕ) := by
  rw [wholePosition, Option.map_eq_some_iff] at at_
  obtain ⟨index, found, rfl⟩ := at_
  rw [List.idxOf_eq_getD_idxOf?, found]
  rfl

/-- A whole order ranks what it names, in the order it names it. -/
theorem rankedLinks_whole (once : ordered.Nodup)
    (linked : ∀ id ∈ ordered, ∃ link ∈ order.links, link.repositoryId = id) :
    (rankedLinks (after order.links (wholeFacts order.links ordered))).map (·.repositoryId) =
      ordered := by
  have ids : ((after order.links (wholeFacts order.links ordered)).map (·.repositoryId)).Nodup := by
    rw [((after_perm _ _).map _).nodup_iff, map_moved_ids]
    exact order.ids
  have idsRanked := ids.sublist (List.Sublist.map (fun link : RankedLink => link.repositoryId)
    (List.filter_sublist (p := fun link : RankedLink => link.position.isSome)))
  have same : ((rankedLinks (after order.links (wholeFacts order.links ordered))).map
      (·.repositoryId)).Perm ordered := by
    apply (List.perm_ext_iff_of_nodup idsRanked once).mpr
    intro id
    rw [List.mem_map]
    constructor
    · rintro ⟨link, mem, rfl⟩
      obtain ⟨of, ranked⟩ := List.mem_filter.mp mem
      rw [mem_after_whole of] at ranked
      exact wholePosition_isSome.mp ranked
    · intro named
      obtain ⟨link, of, rfl⟩ := linked id named
      refine ⟨moved (wholeFacts order.links ordered) link, List.mem_filter.mpr ⟨?_, ?_⟩,
        moved_repositoryId _ _⟩
      · rw [(after_perm _ _).mem_iff]
        exact List.mem_map_of_mem of
      · rw [moved_whole order ordered of]
        exact wholePosition_isSome.mpr named
  refine @List.Perm.eq_of_pairwise _ (fun a b => ordered.idxOf a ≤ ordered.idxOf b) _ _ ?_ ?_ ?_
    same
  · intro a b ofA ofB le ge
    exact (List.idxOf_inj (same.mem_iff.mp ofA)).mp (le_antisymm le ge)
  · rw [List.pairwise_map]
    have sorted := (after_sorted order.links (wholeFacts order.links ordered)).sublist
      (List.filter_sublist (p := fun link : RankedLink => link.position.isSome))
    refine List.Pairwise.imp_of_mem ?_ sorted
    intro a b ofA ofB le
    obtain ⟨ofB, ranked⟩ := List.mem_filter.mp ofB
    obtain ⟨q, ofQ⟩ := Option.isSome_iff_exists.mp ranked
    obtain ⟨p, ofP, less⟩ := le_of_key_le le ofQ
    rw [mem_after_whole (List.mem_filter.mp ofA).1] at ofP
    rw [mem_after_whole ofB] at ofQ
    rw [idxOf_of_wholePosition ofP, idxOf_of_wholePosition ofQ] at less
    have cast := le_of_add_le_add_left less
    exact Nat.cast_le.mp cast
  · rw [List.pairwise_iff_getElem]
    intro i j hi hj less
    rw [once.idxOf_getElem, once.idxOf_getElem]
    exact less.le

theorem standing_ranked_entries (links : List RankedLink) :
    (standing links).filter Prod.snd =
      ((rankedLinks links).map (·.repositoryId)).map fun repositoryId => (repositoryId, true) := by
  rw [standing, List.filter_map, rankedLinks, List.map_map]
  apply List.map_congr_left
  intro link mem
  have ranked : link.position.isSome = true := (List.mem_filter.mp mem).2
  rw [ranked]
  rfl

/-- The links a standing order leaves unranked stay so. -/
theorem unranked_whole (ranks : (rankedLinks order.links).map (·.repositoryId) = ordered) :
    (after order.links (wholeFacts order.links ordered)).filter
        (fun link => !link.position.isSome) =
      order.links.filter fun link => !link.position.isSome := by
  apply after_filter
  have ranked : ∀ link ∈ order.links, (moved (wholeFacts order.links ordered) link).position.isSome =
      link.position.isSome := by
    intro link mem
    rw [moved_whole order ordered mem, Bool.eq_iff_iff]
    refine wholePosition_isSome.trans ?_
    rw [← ranks, List.mem_map]
    constructor
    · rintro ⟨other, of, same⟩
      obtain ⟨ofLinks, is⟩ := List.mem_filter.mp of
      rwa [List.inj_on_of_nodup_map order.ids ofLinks mem same] at is
    · intro is
      exact ⟨link, List.mem_filter.mpr ⟨mem, is⟩, rfl⟩
  have same : order.links.filter ((fun link => !link.position.isSome) ∘
      moved (wholeFacts order.links ordered)) =
      order.links.filter fun link => !link.position.isSome := by
    apply List.filter_congr
    intro link mem
    exact congrArg not (ranked link mem)
  rw [List.filter_map, same]
  apply (List.map_congr_left _).trans (List.map_id _)
  intro link mem
  obtain ⟨of, unranked⟩ := List.mem_filter.mp mem
  have bare : link.position = none := by simpa using unranked
  have still := ranked link of
  rw [bare, moved_whole order ordered of, Option.isSome_none, Option.isSome_eq_false_iff,
    Option.isNone_iff_eq_none] at still
  change wholePosition ordered link.repositoryId = none at still
  rw [moved_whole order ordered of, still, ← bare]
  rfl

/-- The landing order read back after a write. -/
def readBack (order : LandingOrder) (facts : List PositionFact) (seq : ℕ) : LandingOrder where
  links := after order.links facts
  seq := seq
  ids := by
    rw [((after_perm _ _).map _).nodup_iff, map_moved_ids]
    exact order.ids
  slugs := by
    rw [((after_perm _ _).map _).nodup_iff, map_moved_slugs]
    exact order.slugs
  sorted := after_sorted _ _

/-- A standing order is its ranked links, then its unranked ones. -/
theorem standing_parts (order : LandingOrder) : standing order.links =
    standing (rankedLinks order.links) ++
      standing (order.links.filter fun link => !link.position.isSome) := by
  have parts := ranked_first order fun _ => true
  rw [List.filter_true, List.filter_true] at parts
  rw [← standing_append, ← parts]

/-- A whole order keeps the standing order just where it names the ranked links in their order. -/
theorem whole_stands_iff (once : ordered.Nodup)
    (linked : ∀ id ∈ ordered, ∃ link ∈ order.links, link.repositoryId = id) :
    standing (after order.links (wholeFacts order.links ordered)) = standing order.links ↔
      (rankedLinks order.links).map (·.repositoryId) = ordered := by
  have now := rankedLinks_whole once linked
  constructor
  · intro same
    rw [← standing_ranked, ← same, standing_ranked, now]
  · intro ranks
    rw [standing_parts order, ← unranked_whole ranks]
    refine (standing_parts (readBack order (wholeFacts order.links ordered) order.seq)).trans
      (congrArg (· ++ _) ?_)
    apply standing_of_positions
    · exact now.trans ranks.symm
    · exact fun link mem => (List.mem_filter.mp mem).2
    · exact fun link mem => (List.mem_filter.mp mem).2

/-- A whole order that stands writes nothing just where the ranked links are at the positions it
gives. -/
theorem whole_silent (ranks : (rankedLinks order.links).map (·.repositoryId) = ordered) :
    wholeFacts order.links ordered = [] ↔ ∀ (i : ℕ) (link : RankedLink),
      (rankedLinks order.links)[i]? = some link → link.position = some (firstPosition + i) := by
  have once : ordered.Nodup := by
    rw [← ranks]
    exact order.ids.sublist (List.filter_sublist.map _)
  have there : ∀ (i : ℕ) (link : RankedLink), (rankedLinks order.links)[i]? = some link →
      wholePosition ordered link.repositoryId = some (firstPosition + i) := by
    intro i link at_
    have named : ordered[i]? = some link.repositoryId := by
      rw [← ranks, List.getElem?_map, at_]
      rfl
    obtain ⟨below, is⟩ := List.getElem?_eq_some_iff.mp named
    have index : ordered.idxOf? link.repositoryId = some i := by
      rw [List.idxOf?_eq_some_iff]
      refine ⟨below, is, ?_⟩
      intro j less same
      have inside := less.trans below
      exact less.ne ((List.getElem_inj once).mp (same.trans is.symm))
    rw [wholePosition, index]
    rfl
  rw [wholeFacts, changed_eq_nil_iff]
  constructor
  · intro settled i link at_
    have mem := List.filter_sublist.subset (List.mem_of_getElem? at_)
    have is := settled _ (List.mem_map_of_mem mem)
    rw [byId_of_mem order.ids mem] at is
    exact is.trans (there i link at_)
  · intro placed pair mem
    obtain ⟨link, of, rfl⟩ := List.mem_map.mp mem
    rw [byId_of_mem order.ids of, Option.bind_some]
    cases ranked : link.position with
    | some p =>
      have inRanked : link ∈ rankedLinks order.links :=
        List.mem_filter.mpr ⟨of, by rw [ranked]; rfl⟩
      obtain ⟨i, at_⟩ := List.mem_iff_getElem?.mp inRanked
      rw [there i link at_, ← placed i link at_, ranked]
    | none =>
      symm
      rw [← Option.isNone_iff_eq_none, ← Option.isSome_eq_false_iff, Bool.eq_false_iff]
      intro named
      rw [wholePosition_isSome, ← ranks, List.mem_map] at named
      obtain ⟨other, ofOther, same⟩ := named
      obtain ⟨ofLinks, is⟩ := List.mem_filter.mp ofOther
      rw [List.inj_on_of_nodup_map order.ids ofLinks of same, ranked] at is
      cases is

theorem whole_kept (once : ordered.Nodup)
    (linked : ∀ id ∈ ordered, ∃ link ∈ order.links, link.repositoryId = id) :
    Kept spent order.links (wholeFacts order.links ordered) (.whole ordered) := by
  refine ⟨⟨?_, ?_⟩, ?_⟩
  · have ids := (after_perm order.links (wholeFacts order.links ordered)).map (·.repositoryId)
    rw [map_moved_ids] at ids
    rw [standing, standing, List.map_map, List.map_map]
    exact ids
  · rw [standing_ranked_entries, rankedLinks_whole once linked]
  · rw [whole_stands_iff once linked, Settled]
    constructor
    · intro silent ranks
      exact (whole_silent ranks).mp (silent ranks)
    · intro settled ranks
      exact (whole_silent ranks).mpr (settled ranks)

/-! ## Every write -/

/-- Every planned write displaces what it names and nothing else, and one asking for the order that
stands is silent on just the settled links. -/
theorem writes_displace_and_settle (spent : ℚ → ℚ → Bool) (gap : GapTest spent firstPosition)
    (order : LandingOrder) (project : String) (write : OrderWrite) (facts : List PositionFact)
    (planned : plan spent order project write = .ok facts) :
    Displaced (standing order.links) (standing (after order.links facts)) write ∧
      ((standing (after order.links facts) = standing order.links → facts = []) ↔
        Settled spent order.links write) := by
  cases write with
  | whole ordered =>
    simp only [plan, wholeOrder] at planned
    split at planned
    · cases planned
    · rename_i passed
      obtain ⟨once, named⟩ := checkNamed_passed passed
      obtain rfl := Except.ok.inj planned
      exact whole_kept once fun id mem => (named id mem).2
  | front repositoryId =>
    simp only [plan, move] at planned
    split at planned
    · cases planned
    · rename_i link found
      obtain ⟨mem, rfl⟩ := mem_of_byId found
      rw [if_neg Bool.false_ne_true] at planned
      exact front_kept gap mem planned
  | beside repositoryId anchorId =>
    simp only [plan, move] at planned
    split at planned
    · cases planned
    · rename_i link found
      obtain ⟨mem, rfl⟩ := mem_of_byId found
      split at planned
      · cases planned
      · rw [if_neg Bool.false_ne_true] at planned
        split at planned
        · cases planned
        · split at planned
          · cases planned
          · rename_i index at_
            obtain ⟨below, is, -⟩ := List.findIdx?_eq_some_iff_getElem.mp at_
            obtain rfl := of_decide_eq_true is
            exact beside_kept gap mem (List.getElem?_eq_getElem below) planned
  | unranked repositoryId =>
    simp only [plan, move] at planned
    split at planned
    · cases planned
    · rename_i link found
      obtain ⟨mem, rfl⟩ := mem_of_byId found
      rw [if_pos trivial] at planned
      obtain rfl := Except.ok.inj planned
      exact unranked_kept mem

/-- In exact arithmetic only a tie leaves no gap. -/
def exactlySpent (a b : ℚ) : Bool := !decide (a < b)

theorem exactlySpent_gap (start : ℚ) : GapTest exactlySpent start where
  apart a b open_ := by simpa [exactlySpent] using open_
  whole n := by simp [exactlySpent]

/-- Two tied links and an unranked one. -/
def tiedOrder : LandingOrder where
  links := [⟨"r1", "api", some 1⟩, ⟨"r2", "web", some 1⟩, ⟨"r3", "docs", none⟩]
  seq := 2
  ids := by decide
  slugs := by decide
  sorted := by decide +kernel

theorem landing_in_a_tie :
    plan exactlySpent tiedOrder "p" (.beside "r3" "r1") =
        .ok [⟨"r2", some 2⟩, ⟨"r3", some (3 / 2)⟩] ∧
      Displaced (standing tiedOrder.links)
        (standing (after tiedOrder.links [⟨"r2", some 2⟩, ⟨"r3", some (3 / 2)⟩]))
        (.beside "r3" "r1") := by
  have planned : plan exactlySpent tiedOrder "p" (.beside "r3" "r1") =
      .ok [⟨"r2", some 2⟩, ⟨"r3", some (3 / 2)⟩] := by decide +kernel
  exact ⟨planned, (writes_displace_and_settle exactlySpent (exactlySpent_gap _) tiedOrder "p"
    (.beside "r3" "r1") _ planned).1⟩

/-- A link moved to the front stands one before the first position. -/
def frontedOrder : LandingOrder where
  links := [⟨"r2", "web", some 0⟩, ⟨"r1", "api", some 1⟩]
  seq := 3
  ids := by decide
  slugs := by decide
  sorted := by decide +kernel

/-- Asking for the standing order of a fronted link writes both positions again. -/
theorem standing_order_rewritten : ¬∀ (order : LandingOrder) (project : String) (write : OrderWrite)
    (facts : List PositionFact), plan exactlySpent order project write = .ok facts →
    Displaced (standing order.links) (standing (after order.links facts)) write ∧
      (standing (after order.links facts) = standing order.links → facts = []) := by
  intro claim
  have planned : plan exactlySpent frontedOrder "p" (.whole ["r2", "r1"]) =
      .ok [⟨"r2", some 1⟩, ⟨"r1", some 2⟩] := by decide +kernel
  have kept := (claim frontedOrder "p" _ _ planned).2
  have stands : standing (after frontedOrder.links [⟨"r2", some 1⟩, ⟨"r1", some 2⟩]) =
      standing frontedOrder.links := by decide +kernel
  cases kept stands

end Blizzard.LandingOrders
