import Blizzard.LandingOrder

/-! # What a landing-order write leaves

A write's facts, read back in landing order, displace the link they move and no
other. A write that asks for the order that stands writes nothing just where the
links sit at the very positions it would give them. -/
namespace Blizzard.LandingMoves
open SortedRanks FloatSlots LandingOrder

/-- Each link's repository in landing order, and whether it is ranked. -/
def standing (links : List RankedLink) : List (RepositoryId × Bool) :=
  links.map fun link => (link.repositoryId, link.position.isSome)

def otherThan (repositoryId : RepositoryId) (entry : RepositoryId × Bool) : Bool :=
  decide (entry.1 ≠ repositoryId)

/-- The order `now` is `before` with what the write names displaced, and no other. -/
def Displaced (before now : List (RepositoryId × Bool)) : OrderWrite → Prop
  | .whole ordered => (now.map Prod.fst).Perm (before.map Prod.fst) ∧
      now.filter Prod.snd = ordered.map fun repositoryId => (repositoryId, true)
  | .front repositoryId => now = (repositoryId, true) :: before.filter (otherThan repositoryId)
  | .beside repositoryId anchor => ∃ front back,
      before.filter (otherThan repositoryId) = front ++ (anchor, true) :: back ∧
        now = front ++ (anchor, true) :: (repositoryId, true) :: back
  | .unranked repositoryId =>
      now.filter (otherThan repositoryId) = before.filter (otherThan repositoryId) ∧
        (repositoryId, false) ∈ now ∧ now.Pairwise fun a b => b.2 = true → a.2 = true

/-- The ranked links. -/
def rankedLinks (links : List RankedLink) : List RankedLink :=
  links.filter fun link => link.position.isSome

/-- A link stands at its place between its ranked neighbours: alone at the first position, one before
the first, one past the last, else at the midpoint of a gap that is not spent. -/
def AtPlace (spent : ℚ → ℚ → Bool) : Option RankedLink → RankedLink → List RankedLink → Prop
  | none, link, [] => link.position = some firstPosition
  | none, link, next :: _ => ∃ q, next.position = some q ∧ link.position = some (q - 1)
  | some anchor, link, [] => ∃ p, anchor.position = some p ∧ link.position = some (p + 1)
  | some anchor, link, next :: _ => ∃ p q, anchor.position = some p ∧ next.position = some q ∧
      spent p q = false ∧ link.position = some ((p + q) / 2)

/-- Where the write asks for the order that stands, the links it ranks are at their places. -/
def Settled (spent : ℚ → ℚ → Bool) (links : List RankedLink) : OrderWrite → Prop
  | .whole ordered => (rankedLinks links).map (·.repositoryId) = ordered →
      ∀ (i : ℕ) (link : RankedLink), (rankedLinks links)[i]? = some link →
        link.position = some (firstPosition + i)
  | .front repositoryId => ∀ link rest, rankedLinks links = link :: rest →
      link.repositoryId = repositoryId → AtPlace spent none link rest
  | .beside repositoryId anchorId => ∀ front anchor link back,
      rankedLinks links = front ++ anchor :: link :: back → anchor.repositoryId = anchorId →
      link.repositoryId = repositoryId → AtPlace spent (some anchor) link back
  | .unranked _ => True

variable {spent : ℚ → ℚ → Bool} {order : LandingOrder} {links others : List RankedLink}
  {a b link : RankedLink} {facts : List PositionFact} {wanted : List (RepositoryId × Option ℚ)}
  {repositoryId : RepositoryId}

/-! ## The sort key -/

theorem key_le_iff : a.key ≤ b.key ↔
    a.position.isNone < b.position.isNone ∨ a.position.isNone = b.position.isNone ∧
      (a.position.getD 0 < b.position.getD 0 ∨
        a.position.getD 0 = b.position.getD 0 ∧ a.slug ≤ b.slug) := by
  rw [RankedLink.key, RankedLink.key, landingSortKey, landingSortKey, Prod.Lex.toLex_le_toLex,
    Prod.Lex.toLex_le_toLex]

theorem slug_of_key_eq (same : a.key = b.key) : a.slug = b.slug :=
  congrArg (fun key => (ofLex (ofLex key).2).2) same

/-- A ranked link precedes an unranked one. -/
theorem key_le_of_unranked (ranked : a.position.isSome = true) (unranked : b.position = none) :
    a.key ≤ b.key := by
  obtain ⟨p, at_⟩ := Option.isSome_iff_exists.mp ranked
  apply key_le_iff.mpr
  left
  rw [at_, unranked]
  exact Bool.false_lt_true

theorem key_le_of_lt {p q : ℚ} (ofA : a.position = some p) (ofB : b.position = some q)
    (less : p < q) : a.key ≤ b.key := by
  apply key_le_iff.mpr
  right
  rw [ofA, ofB]
  exact ⟨rfl, .inl less⟩

/-- What precedes a ranked link is ranked, at no greater position. -/
theorem le_of_key_le {q : ℚ} (le : a.key ≤ b.key) (ofB : b.position = some q) :
    ∃ p, a.position = some p ∧ p ≤ q := by
  rw [key_le_iff, ofB] at le
  cases ofA : a.position with
  | none =>
    rw [ofA] at le
    rcases le with less | ⟨same, -⟩
    · exact absurd (show true < false from less) (by decide)
    · cases same
  | some p =>
    rw [ofA] at le
    rcases le with less | ⟨-, less | ⟨same, -⟩⟩
    · exact absurd (show false < false from less) (lt_irrefl _)
    · exact ⟨p, rfl, less.le⟩
    · exact ⟨p, rfl, same.le⟩

/-- Links of distinct slugs have one landing order. -/
theorem landing_unique {first second : List RankedLink} (slugs : (second.map (·.slug)).Nodup)
    (perm : first.Perm second) (sortedFirst : first.Pairwise fun a b => a.key ≤ b.key)
    (sortedSecond : second.Pairwise fun a b => a.key ≤ b.key) : first = second := by
  refine perm.eq_of_pairwise ?_ sortedFirst sortedSecond
  intro a b ofA ofB le ge
  exact List.inj_on_of_nodup_map slugs (perm.mem_iff.mp ofA) ofB
    (slug_of_key_eq (le_antisymm le ge))

/-! ## The facts read back -/

@[simp] theorem moved_repositoryId (facts : List PositionFact) (link : RankedLink) :
    (moved facts link).repositoryId = link.repositoryId := by
  rw [moved]
  split <;> rfl

@[simp] theorem moved_slug (facts : List PositionFact) (link : RankedLink) :
    (moved facts link).slug = link.slug := by
  rw [moved]
  split <;> rfl

theorem byId_of_mem (ids : (links.map (·.repositoryId)).Nodup) (mem : link ∈ links) :
    byId links link.repositoryId = some link := by
  cases found : byId links link.repositoryId with
  | none =>
    have none_ := List.find?_eq_none.mp found link mem
    simp at none_
  | some other =>
    have same : other.repositoryId = link.repositoryId :=
      of_decide_eq_true (List.find?_some (p := fun l : RankedLink =>
        decide (l.repositoryId = link.repositoryId)) found)
    rw [List.inj_on_of_nodup_map ids (List.mem_of_find?_eq_some found) mem same]

theorem changed_append (links : List RankedLink) (first second : List (RepositoryId × Option ℚ)) :
    changed links (first ++ second) = changed links first ++ changed links second := by
  simp [changed]

theorem changed_filter_absent (absent : repositoryId ∉ wanted.map Prod.fst) :
    (changed links wanted).filter (fun fact => decide (fact.repositoryId = repositoryId)) = [] := by
  apply List.filter_eq_nil_iff.mpr
  intro fact mem is
  obtain ⟨pair, kept, rfl⟩ := List.mem_map.mp mem
  have named := List.mem_map_of_mem (f := Prod.fst) (List.mem_filter.mp kept).1
  exact absent (of_decide_eq_true is ▸ named)

/-- A link no fact names stays as it is. -/
theorem moved_of_absent (absent : link.repositoryId ∉ wanted.map Prod.fst) :
    moved (changed links wanted) link = link := by
  rw [moved, changed_filter_absent absent]
  rfl

/-- A link reads the position wanted for it back. -/
theorem moved_of_wanted (ids : (links.map (·.repositoryId)).Nodup) (mem : link ∈ links)
    (distinct : (wanted.map Prod.fst).Nodup) {p : Option ℚ}
    (want : (link.repositoryId, p) ∈ wanted) :
    moved (changed links wanted) link = { link with position := p } := by
  obtain ⟨front, back, rfl⟩ := List.append_of_mem want
  rw [List.map_append, List.map_cons] at distinct
  have before : link.repositoryId ∉ front.map Prod.fst := by
    intro named
    exact (List.disjoint_of_nodup_append distinct) named List.mem_cons_self
  have behind : link.repositoryId ∉ back.map Prod.fst :=
    (List.nodup_cons.mp distinct.of_append_right).1
  have found : (byId links link.repositoryId).bind (·.position) = link.position := by
    rw [byId_of_mem ids mem, Option.bind_some]
  have split : (changed links (front ++ (link.repositoryId, p) :: back)).filter
      (fun fact => decide (fact.repositoryId = link.repositoryId)) =
      if link.position ≠ p then [⟨link.repositoryId, p⟩] else [] := by
    rw [changed_append, List.filter_append, changed_filter_absent before, List.nil_append,
      show (link.repositoryId, p) :: back = [(link.repositoryId, p)] ++ back from rfl,
      changed_append, List.filter_append, changed_filter_absent behind, List.append_nil]
    by_cases same : link.position = p
    · simp [changed, found, same]
    · simp [changed, found, same]
  rw [moved, split]
  by_cases same : link.position = p
  · rw [if_neg (not_not.mpr same), ← same]
    rfl
  · rw [if_pos same]
    rfl

/-- Nothing is written just where every link wanted somewhere is there. -/
theorem changed_eq_nil_iff : changed links wanted = [] ↔
    ∀ pair ∈ wanted, (byId links pair.1).bind (·.position) = pair.2 := by
  rw [changed, List.map_eq_nil_iff, List.filter_eq_nil_iff]
  apply forall₂_congr
  intro pair _
  simp

/-! ## The order read back -/

theorem map_moved_ids (links : List RankedLink) (facts : List PositionFact) :
    (links.map (moved facts)).map (·.repositoryId) = links.map (·.repositoryId) := by
  rw [List.map_map]
  exact List.map_congr_left fun link _ => moved_repositoryId facts link

theorem map_moved_slugs (links : List RankedLink) (facts : List PositionFact) :
    (links.map (moved facts)).map (·.slug) = links.map (·.slug) := by
  rw [List.map_map]
  exact List.map_congr_left fun link _ => moved_slug facts link

/-- The order after a write is the one sorted arrangement of the links it leaves. -/
theorem after_eq (order : LandingOrder) {facts : List PositionFact} {now : List RankedLink}
    (perm : now.Perm (order.links.map (moved facts)))
    (sorted : now.Pairwise fun a b => a.key ≤ b.key) : after order.links facts = now := by
  refine landing_unique ?_ ((ranked_perm _ _).trans perm.symm) (ranked_sorted _ _) sorted
  rw [(perm.map (·.slug)).nodup_iff, map_moved_slugs]
  exact order.slugs

theorem inLandingOrder_eq (order : LandingOrder) : inLandingOrder order.links = order.links :=
  landing_unique order.slugs (ranked_perm _ _) (ranked_sorted _ _) order.sorted

/-- The ranked links come first. -/
theorem ranked_first (order : LandingOrder) (keep : RankedLink → Bool) :
    order.links.filter keep = (rankedLinks order.links).filter keep ++
      (order.links.filter keep).filter fun link => !link.position.isSome := by
  have slugs : ((order.links.filter keep).map (·.slug)).Nodup :=
    order.slugs.sublist (List.filter_sublist.map _)
  have sorted : (order.links.filter keep).Pairwise fun a b => a.key ≤ b.key :=
    order.sorted.sublist List.filter_sublist
  have swap : (rankedLinks order.links).filter keep =
      (order.links.filter keep).filter fun link => link.position.isSome := by
    rw [rankedLinks, List.filter_filter, List.filter_filter]
    apply List.filter_congr
    intro link _
    exact Bool.and_comm _ _
  rw [swap]
  refine (landing_unique slugs (List.filter_append_perm _ _) ?_ sorted).symm
  refine List.pairwise_append.mpr ⟨sorted.sublist List.filter_sublist,
    sorted.sublist List.filter_sublist, ?_⟩
  intro a ofA b ofB
  have unranked : b.position = none := by simpa using (List.mem_filter.mp ofB).2
  exact key_le_of_unranked (List.mem_filter.mp ofA).2 unranked

theorem rankedOthers_eq (order : LandingOrder) (repositoryId : RepositoryId) :
    rankedOthers order.links repositoryId =
      (rankedLinks order.links).filter fun link => decide (link.repositoryId ≠ repositoryId) := by
  rw [rankedOthers, inLandingOrder_eq, rankedLinks, List.filter_filter]
  apply List.filter_congr
  intro link _
  exact Bool.and_comm _ _

/-- The unranked links but one. -/
def unrankedOthers (links : List RankedLink) (repositoryId : RepositoryId) : List RankedLink :=
  (links.filter fun link => decide (link.repositoryId ≠ repositoryId)).filter fun link =>
    !link.position.isSome

/-- A link and the others, ranked before unranked, are the project's links. -/
theorem others_perm (order : LandingOrder) (mem : link ∈ order.links) :
    (link :: (rankedOthers order.links link.repositoryId ++
      unrankedOthers order.links link.repositoryId)).Perm order.links := by
  rw [rankedOthers_eq, unrankedOthers, ← ranked_first]
  have fresh : link ∉ order.links.filter fun other =>
      decide (other.repositoryId ≠ link.repositoryId) := by
    intro kept
    exact of_decide_eq_true (List.mem_filter.mp kept).2 rfl
  apply (List.perm_ext_iff_of_nodup (List.nodup_cons.mpr ⟨fresh, order.ids.of_map.filter _⟩)
    order.ids.of_map).mpr
  intro other
  rw [List.mem_cons, List.mem_filter, decide_eq_true_eq]
  constructor
  · rintro (rfl | ⟨of, -⟩)
    · exact mem
    · exact of
  · intro of
    by_cases same : other.repositoryId = link.repositoryId
    · exact .inl (List.inj_on_of_nodup_map order.ids of mem same)
    · exact .inr ⟨of, same⟩

theorem ranked_of_others (mem : link ∈ rankedOthers links repositoryId) :
    ∃ p, link.position = some p := by
  have kept := (List.mem_filter.mp mem).2
  rw [Bool.and_eq_true] at kept
  exact Option.isSome_iff_exists.mp kept.1

/-- The positions of ranked links. -/
def positionsOf (links : List RankedLink) : List ℚ := links.filterMap (·.position)

theorem map_position (ranked : ∀ link ∈ others, ∃ p, link.position = some p) :
    others.map (·.position) = (positionsOf others).map some := by
  induction others with
  | nil => rfl
  | cons link rest ih =>
    obtain ⟨p, at_⟩ := ranked link List.mem_cons_self
    have later := ih fun other mem => ranked other (List.mem_cons_of_mem _ mem)
    rw [positionsOf, List.filterMap_cons, at_]
    simp only [List.map_cons, at_, later, positionsOf]

theorem positionsOf_length (ranked : ∀ link ∈ others, ∃ p, link.position = some p) :
    (positionsOf others).length = others.length := by
  have same := congrArg List.length (map_position ranked)
  rw [List.length_map, List.length_map] at same
  exact same.symm

theorem positionsOf_sorted (ranked : ∀ link ∈ others, ∃ p, link.position = some p)
    (sorted : others.Pairwise fun a b => a.key ≤ b.key) : (positionsOf others).Pairwise (· ≤ ·) := by
  rw [positionsOf, List.pairwise_filterMap]
  refine sorted.imp ?_
  intro a b le p ofA q ofB
  obtain ⟨p', ofA', bound⟩ := le_of_key_le le ofB
  obtain rfl := Option.some.inj (ofA'.symm.trans ofA)
  exact bound

end Blizzard.LandingMoves
