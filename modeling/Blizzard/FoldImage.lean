import Mathlib.Order.Bounds.Basic
import Blizzard.DependencyAcyclicity

/-! # What a fold leaves standing

A fold carries every standing edge onto the survivor: what stands after its releases and mints is
the image of the edges before, each pair since the earliest instant one of its edges was declared. -/
namespace Blizzard.FoldImage
open HubTables DependencyEdges DependencyAcyclicity

variable {standing_ unfolded seen : List DependencyRow} {survivor : ChunkId}
  {folded : List ChunkId} {state : FoldState}

/-- The pair a fold carries an edge onto. -/
def imagePair (survivor : ChunkId) (folded : List ChunkId) (e : DependencyRow) : Pair :=
  (remap survivor folded e.dependentChunkId, remap survivor folded e.prerequisiteChunkId)

/-- The instants the edges carried onto a pair were declared at. -/
def declaredOn (standing_ : List DependencyRow) (survivor : ChunkId) (folded : List ChunkId)
    (pair : Pair) : Set Instant :=
  {instant | ∃ e ∈ standing_, imagePair survivor folded e = pair ∧ e.declaredAt = instant}

/-- An edge a fold replaces: it names a folded chunk, or an edge that does and was declared earlier
lands on its pair. -/
def Superseded (standing_ : List DependencyRow) (survivor : ChunkId) (folded : List ChunkId)
    (e : DependencyRow) : Prop :=
  touchesFolded folded e = true ∨ e.dependentChunkId ≠ e.prerequisiteChunkId ∧
    ∃ f ∈ standing_, touchesFolded folded f = true ∧
      imagePair survivor folded f = edgePair e ∧ f.declaredAt < e.declaredAt

/-- Every edge a plan releases, target by target. -/
def releasedIds (plan : FoldEdgePlan) (folded : List ChunkId) : List String :=
  folded.eraseDups.flatMap plan.releaseByTarget

/-- Every edge a plan mints, target by target. -/
def mintedEdges (plan : FoldEdgePlan) (folded : List ChunkId) : List FoldMint :=
  folded.eraseDups.flatMap plan.mintByTarget

/-- The edges that still stand as they were once a plan's releases are applied. -/
def keptEdges (standing_ : List DependencyRow) (plan : FoldEdgePlan) (folded : List ChunkId) :
    List DependencyRow :=
  standing_.filter fun e => e.dependencyId ∉ releasedIds plan folded

/-- What stands once all of a plan's releases and then all its mints are applied. -/
def applyPlan (standing_ : List DependencyRow) (plan : FoldEdgePlan) (folded : List ChunkId) :
    List (Pair × Instant) :=
  (keptEdges standing_ plan folded).map (fun e => (edgePair e, e.declaredAt)) ++
    (mintedEdges plan folded).map fun mint => (mint.pair, mint.declaredAt)

theorem remap_of_not_mem {id : ChunkId} (outside : id ∉ folded) :
    remap survivor folded id = id := by
  rw [remap, if_neg outside]

theorem imagePair_of_untouched {e : DependencyRow} (alone : touchesFolded folded e = false) :
    imagePair survivor folded e = edgePair e := by
  rw [touchesFolded, Bool.or_eq_false_iff] at alone
  rw [imagePair, remap_of_not_mem (of_decide_eq_false alone.1),
    remap_of_not_mem (of_decide_eq_false alone.2)]
  rfl

/-- What the loop has read in `seen` and done about it. -/
structure FoldHistory (survivor : ChunkId) (folded : List ChunkId)
    (unfolded seen : List DependencyRow) (state : FoldState) : Prop where
  /-- A mint stands for edges of `seen`, since the first of them, before any unfolded edge. -/
  distinctEnds : ∀ entry ∈ state.mints, entry.2.pair.1 ≠ entry.2.pair.2
  mintOf : ∀ entry ∈ state.mints, ∃ e ∈ seen, touchesFolded folded e = true ∧
    imagePair survivor folded e = entry.2.pair ∧ e.declaredAt = entry.2.declaredAt
  mintFirst : ∀ entry ∈ state.mints, ∀ e ∈ seen, touchesFolded folded e = true →
    imagePair survivor folded e = entry.2.pair → entry.2.declaredAt ≤ e.declaredAt
  mintBefore : ∀ entry ∈ state.mints, ∀ u ∈ unfolded, edgePair u = entry.2.pair →
    entry.2.declaredAt < u.declaredAt
  /-- A pair that was not minted stands already, since no later. -/
  unminted : ∀ e ∈ seen, touchesFolded folded e = true →
    (imagePair survivor folded e).1 ≠ (imagePair survivor folded e).2 →
    imagePair survivor folded e ∉ state.mintedPairs →
    ∃ u ∈ unfolded, edgePair u = imagePair survivor folded e ∧ u.declaredAt ≤ e.declaredAt
  supersededOf : ∀ id ∈ state.superseded, ∃ u ∈ unfolded, u.dependencyId = id ∧
    edgePair u ∈ state.mintedPairs
  supersededOnce : state.superseded.Nodup
  released : (state.releases.map Prod.snd).Perm
    (((seen.filter (touchesFolded folded)).map (·.dependencyId)) ++ state.superseded)

theorem filter_seen {edge : DependencyRow} (touched : touchesFolded folded edge = true) :
    ((seen ++ [edge]).filter (touchesFolded folded)).map (·.dependencyId) =
      (seen.filter (touchesFolded folded)).map (·.dependencyId) ++ [edge.dependencyId] := by
  rw [List.filter_append, List.filter_singleton, touched, List.map_append]
  rfl

/-- One more edge read that the loop leaves alone. -/
theorem FoldHistory.skip (history : FoldHistory survivor folded unfolded seen state)
    {edge : DependencyRow} (alone : touchesFolded folded edge = false) :
    FoldHistory survivor folded unfolded (seen ++ [edge]) state := by
  have older : ∀ e ∈ seen ++ [edge], touchesFolded folded e = true → e ∈ seen := by
    intro e inside touched
    rcases List.mem_append.mp inside with old | new
    · exact old
    · rw [List.mem_singleton.mp new, alone] at touched
      cases touched
  refine { history with mintOf := ?_, mintFirst := ?_, unminted := ?_, released := ?_ }
  · intro entry inside
    obtain ⟨e, old, rest⟩ := history.mintOf entry inside
    exact ⟨e, List.mem_append_left _ old, rest⟩
  · intro entry inside e read touched
    exact history.mintFirst entry inside e (older e read touched) touched
  · intro e read touched
    exact history.unminted e (older e read touched) touched
  · rw [List.filter_append, List.filter_singleton, alone]
    simpa using history.released

/-- A touched edge whose pair collapses, was minted, or stands already: it is only released. -/
theorem FoldHistory.release (history : FoldHistory survivor folded unfolded seen state)
    {edge : DependencyRow} (touched : touchesFolded folded edge = true)
    (later : ∀ e ∈ seen, e.declaredAt ≤ edge.declaredAt) (owner : ChunkId)
    (covered : (imagePair survivor folded edge).1 ≠ (imagePair survivor folded edge).2 →
      imagePair survivor folded edge ∉ state.mintedPairs →
      ∃ u ∈ unfolded, edgePair u = imagePair survivor folded edge ∧
        u.declaredAt ≤ edge.declaredAt) :
    FoldHistory survivor folded unfolded (seen ++ [edge])
      { state with releases := state.releases ++ [(owner, edge.dependencyId)] } := by
  refine { history with mintOf := ?_, mintFirst := ?_, unminted := ?_, released := ?_ }
  · intro entry inside
    obtain ⟨e, old, rest⟩ := history.mintOf entry inside
    exact ⟨e, List.mem_append_left _ old, rest⟩
  · intro entry inside e read named onto
    rcases List.mem_append.mp read with old | new
    · exact history.mintFirst entry inside e old named onto
    · obtain ⟨first, old, -, -, same⟩ := history.mintOf entry inside
      rw [List.mem_singleton.mp new, ← same]
      exact later first old
  · intro e read named
    rcases List.mem_append.mp read with old | new
    · exact history.unminted e old named
    · rw [List.mem_singleton.mp new]
      exact covered
  · rw [List.map_append, filter_seen touched, List.append_assoc]
    refine (history.released.append_right _).trans ?_
    rw [List.append_assoc]
    exact (List.perm_append_comm).append_left _

/-- Minting the pair of a touched edge that neither an edge read before nor an unfolded one
precedes. -/
theorem FoldHistory.mint (history : FoldHistory survivor folded unfolded seen state)
    {edge : DependencyRow} (touched : touchesFolded folded edge = true)
    (later : ∀ e ∈ seen, e.declaredAt ≤ edge.declaredAt)
    (ends : (imagePair survivor folded edge).1 ≠ (imagePair survivor folded edge).2)
    (fresh : imagePair survivor folded edge ∉ state.mintedPairs)
    (before : ∀ u ∈ unfolded, edgePair u = imagePair survivor folded edge →
      edge.declaredAt < u.declaredAt) (owner : ChunkId) :
    FoldHistory survivor folded unfolded (seen ++ [edge])
      { state with
        releases := state.releases ++ [(owner, edge.dependencyId)]
        mintedPairs := state.mintedPairs ++ [imagePair survivor folded edge]
        mints := state.mints ++ [(owner, ⟨(imagePair survivor folded edge).1,
          (imagePair survivor folded edge).2, edge.declaredAt⟩)] } := by
  have each : ∀ {P : ChunkId × FoldMint → Prop}, (∀ entry ∈ state.mints, P entry) →
      P (owner, ⟨(imagePair survivor folded edge).1, (imagePair survivor folded edge).2,
        edge.declaredAt⟩) → ∀ entry ∈ state.mints ++ [(owner,
        ⟨(imagePair survivor folded edge).1, (imagePair survivor folded edge).2,
          edge.declaredAt⟩)], P entry := by
    intro P old new entry inside
    rcases List.mem_append.mp inside with inside | inside
    · exact old entry inside
    · rw [List.mem_singleton.mp inside]
      exact new
  refine
    { distinctEnds := each history.distinctEnds ends
      mintOf := each ?_ ⟨edge, by simp, touched, rfl, rfl⟩
      mintFirst := each ?_ ?_
      mintBefore := each history.mintBefore before
      unminted := ?_
      supersededOf := ?_
      supersededOnce := history.supersededOnce
      released := ?_ }
  · intro entry inside
    obtain ⟨e, old, rest⟩ := history.mintOf entry inside
    exact ⟨e, List.mem_append_left _ old, rest⟩
  · intro entry inside e read named onto
    rcases List.mem_append.mp read with old | new
    · exact history.mintFirst entry inside e old named onto
    · obtain ⟨first, old, -, -, same⟩ := history.mintOf entry inside
      rw [List.mem_singleton.mp new, ← same]
      exact later first old
  · intro e read named onto
    rcases List.mem_append.mp read with old | new
    · -- an earlier edge of this pair left it to an unfolded one, which this edge precedes
      obtain ⟨u, alone, same, earlier⟩ :=
        history.unminted e old named (onto ▸ ends) (onto ▸ fresh)
      exact (before u alone (same.trans onto)).le.trans earlier
    · rw [List.mem_singleton.mp new]
  · intro e read named distinct unminted
    rcases List.mem_append.mp read with old | new
    · exact history.unminted e old named distinct fun minted =>
        unminted (List.mem_append_left _ minted)
    · rw [List.mem_singleton.mp new] at unminted
      exact absurd (List.mem_append_right _ (List.mem_singleton_self _)) unminted
  · intro id inside
    obtain ⟨u, alone, same, minted⟩ := history.supersededOf id inside
    exact ⟨u, alone, same, List.mem_append_left _ minted⟩
  · rw [List.map_append, filter_seen touched, List.append_assoc]
    refine (history.released.append_right _).trans ?_
    rw [List.append_assoc]
    exact (List.perm_append_comm).append_left _

/-- Releasing the unfolded edge of a pair that was minted. -/
theorem FoldHistory.supersede (history : FoldHistory survivor folded unfolded seen state)
    {existing : DependencyRow} (alone : existing ∈ unfolded)
    (minted : edgePair existing ∈ state.mintedPairs)
    (standing : existing.dependencyId ∉ state.superseded) (owner : ChunkId) :
    FoldHistory survivor folded unfolded seen
      { state with
        releases := state.releases ++ [(owner, existing.dependencyId)]
        superseded := state.superseded ++ [existing.dependencyId] } := by
  refine { history with supersededOf := ?_, supersededOnce := ?_, released := ?_ }
  · intro id inside
    rcases List.mem_append.mp inside with old | new
    · exact history.supersededOf id old
    · exact ⟨existing, alone, (List.mem_singleton.mp new).symm, minted⟩
  · refine List.nodup_append.mpr ⟨history.supersededOnce, List.nodup_singleton _, ?_⟩
    intro a old b new same
    exact standing ((List.mem_singleton.mp new).symm.trans same.symm ▸ old)
  · rw [List.map_append, ← List.append_assoc]
    exact history.released.append_right _

/-- One edge of the loop, the edges in declared order. -/
theorem FoldHistory.foldEdge (inv : FoldInvariant folded unfolded seen state)
    (history : FoldHistory survivor folded unfolded seen state)
    (pairs : unfolded.Pairwise fun a b => edgePair a ≠ edgePair b)
    (ids : (unfolded.map (·.dependencyId)).Nodup) {edge : DependencyRow}
    (later : ∀ e ∈ seen, e.declaredAt ≤ edge.declaredAt) :
    FoldHistory survivor folded unfolded (seen ++ [edge])
      (foldEdge survivor folded state edge) := by
  rw [DependencyEdges.foldEdge]
  split
  next alone => exact history.skip (by simpa using alone)
  next touched =>
    replace touched : touchesFolded folded edge = true := by simpa using touched
    dsimp only
    generalize (if edge.dependentChunkId ∈ folded then edge.dependentChunkId
      else edge.prerequisiteChunkId) = owner
    split
    next skipped =>
      refine history.release touched later _ fun distinct unminted => ?_
      rcases skipped with collapsed | minted
      · exact absurd collapsed distinct
      · exact absurd minted unminted
    next guard =>
      obtain ⟨ends, fresh⟩ := not_or.mp guard
      have lookup := inv.standing_lookup _ fresh
      split
      next absent =>
        refine history.mint touched later ends fresh ?_ _
        intro u alone onto
        exact absurd onto (unfoldedByPair_eq_none (lookup ▸ absent) alone)
      next existing stands =>
        have found := lookup ▸ stands
        have own := List.mem_of_getLast? found
        rw [List.mem_filter] at own
        obtain ⟨alone, onto⟩ := own
        replace onto := of_decide_eq_true onto
        split
        next earlier =>
          exact history.release touched later _ fun _ _ => ⟨existing, alone, onto, earlier⟩
        next precedes =>
          have minting := history.mint touched later ends fresh (fun u inside same => by
            rw [unfoldedByPair_eq_some pairs found inside same]
            exact not_le.mp precedes)
          have standing : existing.dependencyId ∉ state.superseded := by
            intro before
            obtain ⟨u, inside, same, minted⟩ := history.supersededOf _ before
            obtain rfl := List.inj_on_of_nodup_map ids inside alone same
            exact fresh (onto ▸ minted)
          have minted : edgePair existing ∈
              state.mintedPairs ++ [imagePair survivor folded edge] := by
            rw [onto]
            exact List.mem_append_right _ (List.mem_singleton_self _)
          have last := (minting owner).supersede alone minted standing owner
          exact { last with }

theorem foldLoop_history (survivor : ChunkId) (folded : List ChunkId)
    (ids : (standing_.map (·.dependencyId)).Nodup)
    (pairs : standing_.Pairwise fun a b => edgePair a ≠ edgePair b)
    (ordered : standing_.Pairwise fun a b => a.declaredAt ≤ b.declaredAt) :
    FoldHistory survivor folded (unfoldedEdges standing_ folded) standing_
      (foldLoop standing_ survivor folded) := by
  have apart : (unfoldedEdges standing_ folded).Pairwise fun a b => edgePair a ≠ edgePair b :=
    pairs.filter _
  have distinct : ((unfoldedEdges standing_ folded).map (·.dependencyId)).Nodup :=
    ids.sublist (List.filter_sublist.map _)
  have carries : ∀ (rest seen : List DependencyRow) (state : FoldState),
      standing_ = seen ++ rest → FoldInvariant folded (unfoldedEdges standing_ folded) seen state →
      FoldHistory survivor folded (unfoldedEdges standing_ folded) seen state →
        FoldHistory survivor folded (unfoldedEdges standing_ folded) (seen ++ rest)
          (rest.foldl (foldEdge survivor folded) state) := by
    intro rest
    induction rest with
    | nil => exact fun seen state _ _ history => by simpa using history
    | cons edge rest ih =>
      intro seen state split_ inv history
      have later : ∀ e ∈ seen, e.declaredAt ≤ edge.declaredAt := by
        intro e inside
        rw [split_, List.pairwise_append] at ordered
        exact ordered.2.2 e inside edge List.mem_cons_self
      have next := ih (seen ++ [edge]) _ (by rw [split_, List.append_assoc]; rfl)
        (inv.foldEdge survivor apart edge) (history.foldEdge inv apart distinct later)
      rwa [List.append_assoc, List.singleton_append] at next
  refine carries standing_ [] _ rfl ?_ ?_
  · constructor <;> simp
  · constructor <;> simp

/-- Entries gathered owner by owner are the entries, in another order. -/
theorem gathered_perm {β : Type} {owners : List ChunkId} (once : owners.Nodup) :
    ∀ {entries : List (ChunkId × β)}, (∀ entry ∈ entries, entry.1 ∈ owners) →
      (owners.flatMap fun owner => (entries.filter fun entry => entry.1 = owner).map Prod.snd).Perm
        (entries.map Prod.snd) := by
  induction owners with
  | nil =>
    intro entries owned
    rw [List.eq_nil_iff_forall_not_mem.mpr fun entry inside => List.not_mem_nil (owned entry inside)]
    exact .refl _
  | cons owner owners ih =>
    intro entries owned
    obtain ⟨other, once⟩ := List.nodup_cons.mp once
    have rest := @ih once (entries.filter fun entry => ¬entry.1 = owner) (by
      intro entry inside
      obtain ⟨inside, differs⟩ := List.mem_filter.mp inside
      exact (List.mem_cons.mp (owned entry inside)).resolve_left (of_decide_eq_true differs))
    have same : ∀ next ∈ owners, (entries.filter fun entry => ¬entry.1 = owner).filter
        (fun entry => entry.1 = next) = entries.filter fun entry => entry.1 = next := by
      intro next inside
      rw [List.filter_filter]
      apply List.filter_congr
      intro entry _
      by_cases own : entry.1 = next
      · have differs : entry.1 ≠ owner := fun same => other (same ▸ own ▸ inside)
        simp [own, own ▸ differs]
      · simp [own]
    rw [List.flatMap_cons]
    have gathered : (owners.flatMap fun next =>
        ((entries.filter fun entry => ¬entry.1 = owner).filter fun entry =>
          entry.1 = next).map Prod.snd) =
        owners.flatMap fun next => (entries.filter fun entry => entry.1 = next).map Prod.snd :=
      List.flatMap_congr fun next inside => by rw [same next inside]
    rw [gathered] at rest
    refine (rest.append_left _).trans ?_
    rw [← List.map_append]
    have parted := List.filter_append_perm (fun entry : ChunkId × β => entry.1 = owner) entries
    refine (List.Perm.of_eq ?_).trans (parted.map Prod.snd)
    congr 3
    funext entry
    rw [decide_not]

section Plan

variable (ids : (standing_.map (·.dependencyId)).Nodup)
  (pairs : standing_.Pairwise fun a b => edgePair a ≠ edgePair b)
  (ordered : standing_.Pairwise fun a b => a.declaredAt ≤ b.declaredAt)

include ids pairs ordered

theorem released_perm (survivor : ChunkId) (folded : List ChunkId) :
    (releasedIds (planFold standing_ survivor folded) folded).Perm
      (((standing_.filter (touchesFolded folded)).map (·.dependencyId)) ++
        (foldLoop standing_ survivor folded).superseded) := by
  have inv := foldLoop_invariant survivor folded pairs
  refine (gathered_perm (nodup_eraseDups folded) ?_).trans
    (foldLoop_history survivor folded ids pairs ordered).released
  intro entry inside
  exact List.mem_eraseDups.mpr (inv.release_owner entry inside)

theorem minted_perm (survivor : ChunkId) (folded : List ChunkId) :
    (mintedEdges (planFold standing_ survivor folded) folded).Perm
      ((foldLoop standing_ survivor folded).mints.map Prod.snd) := by
  have inv := foldLoop_invariant survivor folded pairs
  refine gathered_perm (nodup_eraseDups folded) ?_
  intro entry inside
  exact List.mem_eraseDups.mpr (inv.mint_owner entry inside)

/-- The loop supersedes the unfolded edges that a touched edge declared earlier lands on. -/
theorem mem_superseded (survivor : ChunkId) (folded : List ChunkId) {u : DependencyRow}
    (alone : u ∈ unfoldedEdges standing_ folded) :
    u.dependencyId ∈ (foldLoop standing_ survivor folded).superseded ↔
      u.dependentChunkId ≠ u.prerequisiteChunkId ∧ ∃ f ∈ standing_,
        touchesFolded folded f = true ∧ imagePair survivor folded f = edgePair u ∧
        f.declaredAt < u.declaredAt := by
  have inv := foldLoop_invariant survivor folded pairs
  have history := foldLoop_history survivor folded ids pairs ordered
  have distinct : ((unfoldedEdges standing_ folded).map (·.dependencyId)).Nodup :=
    ids.sublist (List.filter_sublist.map _)
  have apart : (unfoldedEdges standing_ folded).Pairwise fun a b => edgePair a ≠ edgePair b :=
    pairs.filter _
  constructor
  · intro superseded
    obtain ⟨other, inside, same, minted⟩ := history.supersededOf _ superseded
    obtain rfl := List.inj_on_of_nodup_map distinct inside alone same
    rw [← inv.mint_pairs] at minted
    obtain ⟨entry, listed, onto⟩ := List.mem_map.mp minted
    obtain ⟨f, read, touched, image, declared⟩ := history.mintOf entry listed
    refine ⟨?_, f, read, touched, image.trans onto, ?_⟩
    · have ends := history.distinctEnds entry listed
      rw [onto] at ends
      exact ends
    · exact declared ▸ history.mintBefore entry listed _ inside onto.symm
  · rintro ⟨ends, f, read, touched, onto, earlier⟩
    have minted : edgePair u ∈ (foldLoop standing_ survivor folded).mintedPairs := by
      by_contra fresh
      obtain ⟨other, inside, same, first⟩ :=
        history.unminted f read touched (onto ▸ ends) (onto ▸ fresh)
      have nodup : ((unfoldedEdges standing_ folded).map edgePair).Nodup := List.pairwise_map.mpr apart
      obtain rfl := List.inj_on_of_nodup_map nodup inside alone (same.trans onto)
      exact absurd earlier (not_lt.mpr first)
    exact inv.minted_superseded _ minted u alone rfl

theorem mem_releasedIds (survivor : ChunkId) (folded : List ChunkId) {e : DependencyRow}
    (inside : e ∈ standing_) :
    e.dependencyId ∈ releasedIds (planFold standing_ survivor folded) folded ↔
      Superseded standing_ survivor folded e := by
  rw [(released_perm ids pairs ordered survivor folded).mem_iff, List.mem_append, Superseded]
  cases touched : touchesFolded folded e with
  | true =>
    refine ⟨fun _ => .inl rfl, fun _ => .inl ?_⟩
    exact List.mem_map_of_mem (List.mem_filter.mpr ⟨inside, touched⟩)
  | false =>
    have alone : e ∈ unfoldedEdges standing_ folded :=
      List.mem_filter.mpr ⟨inside, by rw [touched]; rfl⟩
    rw [mem_superseded ids pairs ordered survivor folded alone]
    constructor
    · rintro (released | superseded)
      · obtain ⟨other, read, same⟩ := List.mem_map.mp released
        obtain ⟨read, named⟩ := List.mem_filter.mp read
        obtain rfl := List.inj_on_of_nodup_map ids read inside same
        rw [touched] at named
        cases named
      · exact .inr superseded
    · exact fun superseded => .inr (superseded.resolve_left (by simp))

theorem mem_keptEdges (survivor : ChunkId) (folded : List ChunkId) {e : DependencyRow} :
    e ∈ keptEdges standing_ (planFold standing_ survivor folded) folded ↔
      e ∈ standing_ ∧ ¬Superseded standing_ survivor folded e := by
  rw [keptEdges, List.mem_filter, decide_eq_true_eq]
  exact and_congr_right fun inside =>
    not_congr (mem_releasedIds ids pairs ordered survivor folded inside)

/-- The edges the plan says remain are those its releases leave. -/
theorem remaining_eq_kept (survivor : ChunkId) (folded : List ChunkId) :
    (planFold standing_ survivor folded).remaining =
      keptEdges standing_ (planFold standing_ survivor folded) folded := by
  have remaining : (planFold standing_ survivor folded).remaining =
      (unfoldedEdges standing_ folded).filter fun e =>
        e.dependencyId ∉ (foldLoop standing_ survivor folded).superseded := rfl
  rw [remaining, unfoldedEdges, List.filter_filter, keptEdges]
  apply List.filter_congr
  intro e inside
  cases touched : touchesFolded folded e with
  | true =>
    have released := (mem_releasedIds ids pairs ordered survivor folded inside).mpr (.inl touched)
    simp [released]
  | false =>
    have alone : e ∈ unfoldedEdges standing_ folded :=
      List.mem_filter.mpr ⟨inside, by rw [touched]; rfl⟩
    have superseded := mem_superseded ids pairs ordered survivor folded alone
    have released := mem_releasedIds ids pairs ordered survivor folded inside
    rw [Superseded, touched] at released
    simp [superseded, released]

theorem minted_nodup (survivor : ChunkId) (folded : List ChunkId) :
    ((mintedEdges (planFold standing_ survivor folded) folded).map FoldMint.pair).Nodup := by
  have inv := foldLoop_invariant survivor folded pairs
  have same := (minted_perm ids pairs ordered survivor folded).map FoldMint.pair
  rw [List.map_map] at same
  rw [same.nodup_iff]
  exact inv.mint_pairs ▸ inv.minted_nodup

theorem mem_minted (survivor : ChunkId) (folded : List ChunkId) {mint : FoldMint} :
    mint ∈ mintedEdges (planFold standing_ survivor folded) folded ↔
      ∃ entry ∈ (foldLoop standing_ survivor folded).mints, entry.2 = mint := by
  rw [(minted_perm ids pairs ordered survivor folded).mem_iff, List.mem_map]

/-- An edge that stands beside the loop and is superseded has its pair minted. -/
theorem minted_of_superseded (survivor : ChunkId) (folded : List ChunkId) {u : DependencyRow}
    (alone : u ∈ unfoldedEdges standing_ folded)
    (superseded : Superseded standing_ survivor folded u) :
    edgePair u ∈ (foldLoop standing_ survivor folded).mintedPairs := by
  have history := foldLoop_history survivor folded ids pairs ordered
  have distinct : ((unfoldedEdges standing_ folded).map (·.dependencyId)).Nodup :=
    ids.sublist (List.filter_sublist.map _)
  have untouched := (List.mem_filter.mp alone).2
  rw [Superseded] at superseded
  have listed := (mem_superseded ids pairs ordered survivor folded alone).mpr
    (superseded.resolve_left fun touched => by rw [touched] at untouched; cases untouched)
  obtain ⟨other, inside, same, minted⟩ := history.supersededOf _ listed
  obtain rfl := List.inj_on_of_nodup_map distinct inside alone same
  exact minted

/-- A mint carries the earliest instant of the edges carried onto its pair. -/
theorem minted_least (survivor : ChunkId) (folded : List ChunkId) {entry : ChunkId × FoldMint}
    (listed : entry ∈ (foldLoop standing_ survivor folded).mints) :
    IsLeast (declaredOn standing_ survivor folded entry.2.pair) entry.2.declaredAt := by
  have history := foldLoop_history survivor folded ids pairs ordered
  obtain ⟨e, inside, -, image, declared⟩ := history.mintOf entry listed
  refine ⟨⟨e, inside, image, declared⟩, ?_⟩
  rintro instant ⟨f, read, onto, rfl⟩
  cases touched : touchesFolded folded f with
  | true => exact history.mintFirst entry listed f read touched onto
  | false =>
    rw [imagePair_of_untouched touched] at onto
    exact (history.mintBefore entry listed f
      (List.mem_filter.mpr ⟨read, by rw [touched]; rfl⟩) onto).le

/-- A kept edge has the earliest instant of the edges carried onto its pair. -/
theorem kept_least (survivor : ChunkId) (folded : List ChunkId) {e : DependencyRow}
    (ends : e.dependentChunkId ≠ e.prerequisiteChunkId) (inside : e ∈ standing_)
    (kept : ¬Superseded standing_ survivor folded e) :
    IsLeast (declaredOn standing_ survivor folded (edgePair e)) e.declaredAt := by
  obtain ⟨untouched, first⟩ := not_or.mp kept
  replace untouched : touchesFolded folded e = false := Bool.eq_false_iff.mpr untouched
  refine ⟨⟨e, inside, imagePair_of_untouched untouched, rfl⟩, ?_⟩
  rintro instant ⟨f, read, onto, rfl⟩
  cases touched : touchesFolded folded f with
  | true => exact not_lt.mp fun earlier => first ⟨ends, f, read, touched, onto, earlier⟩
  | false =>
    rw [imagePair_of_untouched touched] at onto
    have nodup : (standing_.map edgePair).Nodup := List.pairwise_map.mpr pairs
    rw [List.inj_on_of_nodup_map nodup read inside onto]

theorem applyPlan_nodup (survivor : ChunkId) (folded : List ChunkId) :
    ((applyPlan standing_ (planFold standing_ survivor folded) folded).map Prod.fst).Nodup := by
  have history := foldLoop_history survivor folded ids pairs ordered
  have nodup : (standing_.map edgePair).Nodup := List.pairwise_map.mpr pairs
  rw [applyPlan, List.map_append, List.map_map, List.map_map]
  refine List.nodup_append.mpr ⟨nodup.sublist (List.filter_sublist.map _),
    minted_nodup ids pairs ordered survivor folded, ?_⟩
  intro a kept b minted same
  obtain ⟨e, stood, rfl⟩ := List.mem_map.mp kept
  obtain ⟨mint, made, rfl⟩ := List.mem_map.mp minted
  obtain ⟨inside, stands⟩ := (mem_keptEdges ids pairs ordered survivor folded).mp stood
  obtain ⟨entry, listed, rfl⟩ := (mem_minted ids pairs ordered survivor folded).mp made
  obtain ⟨untouched, first⟩ := not_or.mp stands
  replace untouched : touchesFolded folded e = false := Bool.eq_false_iff.mpr untouched
  have alone : e ∈ unfoldedEdges standing_ folded :=
    List.mem_filter.mpr ⟨inside, by rw [untouched]; rfl⟩
  obtain ⟨f, read, touched, onto, declared⟩ := history.mintOf entry listed
  have pair : edgePair e = entry.2.pair := same
  have ends := history.distinctEnds entry listed
  rw [← pair] at ends
  exact first ⟨ends, f, read, touched, onto.trans pair.symm,
    declared ▸ history.mintBefore entry listed e alone pair⟩

end Plan

/-- Over any standing edges in declared order, no two of one pair, and any folded chunks: applying
a fold's plan leaves one edge for each pair two chunks' edges are carried onto, declared when the
first of those was; it releases each superseded edge once and leaves every other as it stood. An
edge from a chunk to itself stands afterwards only where one stood that the fold does not touch. -/
theorem planFold_image (survivor : ChunkId) (folded : List ChunkId)
    (ids : (standing_.map (·.dependencyId)).Nodup)
    (pairs : standing_.Pairwise fun a b => edgePair a ≠ edgePair b)
    (ordered : standing_.Pairwise fun a b => declaredBefore a b = true) :
    let plan := planFold standing_ survivor folded
    let after := applyPlan standing_ plan folded
    (releasedIds plan folded).Nodup ∧
    (∀ id, id ∈ releasedIds plan folded ↔
      ∃ e ∈ standing_, e.dependencyId = id ∧ Superseded standing_ survivor folded e) ∧
    (∀ e, e ∈ keptEdges standing_ plan folded ↔
      e ∈ standing_ ∧ ¬Superseded standing_ survivor folded e) ∧
    plan.remaining = keptEdges standing_ plan folded ∧
    (after.map Prod.fst).Nodup ∧
    (∀ pair instant, pair.1 ≠ pair.2 → ((pair, instant) ∈ after ↔
      IsLeast (declaredOn standing_ survivor folded pair) instant)) ∧
    ∀ entry ∈ after, entry.1.1 = entry.1.2 →
      ∃ e ∈ standing_, touchesFolded folded e = false ∧ edgePair e = entry.1 := by
  intro plan after
  have ordered : standing_.Pairwise fun a b => a.declaredAt ≤ b.declaredAt := by
    refine ordered.imp fun {a b} before => ?_
    rw [declaredBefore, Bool.or_eq_true, Bool.and_eq_true] at before
    rcases before with earlier | ⟨same, -⟩
    · exact (of_decide_eq_true earlier).le
    · exact (of_decide_eq_true same).le
  have history := foldLoop_history survivor folded ids pairs ordered
  have inv := foldLoop_invariant survivor folded pairs
  have released := released_perm ids pairs ordered survivor folded
  have mem_released {e : DependencyRow} := @mem_releasedIds _ ids pairs ordered survivor folded e
  have mem_kept {e : DependencyRow} := @mem_keptEdges _ ids pairs ordered survivor folded e
  refine ⟨?_, ?_, ?_, remaining_eq_kept ids pairs ordered survivor folded,
    applyPlan_nodup ids pairs ordered survivor folded, ?_, ?_⟩
  · rw [released.nodup_iff]
    refine List.nodup_append.mpr ⟨ids.sublist (List.filter_sublist.map _),
      history.supersededOnce, ?_⟩
    intro a touched b superseded same
    obtain ⟨e, read, rfl⟩ := List.mem_map.mp touched
    obtain ⟨u, alone, own, -⟩ := history.supersededOf b superseded
    obtain ⟨inside, named⟩ := List.mem_filter.mp read
    obtain ⟨stands, untouched⟩ := List.mem_filter.mp alone
    rw [List.inj_on_of_nodup_map ids stands inside (own.trans same.symm), named] at untouched
    cases untouched
  · intro id
    constructor
    · intro listed
      have inside : ∃ e ∈ standing_, e.dependencyId = id := by
        rcases List.mem_append.mp (released.mem_iff.mp listed) with touched | superseded
        · obtain ⟨e, read, same⟩ := List.mem_map.mp touched
          exact ⟨e, (List.mem_filter.mp read).1, same⟩
        · obtain ⟨u, alone, same, -⟩ := history.supersededOf id superseded
          exact ⟨u, (List.mem_filter.mp alone).1, same⟩
      obtain ⟨e, inside, rfl⟩ := inside
      exact ⟨e, inside, rfl, (mem_released inside).mp listed⟩
    · rintro ⟨e, inside, rfl, superseded⟩
      exact (mem_released inside).mpr superseded
  · exact fun e => mem_kept
  · intro pair instant ends
    constructor
    · intro stands
      rcases List.mem_append.mp stands with kept | minted
      · obtain ⟨e, stood, same⟩ := List.mem_map.mp kept
        cases same
        obtain ⟨inside, alone⟩ := mem_kept.mp stood
        exact kept_least ids pairs ordered survivor folded ends inside alone
      · obtain ⟨mint, made, same⟩ := List.mem_map.mp minted
        cases same
        obtain ⟨entry, listed, rfl⟩ := (mem_minted ids pairs ordered survivor folded).mp made
        exact minted_least ids pairs ordered survivor folded listed
    · intro least
      by_cases minted : pair ∈ (foldLoop standing_ survivor folded).mintedPairs
      · rw [← inv.mint_pairs] at minted
        obtain ⟨entry, listed, rfl⟩ := List.mem_map.mp minted
        rw [← (minted_least ids pairs ordered survivor folded listed).unique least]
        refine List.mem_append_right _ (List.mem_map.mpr ⟨entry.2, ?_, rfl⟩)
        exact (mem_minted ids pairs ordered survivor folded).mpr ⟨entry, listed, rfl⟩
      · -- no edge of the pair was minted, so an untouched one stands since that instant
        have alone : ∃ u ∈ unfoldedEdges standing_ folded, edgePair u = pair ∧
            u.declaredAt = instant := by
          obtain ⟨e, inside, onto, declared⟩ := least.1
          cases touched : touchesFolded folded e with
          | true =>
            obtain ⟨u, alone, same, earlier⟩ :=
              history.unminted e inside touched (onto ▸ ends) (onto ▸ minted)
            obtain ⟨stands, untouched⟩ := List.mem_filter.mp alone
            have image : imagePair survivor folded u = pair := by
              rw [imagePair_of_untouched (by simpa using untouched), same, onto]
            exact ⟨u, alone, same.trans onto,
              le_antisymm (declared ▸ earlier) (least.2 ⟨u, stands, image, rfl⟩)⟩
          | false =>
            rw [imagePair_of_untouched touched] at onto
            exact ⟨e, List.mem_filter.mpr ⟨inside, by rw [touched]; rfl⟩, onto, declared⟩
        obtain ⟨u, alone, rfl, rfl⟩ := alone
        refine List.mem_append_left _ (List.mem_map.mpr ⟨u, mem_kept.mpr ⟨?_, ?_⟩, rfl⟩)
        · exact (List.mem_filter.mp alone).1
        · exact fun superseded =>
            minted (minted_of_superseded ids pairs ordered survivor folded alone superseded)
  · intro entry stands collapsed
    rcases List.mem_append.mp stands with kept | minted
    · obtain ⟨e, stood, rfl⟩ := List.mem_map.mp kept
      obtain ⟨inside, alone⟩ := mem_kept.mp stood
      exact ⟨e, inside, Bool.eq_false_iff.mpr (not_or.mp alone).1, rfl⟩
    · obtain ⟨mint, made, rfl⟩ := List.mem_map.mp minted
      obtain ⟨entry, listed, rfl⟩ := (mem_minted ids pairs ordered survivor folded).mp made
      exact absurd collapsed (history.distinctEnds entry listed)

/-- Folding `c` and `d` into `s`: both edges onto `x` collapse to one since the earlier, and `s`'s
own later edge onto `x` gives way to it. -/
private def foldedEdges : List DependencyRow :=
  [⟨"e1", "c", "x", 1, "u", none, none⟩, ⟨"e2", "d", "x", 2, "u", none, none⟩,
   ⟨"e3", "s", "x", 3, "u", none, none⟩, ⟨"e4", "c", "d", 4, "u", none, none⟩]

theorem planFold_image_collapsed :
    (("s", "x"), (1 : Instant)) ∈
      applyPlan foldedEdges (planFold foldedEdges "s" ["c", "d"]) ["c", "d"] ↔
    IsLeast (declaredOn foldedEdges "s" ["c", "d"] ("s", "x")) 1 :=
  (planFold_image "s" ["c", "d"] (by decide) (by decide) (by decide)).2.2.2.2.2.1 ("s", "x") 1
    (by decide)

example : applyPlan foldedEdges (planFold foldedEdges "s" ["c", "d"]) ["c", "d"] =
    [(("s", "x"), 1)] := by
  decide

end Blizzard.FoldImage
