import Blizzard.DependencyEdges
import Blizzard.TransitionRuns

/-! # The standing dependency graph stays acyclic

The invariant of the standing edges and its preservation by every declaration,
release, fold and deletion. The fold's plan is read through one invariant of
its loop; its writes through the function they apply to the rows kept. -/
namespace Blizzard.DependencyAcyclicity
open Relation HubTables DepthFirstCycles DependencyEdges TransitionRuns

/-- `a` depends on `b` through a standing edge. -/
def StandingPair (tables : Tables) (a b : ChunkId) : Prop :=
  ∃ e ∈ tables.chunkDependencies, standing e = true ∧ edgePair e = (a, b)

/-- What the standing edges satisfy. -/
structure SoundEdges (tables : Tables) : Prop where
  acyclic : ¬ Cyclic (StandingPair tables)
  single : tables.chunkDependencies.Pairwise fun a b =>
    standing a = true → standing b = true → edgePair a ≠ edgePair b

theorem mem_successors {pairs : List Pair} {a b : ChunkId} :
    b ∈ successors pairs a ↔ (a, b) ∈ pairs := by
  simp only [successors, List.mem_map, List.mem_filter, decide_eq_true_eq]
  constructor
  · rintro ⟨⟨x, y⟩, ⟨hmem, rfl⟩, rfl⟩
    exact hmem
  · exact fun h => ⟨(a, b), ⟨h, rfl⟩, rfl⟩

/-- The cycle walk answers exactly whether the edges with the added pairs have a cycle. -/
theorem wouldCloseACycle_iff (edges : List DependencyRow) (added : List Pair) :
    wouldCloseACycle edges added = true ↔
      Cyclic fun a b => (a, b) ∈ edges.map edgePair ++ added := by
  have edge_iff : Edge (successors (edges.map edgePair ++ added)) =
      fun a b => (a, b) ∈ edges.map edgePair ++ added := by
    funext a b
    exact propext mem_successors
  unfold wouldCloseACycle
  dsimp only
  generalize edges.map edgePair ++ added = pairs at edge_iff ⊢
  have closed : ∀ a ∈ pairs.map Prod.fst ++ pairs.map Prod.snd, ∀ b ∈ successors pairs a,
      b ∈ pairs.map Prod.fst ++ pairs.map Prod.snd := fun a _ b hb =>
    List.mem_append_right _ (List.mem_map_of_mem (f := Prod.snd) (mem_successors.mp hb))
  have roots : ∀ a ∈ (pairs.map Prod.fst).eraseDups,
      a ∈ pairs.map Prod.fst ++ pairs.map Prod.snd := fun a ha =>
    List.mem_append_left _ (List.mem_eraseDups.mp ha)
  have sinks : ∀ a, a ∉ (pairs.map Prod.fst).eraseDups → successors pairs a = [] := by
    intro a ha
    refine List.eq_nil_iff_forall_not_mem.mpr fun b hb => ha ?_
    exact List.mem_eraseDups.mpr (List.mem_map_of_mem (f := Prod.fst) (mem_successors.mp hb))
  obtain ⟨found, color, answered, found_iff⟩ := search_iff closed roots sinks le_rfl
  rw [answered, ← edge_iff]
  exact found_iff

theorem mem_standingEdges {tables : Tables} {e : DependencyRow} :
    e ∈ standingEdges tables ↔ e ∈ tables.chunkDependencies ∧ standing e = true := by
  simp [standingEdges]

theorem standingPair_iff {tables : Tables} {a b : ChunkId} :
    StandingPair tables a b ↔ (a, b) ∈ (standingEdges tables).map edgePair := by
  simp only [StandingPair, List.mem_map, mem_standingEdges]
  constructor
  · rintro ⟨e, he, hs, hp⟩
    exact ⟨e, ⟨he, hs⟩, hp⟩
  · rintro ⟨e, ⟨he, hs⟩, hp⟩
    exact ⟨e, he, hs, hp⟩

/-- The walk over the standing edges and one pair answers whether the prerequisite already
reaches the dependent. -/
theorem wouldCloseACycle_pair_iff {tables : Tables} (sound : SoundEdges tables)
    (d p : ChunkId) :
    wouldCloseACycle (standingEdges tables) [(d, p)] = true ↔
      ReflTransGen (StandingPair tables) p d := by
  rw [wouldCloseACycle_iff, ← cyclic_add_edge_iff sound.acyclic d p]
  have same : (fun a b => (a, b) ∈ (standingEdges tables).map edgePair ++ [(d, p)]) =
      fun a b => StandingPair tables a b ∨ (a = d ∧ b = p) := by
    funext a b
    rw [List.mem_append, ← standingPair_iff, List.mem_singleton, Prod.mk.injEq]
  rw [same]

/-- A rewrite of the edge rows that keeps ids and pairs and leaves none of `ids` standing. -/
def Releaser (ids : List String) (f : DependencyRow → DependencyRow) : Prop :=
  ∀ x, edgePair (f x) = edgePair x ∧
    (standing (f x) = true → standing x = true ∧ x.dependencyId ∉ ids) ∧
      (f x).dependencyId = x.dependencyId

theorem Releaser.id : Releaser [] id := fun _ => ⟨rfl, fun h => ⟨h, List.not_mem_nil⟩, rfl⟩

theorem Releaser.comp {ids ids' : List String} {f g : DependencyRow → DependencyRow}
    (hf : Releaser ids f) (hg : Releaser ids' g) : Releaser (ids ++ ids') (g ∘ f) := by
  intro x
  obtain ⟨pair, stands, key⟩ := hf x
  obtain ⟨pair', stands', key'⟩ := hg (f x)
  refine ⟨pair'.trans pair, fun h => ?_, key'.trans key⟩
  obtain ⟨h', out'⟩ := stands' h
  obtain ⟨h'', out⟩ := stands h'
  rw [key] at out'
  exact ⟨h'', by simp [out, out']⟩

/-- `releaseWhere` applies a releaser of the ids it chooses. -/
theorem releaseWhere_releaser (chosen : DependencyRow → Bool) (by_ : String) (now : Instant)
    (ids : List String) (covers : ∀ x, x.dependencyId ∈ ids → chosen x = true) :
    Releaser ids fun row =>
      if chosen row then { row with releasedAt := some now, releasedBy := some by_ } else row := by
  intro x
  dsimp only
  split
  · exact ⟨rfl, fun h => by simp [standing] at h, rfl⟩
  · rename_i kept
    exact ⟨rfl, fun h => ⟨h, fun mem => kept (covers x mem)⟩, rfl⟩

/-- Rewriting the rows by a releaser keeps the standing graph sound. -/
theorem SoundEdges.of_releaser {tables tables' : Tables} {ids : List String}
    {f : DependencyRow → DependencyRow} (sound : SoundEdges tables) (hf : Releaser ids f)
    (rows : tables'.chunkDependencies = tables.chunkDependencies.map f) : SoundEdges tables' := by
  constructor
  · intro cyclic
    refine sound.acyclic (cyclic.mono fun a b => ?_)
    rintro ⟨e, he, hs, hp⟩
    rw [rows] at he
    obtain ⟨x, hx, rfl⟩ := List.mem_map.mp he
    obtain ⟨pair, stands, -⟩ := hf x
    exact ⟨x, hx, (stands hs).1, pair ▸ hp⟩
  · rw [rows, List.pairwise_map]
    refine sound.single.imp fun {a b} distinct ha hb => ?_
    rw [(hf a).1, (hf b).1]
    exact distinct ((hf a).2.1 ha).1 ((hf b).2.1 hb).1

theorem insertDependency_rows {tables tables' : Tables} {row : DependencyRow}
    (h : insertDependency tables row = some tables') :
    tables'.chunkDependencies = tables.chunkDependencies ++ [row] := by
  unfold insertDependency at h
  split at h
  · cases h
  · rw [← Option.some.inj h]

theorem soundEdges_release {tables : Tables} (sound : SoundEdges tables)
    (dependent prerequisite : ChunkId) (by_ : String) (now : Instant) :
    SoundEdges (release tables dependent prerequisite by_ now).1 := by
  unfold release
  split
  · exact sound
  · exact sound.of_releaser (releaseWhere_releaser _ by_ now [] (by simp)) rfl

theorem soundEdges_delete {tables : Tables} (sound : SoundEdges tables) (chunkId : ChunkId)
    (by_ : String) (now : Instant) : SoundEdges (deleteChunk tables chunkId by_ now).1 := by
  unfold deleteChunk
  split
  · exact sound
  · dsimp only
    split
    · exact sound
    · split
      · exact sound
      · exact sound.of_releaser (releaseWhere_releaser _ by_ now [] (by simp)) rfl

theorem decideDeclare_eq_mint {edges : List DependencyRow} {dependent prerequisite : ChunkId}
    {facts : Option StatusLadder.ChunkFacts} {ephemeral : Bool}
    (h : decideDeclare edges dependent facts prerequisite ephemeral = .mint) :
    (∀ e ∈ edges, edgePair e ≠ (dependent, prerequisite)) ∧
      wouldCloseACycle edges [(dependent, prerequisite)] = false := by
  unfold decideDeclare at h
  split at h
  · cases h
  · rename_i absent
    split at h
    · cases h
    · split_ifs at h with _ _ cycle
      refine ⟨fun e he same => ?_, Bool.eq_false_of_not_eq_true cycle⟩
      simpa [same] using List.find?_eq_none.mp absent e he

theorem soundEdges_declare {tables : Tables} (sound : SoundEdges tables)
    (dependent prerequisite : ChunkId) (by_ dependencyId : String) (now : Instant) :
    SoundEdges (declare tables dependent prerequisite by_ dependencyId now).1 := by
  unfold declare
  split
  · rename_i decided
    obtain ⟨fresh, acyclic⟩ := decideDeclare_eq_mint decided
    split
    · exact sound
    · rename_i tables' inserted
      have rows := insertDependency_rows inserted
      constructor
      · intro cyclic
        refine absurd ((wouldCloseACycle_iff _ _).mpr ?_) (Bool.eq_false_iff.mp acyclic)
        refine cyclic.mono fun a b => ?_
        rintro ⟨e, he, hs, hp⟩
        rw [rows] at he
        rcases List.mem_append.mp he with old | new
        · exact List.mem_append_left _ (standingPair_iff.mp ⟨e, old, hs, hp⟩)
        · rw [List.mem_singleton.mp new] at hp
          exact List.mem_append_right _ (List.mem_singleton.mpr hp.symm)
      · rw [rows]
        refine List.pairwise_append.mpr ⟨sound.single, List.pairwise_singleton _ _, ?_⟩
        intro a ha b hb sa _
        rw [List.mem_singleton.mp hb]
        exact fresh a (mem_standingEdges.mpr ⟨ha, sa⟩)
  · exact sound

theorem mintFoldEdges_rows {ids : ℕ → String} {mints : List FoldMint} {state state' : Tables × ℕ}
    (h : mints.foldlM (mintFoldEdge ids) state = some state') :
    ∃ minted, state'.1.chunkDependencies = state.1.chunkDependencies ++ minted ∧
      minted.map edgePair = mints.map FoldMint.pair := by
  induction mints generalizing state with
  | nil =>
    obtain rfl := Option.some.inj h
    exact ⟨[], by simp, rfl⟩
  | cons mint mints ih =>
    rw [List.foldlM_cons, Option.bind_eq_bind, Option.bind_eq_some_iff] at h
    obtain ⟨next, first, rest⟩ := h
    obtain ⟨tables', inserted, rfl⟩ := Option.map_eq_some_iff.mp first
    obtain ⟨minted, rows, pairs⟩ := ih rest
    refine ⟨⟨ids state.2, mint.dependentChunkId, mint.prerequisiteChunkId, mint.declaredAt,
      foldActor, none, none⟩ :: minted, ?_, ?_⟩
    · rw [rows, insertDependency_rows inserted, List.append_assoc, List.singleton_append]
    · rw [List.map_cons, List.map_cons, pairs]
      rfl

/-- What a fold's transaction commits: the rows kept under a releaser of every planned id,
then one row for each planned mint. -/
theorem recordFold_rows {plan : FoldEdgePlan} {into : ChunkId} {ids : ℕ → String} {now : Instant}
    {targets : List ChunkId} {state state' : Tables × ℕ}
    (h : targets.foldlM (recordFoldTarget plan into ids now) state = some state') :
    ∃ f minted, Releaser (targets.flatMap plan.releaseByTarget) f ∧
      state'.1.chunkDependencies = state.1.chunkDependencies.map f ++ minted ∧
      minted.map edgePair = plan.mintedPairs targets := by
  induction targets generalizing state with
  | nil =>
    obtain rfl := Option.some.inj h
    exact ⟨id, [], Releaser.id, by simp, rfl⟩
  | cons target targets ih =>
    rw [List.foldlM_cons, Option.bind_eq_bind, Option.bind_eq_some_iff] at h
    obtain ⟨next, first, rest⟩ := h
    obtain ⟨minted₁, rows₁, pairs₁⟩ := mintFoldEdges_rows first
    obtain ⟨g, minted₂, releases₂, rows₂, pairs₂⟩ := ih rest
    have releases₁ := releaseWhere_releaser
      (fun e => decide (e.dependencyId ∈ plan.releaseByTarget target)) foldActor now
      (plan.releaseByTarget target) (fun _ mem => decide_eq_true mem)
    refine ⟨_, minted₁.map g ++ minted₂, releases₁.comp releases₂, ?_, ?_⟩
    · rw [rows₂, rows₁, List.map_append, List.append_assoc]
      simp [releaseWhere, insertGrouped, List.map_map]
    · have same : (minted₁.map g).map edgePair = minted₁.map edgePair := by
        rw [List.map_map]
        exact List.map_congr_left fun x _ => (releases₂ x).1
      rw [List.map_append, same, pairs₁, pairs₂]
      rfl

/-- The fold loop after the edges of `seen`, over the edges `unfolded` it leaves alone. -/
structure FoldInvariant (folded : List ChunkId) (unfolded seen : List DependencyRow)
    (state : FoldState) : Prop where
  touched_released : ∀ e ∈ seen, touchesFolded folded e = true →
    e.dependencyId ∈ state.releases.map Prod.snd
  superseded_released : ∀ id ∈ state.superseded, id ∈ state.releases.map Prod.snd
  release_owner : ∀ entry ∈ state.releases, entry.1 ∈ folded
  mint_owner : ∀ entry ∈ state.mints, entry.1 ∈ folded
  mint_pairs : state.mints.map (fun entry => entry.2.pair) = state.mintedPairs
  minted_nodup : state.mintedPairs.Nodup
  minted_superseded : ∀ pair ∈ state.mintedPairs, ∀ u ∈ unfolded, edgePair u = pair →
    u.dependencyId ∈ state.superseded
  standing_lookup : ∀ pair ∉ state.mintedPairs,
    state.unfoldedByPair pair = unfoldedByPair unfolded pair

theorem unfoldedByPair_eq_none {unfolded : List DependencyRow} {pair : Pair}
    (h : unfoldedByPair unfolded pair = none) {u : DependencyRow} (hu : u ∈ unfolded) :
    edgePair u ≠ pair := by
  intro same
  have empty := List.getLast?_eq_none_iff.mp h
  exact List.not_mem_nil (empty ▸ List.mem_filter.mpr ⟨hu, decide_eq_true same⟩)

/-- Where pairs are distinct the last edge of a pair is its only edge. -/
theorem unfoldedByPair_eq_some {unfolded : List DependencyRow}
    (distinct : unfolded.Pairwise fun a b => edgePair a ≠ edgePair b) {pair : Pair}
    {existing : DependencyRow} (h : unfoldedByPair unfolded pair = some existing)
    {u : DependencyRow} (hu : u ∈ unfolded) (hp : edgePair u = pair) : u = existing := by
  have last := List.mem_of_getLast? h
  simp only [List.mem_filter, decide_eq_true_eq] at last
  have nodup : (unfolded.map edgePair).Nodup := List.pairwise_map.mpr distinct
  exact List.inj_on_of_nodup_map nodup hu last.1 (hp.trans last.2.symm)

/-- Releasing one more touched edge under its folded end. -/
theorem FoldInvariant.release {folded : List ChunkId} {unfolded seen : List DependencyRow}
    {state : FoldState} (inv : FoldInvariant folded unfolded seen state) (edge : DependencyRow)
    {owner : ChunkId} (mem : owner ∈ folded) :
    FoldInvariant folded unfolded (seen ++ [edge])
      { state with releases := state.releases ++ [(owner, edge.dependencyId)] } where
  touched_released := by
    intro e he touched
    rw [List.map_append]
    rcases List.mem_append.mp he with old | new
    · exact List.mem_append_left _ (inv.touched_released e old touched)
    · obtain rfl := List.mem_singleton.mp new
      exact List.mem_append_right _ List.mem_cons_self
  superseded_released := by
    intro id mem
    rw [List.map_append]
    exact List.mem_append_left _ (inv.superseded_released id mem)
  release_owner := by
    intro entry h
    rcases List.mem_append.mp h with old | new
    · exact inv.release_owner entry old
    · obtain rfl := List.mem_singleton.mp new
      exact mem
  mint_owner := inv.mint_owner
  mint_pairs := inv.mint_pairs
  minted_nodup := inv.minted_nodup
  minted_superseded := inv.minted_superseded
  standing_lookup := inv.standing_lookup

/-- Minting a pair no unfolded edge stands for. -/
theorem FoldInvariant.mint {folded : List ChunkId} {unfolded seen : List DependencyRow}
    {state : FoldState} (inv : FoldInvariant folded unfolded seen state) {owner : ChunkId}
    (mem : owner ∈ folded) (mint : FoldMint) (fresh : mint.pair ∉ state.mintedPairs)
    (absent : ∀ u ∈ unfolded, edgePair u = mint.pair → u.dependencyId ∈ state.superseded) :
    FoldInvariant folded unfolded seen
      { state with
        mintedPairs := state.mintedPairs ++ [mint.pair]
        mints := state.mints ++ [(owner, mint)] } where
  touched_released := inv.touched_released
  superseded_released := inv.superseded_released
  release_owner := inv.release_owner
  mint_owner := by
    intro entry h
    rcases List.mem_append.mp h with old | new
    · exact inv.mint_owner entry old
    · obtain rfl := List.mem_singleton.mp new
      exact mem
  mint_pairs := by
    rw [List.map_append, inv.mint_pairs]
    rfl
  minted_nodup := by
    refine List.nodup_append.mpr ⟨inv.minted_nodup, List.nodup_singleton _, ?_⟩
    intro a ha b hb same
    rw [List.mem_singleton.mp hb] at same
    exact fresh (same ▸ ha)
  minted_superseded := by
    intro pair h u hu hp
    rcases List.mem_append.mp h with old | new
    · exact inv.minted_superseded pair old u hu hp
    · obtain rfl := List.mem_singleton.mp new
      exact absent u hu hp
  standing_lookup := by
    intro pair h
    exact inv.standing_lookup pair fun old => h (List.mem_append_left _ old)

/-- Superseding the unfolded edge a fresh pair stands for, and minting the pair. -/
theorem FoldInvariant.supersede {folded : List ChunkId} {unfolded seen : List DependencyRow}
    {state : FoldState} (inv : FoldInvariant folded unfolded seen state)
    (distinct : unfolded.Pairwise fun a b => edgePair a ≠ edgePair b) {owner : ChunkId}
    (mem : owner ∈ folded) (mint : FoldMint) (fresh : mint.pair ∉ state.mintedPairs)
    {existing : DependencyRow} (stands : state.unfoldedByPair mint.pair = some existing) :
    FoldInvariant folded unfolded seen
      { releases := state.releases ++ [(owner, existing.dependencyId)]
        superseded := state.superseded ++ [existing.dependencyId]
        unfoldedByPair := Function.update state.unfoldedByPair mint.pair none
        mintedPairs := state.mintedPairs ++ [mint.pair]
        mints := state.mints ++ [(owner, mint)] } := by
  have lookup := inv.standing_lookup mint.pair fresh ▸ stands
  have released : FoldInvariant folded unfolded seen
      { state with
        releases := state.releases ++ [(owner, existing.dependencyId)]
        superseded := state.superseded ++ [existing.dependencyId] } :=
    { touched_released := fun e he touched => by
        rw [List.map_append]
        exact List.mem_append_left _ (inv.touched_released e he touched)
      superseded_released := fun id h => by
        rw [List.map_append]
        rcases List.mem_append.mp h with old | new
        · exact List.mem_append_left _ (inv.superseded_released id old)
        · exact List.mem_append_right _ new
      release_owner := (inv.release existing mem).release_owner
      mint_owner := inv.mint_owner
      mint_pairs := inv.mint_pairs
      minted_nodup := inv.minted_nodup
      minted_superseded := fun pair h u hu hp =>
        List.mem_append_left _ (inv.minted_superseded pair h u hu hp)
      standing_lookup := inv.standing_lookup }
  have minted := released.mint mem mint fresh fun u hu hp => by
    rw [unfoldedByPair_eq_some distinct lookup hu hp]
    exact List.mem_append_right _ List.mem_cons_self
  exact
    { touched_released := minted.touched_released
      superseded_released := minted.superseded_released
      release_owner := minted.release_owner
      mint_owner := minted.mint_owner
      mint_pairs := minted.mint_pairs
      minted_nodup := minted.minted_nodup
      minted_superseded := minted.minted_superseded
      standing_lookup := fun pair h => by
        have other : pair ≠ mint.pair := fun same =>
          h (same ▸ List.mem_append_right _ List.mem_cons_self)
        rw [← minted.standing_lookup pair h]
        exact Function.update_of_ne other _ _ }

/-- One edge of the loop keeps the invariant. -/
theorem FoldInvariant.foldEdge (survivor : ChunkId) {folded : List ChunkId}
    {unfolded seen : List DependencyRow} {state : FoldState}
    (inv : FoldInvariant folded unfolded seen state)
    (distinct : unfolded.Pairwise fun a b => edgePair a ≠ edgePair b) (edge : DependencyRow) :
    FoldInvariant folded unfolded (seen ++ [edge]) (foldEdge survivor folded state edge) := by
  unfold DependencyEdges.foldEdge
  split
  · rename_i untouched
    refine { inv with touched_released := fun e he touched => ?_ }
    rcases List.mem_append.mp he with old | new
    · exact inv.touched_released e old touched
    · rw [List.mem_singleton.mp new] at touched
      simp [touched] at untouched
  · rename_i touched
    have owned : (if edge.dependentChunkId ∈ folded then edge.dependentChunkId
        else edge.prerequisiteChunkId) ∈ folded := by
      split
      · assumption
      · rename_i other
        simpa [touchesFolded, other] using touched
    have released := inv.release edge owned
    dsimp only
    split
    · exact released
    · rename_i guard
      have fresh := (not_or.mp guard).2
      have lookup := inv.standing_lookup _ fresh
      split
      · rename_i absent
        refine released.mint owned ⟨_, _, edge.declaredAt⟩ fresh fun u hu hp => ?_
        exact absurd hp (unfoldedByPair_eq_none (lookup ▸ absent) hu)
      · rename_i existing stands
        split
        · exact released
        · exact released.supersede distinct owned ⟨_, _, edge.declaredAt⟩ fresh stands

theorem foldLoop_invariant {standing_ : List DependencyRow} (survivor : ChunkId)
    (folded : List ChunkId) (distinct : standing_.Pairwise fun a b => edgePair a ≠ edgePair b) :
    FoldInvariant folded (unfoldedEdges standing_ folded) standing_
      (foldLoop standing_ survivor folded) := by
  have apart : (unfoldedEdges standing_ folded).Pairwise fun a b => edgePair a ≠ edgePair b :=
    distinct.filter _
  have carries : ∀ (rest seen : List DependencyRow) (state : FoldState),
      FoldInvariant folded (unfoldedEdges standing_ folded) seen state →
        FoldInvariant folded (unfoldedEdges standing_ folded) (seen ++ rest)
          (rest.foldl (foldEdge survivor folded) state) := by
    intro rest
    induction rest with
    | nil => exact fun seen state inv => by simpa using inv
    | cons edge rest ih =>
      intro seen state inv
      have next := ih _ _ (inv.foldEdge survivor apart edge)
      rwa [List.append_assoc, List.singleton_append] at next
  refine carries standing_ [] _ ?_
  constructor <;> simp

theorem nodup_eraseDups (ids : List ChunkId) : ids.eraseDups.Nodup := by
  induction hn : ids.length using Nat.strong_induction_on generalizing ids with
  | _ n ih =>
    cases ids with
    | nil => exact List.nodup_nil
    | cons id rest =>
      rw [List.eraseDups_cons]
      have shorter : (rest.filter fun other => !other == id).length < n := by
        have := List.length_filter_le (fun other => !other == id) rest
        rw [List.length_cons] at hn
        omega
      refine List.nodup_cons.mpr ⟨fun mem => ?_, ih _ shorter _ rfl⟩
      simpa using (List.mem_filter.mp (List.mem_eraseDups.mp mem)).2

theorem mergeTargets_nodup (survivor : ChunkId) (mergeIds : List ChunkId) :
    (mergeTargets survivor mergeIds).Nodup :=
  nodup_eraseDups _

/-- Every released id is released under some target of the fold. -/
theorem FoldInvariant.mem_releases {folded : List ChunkId} {unfolded seen : List DependencyRow}
    {state : FoldState} (inv : FoldInvariant folded unfolded seen state) {id : String}
    (mem : id ∈ state.releases.map Prod.snd) :
    id ∈ folded.flatMap fun target =>
      (state.releases.filter fun entry => decide (entry.1 = target)).map Prod.snd := by
  obtain ⟨entry, he, rfl⟩ := List.mem_map.mp mem
  refine List.mem_flatMap.mpr ⟨entry.1, inv.release_owner entry he, ?_⟩
  exact List.mem_map_of_mem (f := Prod.snd) (List.mem_filter.mpr ⟨he, decide_eq_true rfl⟩)

theorem planFold_mem_minted {standing_ : List DependencyRow} {survivor : ChunkId}
    {folded targets : List ChunkId} {pair : Pair}
    (distinct : standing_.Pairwise fun a b => edgePair a ≠ edgePair b)
    (mem : pair ∈ (planFold standing_ survivor folded).mintedPairs targets) :
    pair ∈ (foldLoop standing_ survivor folded).mintedPairs := by
  rw [← (foldLoop_invariant survivor folded distinct).mint_pairs]
  obtain ⟨target, -, hm⟩ := List.mem_flatMap.mp mem
  obtain ⟨mint, hmint, rfl⟩ := List.mem_map.mp hm
  obtain ⟨entry, he, rfl⟩ := List.mem_map.mp hmint
  exact List.mem_map_of_mem (f := fun entry : ChunkId × FoldMint => entry.2.pair)
    (List.mem_filter.mp he).1

/-- A plan mints each pair once, over all its targets. -/
theorem planFold_minted_nodup {standing_ : List DependencyRow} {survivor : ChunkId}
    {folded targets : List ChunkId}
    (distinct : standing_.Pairwise fun a b => edgePair a ≠ edgePair b) (nodup : targets.Nodup) :
    ((planFold standing_ survivor folded).mintedPairs targets).Nodup := by
  have inv := foldLoop_invariant survivor folded distinct
  have pairs_nodup : ((foldLoop standing_ survivor folded).mints.map
      fun entry => entry.2.pair).Nodup := inv.mint_pairs ▸ inv.minted_nodup
  refine List.nodup_flatMap.mpr ⟨fun target _ => ?_, nodup.imp fun {a b} differ => ?_⟩
  · simp only [planFold, List.map_map]
    exact pairs_nodup.sublist (List.filter_sublist.map _)
  · -- one pair under two targets would be one mint with two owners
    intro pair ha hb
    simp only [planFold, List.map_map] at ha hb
    obtain ⟨x, hx, px⟩ := List.mem_map.mp ha
    obtain ⟨y, hy, py⟩ := List.mem_map.mp hb
    obtain ⟨hx, ox⟩ := List.mem_filter.mp hx
    obtain ⟨hy, oy⟩ := List.mem_filter.mp hy
    have same : x = y := List.inj_on_of_nodup_map pairs_nodup hx hy (px.trans py.symm)
    exact differ ((of_decide_eq_true ox).symm.trans (same ▸ of_decide_eq_true oy))

theorem SoundEdges.standingEdges_distinct {tables : Tables} (sound : SoundEdges tables) :
    (standingEdges tables).Pairwise fun a b => edgePair a ≠ edgePair b := by
  have kept : ((tables.chunkDependencies.filter standing).map edgePair).Nodup := by
    refine List.pairwise_map.mpr (List.pairwise_filter.mpr (sound.single.imp ?_))
    exact fun {a b} distinct sa sb => distinct sa sb
  have perm := (List.mergeSort_perm (tables.chunkDependencies.filter standing)
    declaredBefore).map edgePair
  exact List.pairwise_map.mp (perm.nodup_iff.mpr kept)

/-- What a fold's writes leave standing: edges the plan left alone, and the edges it minted. -/
theorem soundEdges_fold {tables tables' : Tables} {survivor : ChunkId} {targets : List ChunkId}
    {plan : FoldEdgePlan} {ids : ℕ → String} {now : Instant} {minted : ℕ}
    (sound : SoundEdges tables) (nodup : targets.Nodup)
    (planned : planGroup (standingEdges tables) survivor targets = some plan)
    (recorded : recordFoldConn tables plan targets survivor ids now = some (tables', minted)) :
    SoundEdges tables' := by
  unfold planGroup at planned
  dsimp only at planned
  split at planned
  · cases planned
  · rename_i acyclic
    obtain rfl := Option.some.inj planned
    have distinct := sound.standingEdges_distinct
    have inv := foldLoop_invariant survivor targets distinct
    obtain ⟨f, fresh, releases, rows, pairs⟩ := recordFold_rows recorded
    -- a row that still stands was not touched and not superseded
    have still : ∀ x ∈ tables.chunkDependencies, standing (f x) = true →
        x ∈ unfoldedEdges (standingEdges tables) targets ∧
          x.dependencyId ∉ (foldLoop (standingEdges tables) survivor targets).superseded := by
      intro x hx stands
      obtain ⟨sx, kept⟩ := (releases x).2.1 stands
      have hs := mem_standingEdges.mpr ⟨hx, sx⟩
      refine ⟨List.mem_filter.mpr ⟨hs, ?_⟩, fun mem => ?_⟩
      · cases touched : touchesFolded targets x with
        | false => rfl
        | true => exact absurd (inv.mem_releases (inv.touched_released x hs touched)) kept
      · exact kept (inv.mem_releases (inv.superseded_released _ mem))
    constructor
    · intro cyclic
      refine acyclic ((wouldCloseACycle_iff _ _).mpr (cyclic.mono fun a b => ?_))
      rintro ⟨e, he, hs, hp⟩
      rw [rows] at he
      rcases List.mem_append.mp he with old | new
      · obtain ⟨x, hx, rfl⟩ := List.mem_map.mp old
        obtain ⟨alone, standsOn⟩ := still x hx hs
        rw [(releases x).1] at hp
        exact List.mem_append_left _ (hp ▸ List.mem_map_of_mem (f := edgePair)
          (List.mem_filter.mpr ⟨alone, decide_eq_true standsOn⟩))
      · refine List.mem_append_right _ ?_
        rw [← pairs, ← hp]
        exact List.mem_map_of_mem (f := edgePair) new
    · rw [rows]
      refine List.pairwise_append.mpr ⟨?_, ?_, ?_⟩
      · refine List.pairwise_map.mpr (sound.single.imp fun {a b} apart ha hb => ?_)
        rw [(releases a).1, (releases b).1]
        exact apart ((releases a).2.1 ha).1 ((releases b).2.1 hb).1
      · have apart : (fresh.map edgePair).Nodup := pairs ▸ planFold_minted_nodup distinct nodup
        exact (List.pairwise_map.mp apart).imp fun {a b} differ _ _ => differ
      · intro a ha b hb sa _ same
        obtain ⟨x, hx, rfl⟩ := List.mem_map.mp ha
        obtain ⟨alone, standsOn⟩ := still x hx sa
        have mem : edgePair b ∈ fresh.map edgePair := List.mem_map_of_mem (f := edgePair) hb
        rw [pairs, ← same, (releases x).1] at mem
        exact standsOn (inv.minted_superseded _ (planFold_mem_minted distinct mem) x alone rfl)

theorem soundEdges_group {tables : Tables} (sound : SoundEdges tables) (survivor : ChunkId)
    (mergeIds : List ChunkId) (ids : ℕ → String) (now : Instant) :
    SoundEdges (group tables survivor mergeIds ids now).1 := by
  unfold group
  dsimp only
  split
  · exact sound
  · split
    · exact sound
    · split
      · exact sound
      · rename_i plan planned
        split
        · exact sound
        · rename_i tables' minted recorded
          exact soundEdges_fold sound (mergeTargets_nodup survivor mergeIds) planned recorded

/-- The operations that write dependency edges. -/
inductive EdgeCommand
  | declare (dependent prerequisite : ChunkId) (by_ dependencyId : String)
  | release (dependent prerequisite : ChunkId) (by_ : String)
  | group (survivor : ChunkId) (mergeIds : List ChunkId) (ids : ℕ → String)
  | delete (chunkId : ChunkId) (by_ : String)

/-- The tables an edge operation commits at `now`. -/
def EdgeCommand.exec (tables : Tables) (now : Instant) : EdgeCommand → Tables
  | .declare dependent prerequisite by_ dependencyId =>
    (DependencyEdges.declare tables dependent prerequisite by_ dependencyId now).1
  | .release dependent prerequisite by_ =>
    (DependencyEdges.release tables dependent prerequisite by_ now).1
  | .group survivor mergeIds ids => (DependencyEdges.group tables survivor mergeIds ids now).1
  | .delete chunkId by_ => (deleteChunk tables chunkId by_ now).1

/-- One commit: an edge operation, or any other write, which at most drops edge rows. -/
inductive EdgeStep : Tables → Option EdgeCommand → Tables → Prop
  | edge (tables : Tables) (now : Instant) (command : EdgeCommand) :
      EdgeStep tables (some command) (command.exec tables now)
  | elsewhere (tables tables' : Tables)
      (kept : tables'.chunkDependencies.Sublist tables.chunkDependencies) :
      EdgeStep tables none tables'

theorem SoundEdges.of_sublist {tables tables' : Tables} (sound : SoundEdges tables)
    (kept : tables'.chunkDependencies.Sublist tables.chunkDependencies) : SoundEdges tables' where
  acyclic cyclic := sound.acyclic (cyclic.mono fun _ _ ⟨e, he, stands⟩ => ⟨e, kept.subset he, stands⟩)
  single := sound.single.sublist kept

theorem soundEdges_step {tables tables' : Tables} {command : Option EdgeCommand}
    (step : EdgeStep tables command tables') (sound : SoundEdges tables) : SoundEdges tables' := by
  cases step with
  | edge now command =>
    cases command with
    | declare dependent prerequisite by_ dependencyId => exact soundEdges_declare sound ..
    | release dependent prerequisite by_ => exact soundEdges_release sound ..
    | group survivor mergeIds ids => exact soundEdges_group sound ..
    | delete chunkId by_ => exact soundEdges_delete sound ..
  | elsewhere _ kept => exact sound.of_sublist kept

theorem soundEdges_minted (chunks : ChunkTable) (graphNodes : List GraphNodeRow) :
    SoundEdges (Tables.minted chunks graphNodes) where
  acyclic := by
    rintro ⟨a, cycle⟩
    obtain ⟨b, ⟨e, he, -⟩, -⟩ := Relation.TransGen.head'_iff.mp cycle
    exact List.not_mem_nil he
  single := List.Pairwise.nil

/-- Over every sequence of declarations, releases, folds and deletions the standing edges have
no cycle, no self edge and one edge a pair, and the cycle walk answers reachability. -/
theorem standing_graph_acyclic {chunks : ChunkTable} {graphNodes : List GraphNodeRow}
    {commands : List (Option EdgeCommand)} {tables : Tables}
    (run : Runs EdgeStep (Tables.minted chunks graphNodes) commands tables) :
    (∀ a, ¬ TransGen (StandingPair tables) a a) ∧
    (∀ e ∈ tables.chunkDependencies, standing e = true →
      e.dependentChunkId ≠ e.prerequisiteChunkId) ∧
    (tables.chunkDependencies.Pairwise fun a b =>
      standing a = true → standing b = true → edgePair a ≠ edgePair b) ∧
    (∀ d p, wouldCloseACycle (standingEdges tables) [(d, p)] = true ↔
      ReflTransGen (StandingPair tables) p d) := by
  have sound : SoundEdges tables :=
    run.invariant (fun _ _ _ step => soundEdges_step step) (soundEdges_minted chunks graphNodes)
  have acyclic : ∀ a, ¬ TransGen (StandingPair tables) a a := fun a cycle =>
    sound.acyclic ⟨a, cycle⟩
  refine ⟨acyclic, ?_, sound.single, wouldCloseACycle_pair_iff sound⟩
  intro e he stands self
  refine acyclic e.dependentChunkId (.single ⟨e, he, stands, ?_⟩)
  rw [edgePair, ← self]

/-- `b` waits on `a`, `a` may not be made to wait on `b`, and folding `b` into `a` releases the
edge between them. -/
theorem standing_graph_acyclic_declared : ∃ tables tables',
    Runs EdgeStep (.minted ⟨[⟨"a", "pj", "gr", none⟩, ⟨"b", "pj", "gr", none⟩], by decide⟩ [])
      [some (.declare "b" "a" "op" "dep_1")] tables ∧
    Runs EdgeStep tables [some (.group "a" ["b"] fun _ => "dep_2")] tables' ∧
    (standingEdges tables).map edgePair = [("b", "a")] ∧
    (standingEdges tables').map edgePair = [] ∧
    ReflTransGen (StandingPair tables) "b" "a" := by
  let start : Tables :=
    .minted ⟨[⟨"a", "pj", "gr", none⟩, ⟨"b", "pj", "gr", none⟩], by decide⟩ []
  have declared : Runs EdgeStep start _ _ := .single (.edge start 1 (.declare "b" "a" "op" "dep_1"))
  have walk := (standing_graph_acyclic declared).2.2.2 "a" "b"
  refine ⟨_, _, declared, .single (.edge _ 2 _), ?_, ?_, walk.mp ?_⟩ <;> decide +kernel

end Blizzard.DependencyAcyclicity
