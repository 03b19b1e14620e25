import Blizzard.EnvironmentProviders

/-! # What an acquire does to the folders

No step of an acquire touches an environment of its held list, and a basic workspace never keeps
more folders than its cap, wherever the steps stop. -/
namespace Blizzard.EnvironmentCapacity
open HubTables ExceptRules EnvironmentProviders

variable {directory : Directory} {heldIds names : List String} {chunkId : ChunkId}

def folderNames (directory : Directory) : List String := directory.environments.map (·.name)

/-- A basic workspace's folders have their own names. -/
def Named (directory : Directory) : Prop := (folderNames directory).Nodup

theorem find_isNone {name : String} :
    (directory.find name).isNone = true ↔ name ∉ folderNames directory := by
  simp [Directory.find, folderNames]

theorem folderNames_removed (directory : Directory) (name : String) :
    folderNames (directory.removed name) =
      (folderNames directory).filter fun other => decide (other ≠ name) := by
  rw [folderNames, folderNames, Directory.removed, List.filter_map]
  rfl

theorem folderNames_prepared (directory : Directory) (chunkId : ChunkId) (name : String) :
    folderNames (directory.prepared chunkId name) =
      folderNames (directory.removed name) ++ [name] := by
  simp [folderNames, Directory.prepared]

theorem folderNames_length (directory : Directory) :
    (folderNames directory).length = directory.environments.length := List.length_map _

theorem Named.removed (named : Named directory) (name : String) : Named (directory.removed name) := by
  rw [Named, folderNames_removed]
  exact named.filter _

theorem Named.prepared (named : Named directory) (name : String) :
    Named (directory.prepared chunkId name) := by
  rw [Named, folderNames_prepared]
  refine List.Nodup.append (named.removed name) (List.nodup_singleton name) ?_
  intro other mem mem'
  rw [List.mem_singleton.mp mem', folderNames_removed] at mem
  simpa using (List.mem_filter.mp mem).2

theorem Named.apply (named : Named directory) (act : PoolAct) : Named (act.apply chunkId directory) := by
  cases act with
  | evict name => exact named.removed name
  | prepare name => exact named.prepared name

theorem removed_length_le (directory : Directory) (name : String) :
    (directory.removed name).environments.length ≤ directory.environments.length :=
  List.length_filter_le _ _

/-- A folder prepared takes room only where it was not there. -/
theorem prepared_length (named : Named directory) (name : String) :
    (directory.prepared chunkId name).environments.length =
      directory.environments.length + if name ∈ folderNames directory then 0 else 1 := by
  rw [← folderNames_length, ← folderNames_length, folderNames_prepared, folderNames_removed,
    List.length_append, List.length_singleton]
  by_cases there : name ∈ folderNames directory
  · have erased : (folderNames directory).filter (fun other => decide (other ≠ name)) =
        (folderNames directory).erase name := by
      rw [List.Nodup.erase_eq_filter named]
      congr
      funext other
      by_cases same : other = name <;> simp [same]
    rw [if_pos there, erased, List.length_erase_of_mem there]
    have := List.length_pos_of_mem there
    omega
  · rw [if_neg there, List.filter_eq_self.mpr]
    intro other mem
    exact decide_eq_true fun same => there (same ▸ mem)

/-- The room a list of distinct names takes once prepared. -/
theorem prepares_length (named : Named directory) (distinct : names.Nodup) :
    ((names.map PoolAct.prepare).foldl (PoolAct.apply chunkId) directory).environments.length =
      directory.environments.length +
        (names.filter fun name => decide (name ∉ folderNames directory)).length := by
  induction names generalizing directory with
  | nil => simp
  | cons name names ih =>
    obtain ⟨fresh, distinct⟩ := List.nodup_cons.mp distinct
    have others : names.filter (fun other =>
        decide (other ∉ folderNames (directory.prepared chunkId name))) =
        names.filter fun other => decide (other ∉ folderNames directory) := by
      refine List.filter_congr ?_
      intro other mem
      have apart : other ≠ name := fun same => fresh (same ▸ mem)
      rw [folderNames_prepared, folderNames_removed]
      simp [apart]
    rw [List.map_cons, List.foldl_cons]
    have first : PoolAct.apply chunkId directory (.prepare name) = directory.prepared chunkId name := rfl
    rw [first, ih (named.prepared name) distinct, others, prepared_length named, List.filter_cons]
    by_cases there : name ∈ folderNames directory
    · simp [there]
    · simp only [there, if_false, not_false_eq_true, decide_true, if_true, List.length_cons]
      omega

/-- The folders left by a list of evictions. -/
theorem evicts_names (directory : Directory) (evicted : List String) :
    folderNames ((evicted.map PoolAct.evict).foldl (PoolAct.apply chunkId) directory) =
      (folderNames directory).filter fun name => decide (name ∉ evicted) := by
  induction evicted generalizing directory with
  | nil => simp
  | cons name evicted ih =>
    rw [List.map_cons, List.foldl_cons, ih]
    have first : PoolAct.apply chunkId directory (.evict name) = directory.removed name := rfl
    rw [first, folderNames_removed, List.filter_filter]
    refine List.filter_congr ?_
    intro other _
    by_cases same : other = name <;> simp [same]

theorem Named.applied (named : Named directory) (acts : List PoolAct) :
    Named (acts.foldl (PoolAct.apply chunkId) directory) := by
  induction acts generalizing directory with
  | nil => exact named
  | cons act acts ih => exact ih (named.apply act)

/-- Distinct members taken off a list of distinct ones. -/
theorem length_without {xs ys : List String} (distinct : xs.Nodup) (sub : ys ⊆ xs)
    (distinct' : ys.Nodup) :
    (xs.filter fun x => decide (x ∉ ys)).length + ys.length = xs.length := by
  have perm : xs.Perm (ys ++ xs.filter fun x => decide (x ∉ ys)) := by
    refine (List.perm_ext_iff_of_nodup distinct ?_).mpr ?_
    · refine List.Nodup.append distinct' (distinct.filter _) ?_
      intro x mem mem'
      exact of_decide_eq_true (List.mem_filter.mp mem').2 mem
    · intro x
      by_cases inside : x ∈ ys
      · simp [inside, sub inside]
      · simp [inside]
  have lengths := perm.length_eq
  rw [List.length_append] at lengths
  omega

theorem sliceTo_leads {α : Type} (xs : List α) (n : ℤ) : sliceTo xs n <+: xs := by
  rw [sliceTo]
  split
  · exact List.take_prefix _ _
  · exact List.take_prefix _ _

/-- A negative bound keeps its number at the end. -/
theorem length_sliceTo {α : Type} (xs : List α) (n : ℤ) :
    ((sliceTo xs n).length : ℤ) = if 0 ≤ n then min n xs.length else max 0 (xs.length + n) := by
  rw [sliceTo]
  split
  · rw [List.length_take]
    omega
  · rw [List.length_take]
    omega

/-- What a basic acquire goes on to do. -/
structure BasicPlan (maxEnvironments : ℕ) (directory : Directory) (chunkId : ChunkId) (count : ℕ)
    (heldIds : List String) (evicted chosen : List String) : Prop where
  picked : Chosen heldIds chunkId 1 count chosen
  distinct : evicted.Nodup
  folders : evicted ⊆ folderNames directory
  released : ∀ name ∈ evicted, name ∉ heldIds ∧ name ∉ chosen
  fits : directory.environments.length +
      (chosen.filter fun name => decide (name ∉ folderNames directory)).length ≤
    maxEnvironments + evicted.length

/-- What an answered acquire has chosen, and that the released folders give the room. -/
theorem basicAcquire_ok {hasRepos : Bool} {maxEnvironments count : ℕ} {changedAt : String → ℤ}
    {acts : List PoolAct}
    (answered : basicAcquire hasRepos maxEnvironments directory chunkId count heldIds changedAt =
      .ok acts) :
    ∃ chosen released over_,
      released = evictable directory heldIds.dedup chosen changedAt ∧
      over_ = surplus directory chosen maxEnvironments ∧ over_ ≤ released.length ∧
      Chosen heldIds chunkId 1 count chosen ∧
      acts = ((sliceTo released over_).map (·.name)).map PoolAct.evict ++
        chosen.map PoolAct.prepare := by
  rw [basicAcquire] at answered
  split at answered
  · cases answered
  split at answered
  · cases answered
  simp only at answered
  split at answered
  · cases answered
  obtain ⟨chosen, picked, answered⟩ := bind_ok answered
  split at answered
  · cases answered
  rename_i room
  have picked := selected_chosen picked
  refine ⟨chosen, _, _, rfl, rfl, not_lt.mp room, ?_, ?_⟩
  · exact ⟨picked.count, fun name mem held => picked.free name mem (List.mem_dedup.mpr held),
      picked.own, picked.distinct⟩
  · rw [← Except.ok.inj answered, List.map_map]
    rfl

theorem basicAcquire_plan {hasRepos : Bool} {maxEnvironments count : ℕ} {changedAt : String → ℤ}
    {acts : List PoolAct} (named : Named directory)
    (answered : basicAcquire hasRepos maxEnvironments directory chunkId count heldIds changedAt =
      .ok acts) :
    ∃ evicted chosen, acts = evicted.map PoolAct.evict ++ chosen.map PoolAct.prepare ∧
      BasicPlan maxEnvironments directory chunkId count heldIds evicted chosen := by
  obtain ⟨chosen, released, over_, folders, counted, room, picked, plan⟩ := basicAcquire_ok answered
  have sub := (sliceTo_leads released over_).sublist
  have long := length_sliceTo released over_
  have listed : ∀ folder ∈ released,
      folder ∈ directory.environments ∧ folder.name ∉ heldIds ∧ folder.name ∉ chosen := by
    intro folder mem
    rw [folders] at mem
    obtain ⟨mem, out⟩ := List.mem_filter.mp (List.mem_mergeSort.mp mem)
    rw [Bool.and_eq_true, decide_eq_true_eq, decide_eq_true_eq, List.mem_dedup] at out
    exact ⟨mem, out⟩
  refine ⟨_, chosen, plan, picked, ?_, ?_, ?_, ?_⟩
  · have all : (released.map (·.name)).Nodup := by
      rw [folders]
      refine ((List.mergeSort_perm _ _).map _).nodup_iff.mpr ?_
      exact named.sublist (List.filter_sublist.map _)
    exact all.sublist (sub.map _)
  · intro name mem
    obtain ⟨folder, sliced, rfl⟩ := List.mem_map.mp mem
    exact List.mem_map_of_mem (listed folder (sub.subset sliced)).1
  · intro name mem
    obtain ⟨folder, sliced, rfl⟩ := List.mem_map.mp mem
    exact (listed folder (sub.subset sliced)).2
  · have new : (chosen.filter fun name => (directory.find name).isNone) =
        chosen.filter fun name => decide (name ∉ folderNames directory) := by
      refine List.filter_congr ?_
      intro name _
      rw [Bool.eq_iff_iff, find_isNone, decide_eq_true_iff]
    rw [surplus, new] at counted
    rw [List.length_map]
    omega

/-- Wherever a basic acquire stops, its folders are within the cap. -/
theorem BasicPlan.room {maxEnvironments count : ℕ} {evicted chosen : List String}
    (plan : BasicPlan maxEnvironments directory chunkId count heldIds evicted chosen)
    (named : Named directory) (within : directory.environments.length ≤ maxEnvironments) (n : ℕ) :
    (((evicted.map PoolAct.evict ++ chosen.map PoolAct.prepare).take n).foldl
      (PoolAct.apply chunkId) directory).environments.length ≤ maxEnvironments := by
  rw [List.take_append, List.foldl_append, ← List.map_take, ← List.map_take]
  by_cases early : n ≤ evicted.length
  · have none_ : n - (evicted.map PoolAct.evict).length = 0 := by
      rw [List.length_map]
      omega
    rw [none_, List.take_zero, List.map_nil, List.foldl_nil, ← folderNames_length, evicts_names]
    have := List.length_filter_le (fun name => decide (name ∉ evicted.take n)) (folderNames directory)
    rw [folderNames_length] at this
    omega
  · have whole : evicted.take n = evicted := List.take_of_length_le (by omega)
    rw [whole]
    have left := length_without named plan.folders plan.distinct
    rw [folderNames_length] at left
    have names : folderNames
        ((evicted.map PoolAct.evict).foldl (PoolAct.apply chunkId) directory) = _ :=
      evicts_names directory evicted
    have named' : Named ((evicted.map PoolAct.evict).foldl (PoolAct.apply chunkId) directory) :=
      named.applied _
    generalize (evicted.map PoolAct.evict).foldl (PoolAct.apply chunkId) directory = base at names named' ⊢
    rw [prepares_length named' (plan.picked.distinct.sublist (List.take_sublist _ _))]
    have fewer : ((chosen.take (n - (evicted.map PoolAct.evict).length)).filter fun name =>
        decide (name ∉ folderNames base)).length ≤
        (chosen.filter fun name => decide (name ∉ folderNames directory)).length := by
      refine ((List.take_sublist _ _).filter _).length_le.trans (le_of_eq ?_)
      congr 1
      refine List.filter_congr ?_
      intro name mem
      have apart : name ∉ evicted := fun gone => (plan.released name gone).2 mem
      simp [names, apart]
    have base_ : base.environments.length =
        ((folderNames directory).filter fun name => decide (name ∉ evicted)).length := by
      rw [← names, folderNames_length]
    have := plan.fits
    omega

/-! ## Either provider's acquire -/

/-- The environments an acquire prepares. -/
def preparedNames (acts : List PoolAct) : List String :=
  acts.filterMap fun act => match act with
    | .evict _ => none
    | .prepare name => some name

/-- No step is on an environment of the held list, and one is prepared for each asked for. -/
structure Planned (heldIds : List String) (count : ℕ) (acts : List PoolAct) : Prop where
  avoids : ∀ act ∈ acts, act.environmentId ∉ heldIds
  count : (preparedNames acts).length = count

theorem preparedNames_prepares (names : List String) :
    preparedNames (names.map PoolAct.prepare) = names := by
  rw [preparedNames, List.filterMap_map]
  exact List.filterMap_some

theorem preparedNames_evicts (names : List String) : preparedNames (names.map PoolAct.evict) = [] := by
  rw [preparedNames, List.filterMap_map]
  exact List.filterMap_eq_nil_iff.mpr fun _ _ => rfl

theorem preparedNames_plan (evicted chosen : List String) :
    preparedNames (evicted.map PoolAct.evict ++ chosen.map PoolAct.prepare) = chosen := by
  rw [preparedNames, List.filterMap_append, ← preparedNames, ← preparedNames, preparedNames_evicts,
    preparedNames_prepares, List.nil_append]

theorem acquire_planned {provider : Provider} {count : ℕ} {changedAt : String → ℤ} {acts : List PoolAct}
    (named : Named directory)
    (answered : provider.acquire directory chunkId count heldIds changedAt = .ok acts) :
    Planned heldIds count acts := by
  cases provider with
  | winter pool =>
    rw [Provider.acquire, winterAcquire] at answered
    split at answered
    · cases answered
    rename_i enough
    cases answered
    constructor
    · intro act mem
      obtain ⟨name, taken, rfl⟩ := List.mem_map.mp mem
      have free := List.mem_filter.mp (List.mem_of_mem_take taken)
      exact of_decide_eq_true free.2
    · rw [preparedNames_prepares, List.length_take]
      omega
  | basic hasRepos maxEnvironments =>
    obtain ⟨evicted, chosen, rfl, plan⟩ := basicAcquire_plan named answered
    constructor
    · intro act mem
      rcases List.mem_append.mp mem with mem | mem
      · obtain ⟨name, gone, rfl⟩ := List.mem_map.mp mem
        exact (plan.released name gone).1
      · obtain ⟨name, taken, rfl⟩ := List.mem_map.mp mem
        exact plan.picked.free name taken
    · rw [preparedNames_plan]
      exact plan.picked.count

/-! ## What a basic acquire removes -/

/-- The environments an acquire removes. -/
def evictedNames (acts : List PoolAct) : List String :=
  acts.filterMap fun act => match act with
    | .evict name => some name
    | .prepare _ => none

/-- The folders the acquire would leave if it removed none. -/
def leaving (directory : Directory) (chosen : List String) : ℕ :=
  directory.environments.length + (chosen.filter fun name => (directory.find name).isNone).length

theorem evictedNames_plan (evicted chosen : List String) :
    evictedNames (evicted.map PoolAct.evict ++ chosen.map PoolAct.prepare) = evicted := by
  rw [evictedNames, List.filterMap_append, List.filterMap_map, List.filterMap_map]
  have none_ : chosen.filterMap (fun _ => (none : Option String)) = [] :=
    List.filterMap_eq_nil_iff.mpr fun _ _ => rfl
  exact (congrArg₂ _ List.filterMap_some none_).trans (List.append_nil evicted)

end Blizzard.EnvironmentCapacity
