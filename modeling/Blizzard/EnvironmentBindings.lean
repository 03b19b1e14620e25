import Blizzard.DictionaryRows
import Blizzard.ExclusiveHolds
import Blizzard.ParkMirror
import Mathlib.Data.List.Dedup

/-! # Environment bindings

A chunk holds an environment from its binding to the release that follows it. The rules say who
may bind an environment, what a refused claim gives back, and when a release is stamped; the
checker reads every runner's held rows and reports an environment two chunks hold. -/
namespace Blizzard.EnvironmentBindings
open HubTables FactSequence DictionaryRows ExclusiveHolds

/-! ## The rules -/

/-- `EnvBinding.release_instant`. -/
def releaseInstant (binding : EnvBinding) (now : Instant) : Instant := max now binding.boundAt

structure EnvironmentHeld where
  environmentId : String
  holderChunkId : ChunkId
  deriving DecidableEq, Repr

/-- The environments other chunks hold, each with its holder. -/
def holdersOtherThan (chunkId : ChunkId) (held : List EnvBinding) : List (String × ChunkId) :=
  (held.filter fun binding => decide (binding.chunkId ≠ chunkId)).map fun binding =>
    (binding.environmentId, binding.chunkId)

/-- What a refused chunk may give back, in the order given. -/
def releasableAfterRefusal (chunkId : ChunkId) (environmentIds : List String)
    (held : List EnvBinding) : List String :=
  environmentIds.filter fun environmentId =>
    (get (holdersOtherThan chunkId held) environmentId).isNone

/-- Refuses a chunk any environment another chunk holds. -/
def requireUnheld (chunkId : ChunkId) (environmentIds : List String) (held : List EnvBinding) :
    Except EnvironmentHeld Unit :=
  environmentIds.forM fun environmentId =>
    match get (holdersOtherThan chunkId held) environmentId with
    | some holder => .error ⟨environmentId, holder⟩
    | none => .ok ()

/-- The releases to record of one chunk's held bindings. -/
def releaseInstants (held : List EnvBinding) (environmentIds : List String) (now : Instant) :
    List (String × Instant) :=
  (held.filter fun binding => decide (binding.environmentId ∈ environmentIds)).map fun binding =>
    (binding.environmentId, releaseInstant binding now)

/-- A held row that lacks its workspace or its project, named by its runner's number for it. -/
structure IncompleteBinding where
  bindingId : ℕ
  chunkId : ChunkId
  workdir : String
  workspaceId : Option String
  projectId : Option String
  deriving DecidableEq, Repr

structure BindingCompletion where
  bindingId : ℕ
  workspaceId : Option String
  projectId : Option String
  deriving DecidableEq, Repr

/-- The components of a path with empty, dot and dot-dot segments folded away. -/
def foldedSegments (rooted : Bool) (segments : List String) : List String :=
  (segments.foldl (fun kept segment =>
    if segment = "" ∨ segment = "." then kept
    else if segment ≠ ".." ∨ (!rooted ∧ kept = []) ∨ kept.head? = some ".." then segment :: kept
    else kept.tail) []).reverse

/-- `posixpath.normpath`. -/
def resolved (workdir : String) : String :=
  let rooted := workdir.startsWith "/"
  let root :=
    if workdir.startsWith "//" && !workdir.startsWith "///" then "//"
    else if rooted then "/" else ""
  let path := root ++ "/".intercalate (foldedSegments rooted (workdir.splitOn "/"))
  if path = "" then "." else path

/-- The completion a row takes, or none when it gains nothing. -/
def bindingCompletion (row : IncompleteBinding)
    (listedWorkdirs : List (String × List (String × String))) (projectId : Option String) :
    Option BindingCompletion :=
  let workspace :=
    if row.workspaceId.isNone then
      (listedWorkdirs.find? fun listed =>
        listed.2.any fun workdir => decide (resolved row.workdir = resolved workdir.2)).map (·.1)
    else none
  let project := if row.projectId.isNone then projectId else none
  if workspace.isNone && project.isNone then none
  else some ⟨row.bindingId, workspace, project⟩

/-! ## The stores -/

def boundFirst (a b : Sequenced EnvBinding) : Bool := decide (a.values.boundAt ≤ b.values.boundAt)

/-- The bound runner's held bindings of a chunk. -/
def bindingsForChunk (store : HostStore) (runnerId : RunnerId) (chunkId : ChunkId) :
    List EnvBinding :=
  ((store.envBindings.filter fun row =>
    decide (row.runnerId = runnerId) && decide (row.values.chunkId = chunkId) &&
      heldBinding store runnerId row).mergeSort boundFirst).map (·.values)

/-- Every runner's held bindings in a workspace's pool, and those naming no workspace. -/
def heldWorkspaceBindings (store : HostStore) (workspaceId : String) : List EnvBinding :=
  (((keptBindings store).filter fun row =>
    decide (row.values.workspaceId = some workspaceId) ||
      decide (row.values.workspaceId = none)).mergeSort boundFirst).map (·.values)

/-- The bound runner's held rows lacking their workspace or their project. -/
def incompleteHeldBindings (store : HostStore) (runnerId : RunnerId) : List IncompleteBinding :=
  (store.envBindings.filter fun row =>
    decide (row.runnerId = runnerId) && heldBinding store runnerId row &&
      (row.values.workspaceId.isNone || row.values.projectId.isNone)).map fun row =>
    ⟨row.seq, row.values.chunkId, row.values.workdir, row.values.workspaceId, row.values.projectId⟩

/-- A row with its gaps filled; a column already set is left as it is. -/
def filled (completion : BindingCompletion) (row : Sequenced EnvBinding) : Sequenced EnvBinding :=
  { row with values := { row.values with
      workspaceId := row.values.workspaceId <|> completion.workspaceId
      projectId := row.values.projectId <|> completion.projectId } }

def completeBinding (runnerId : RunnerId) (store : HostStore) (completion : BindingCompletion) :
    HostStore :=
  { store with envBindings := store.envBindings.map fun row =>
      if row.runnerId = runnerId ∧ row.seq = completion.bindingId then filled completion row
      else row }

def completeBindings (store : HostStore) (runnerId : RunnerId)
    (completions : List BindingCompletion) : HostStore :=
  completions.foldl (completeBinding runnerId) store

/-! ## The checker -/

/-- An environment two chunks hold, in a workspace or where one of them names none. -/
structure Violation where
  environmentId : String
  workspaceId : Option String
  chunkIds : List ChunkId
  deriving DecidableEq, Repr

/-- `sorted` of a set. -/
def sortedSet (ids : List String) : List String := ids.dedup.mergeSort fun a b => decide (a ≤ b)

/-- What the held rows of one environment violate. -/
def conflictsOn (environmentId : String) (rows : List (ChunkId × String × Option String)) :
    List Violation :=
  let chunksIn workspaceId :=
    sortedSet ((rows.filter fun row => decide (row.2.2 = some workspaceId)).map (·.1))
  let every := sortedSet (rows.map (·.1))
  (sortedSet (rows.filterMap (·.2.2))).filterMap (fun workspaceId =>
      if 1 < (chunksIn workspaceId).length then
        some ⟨environmentId, some workspaceId, chunksIn workspaceId⟩
      else none) ++
    if rows.any (fun row => row.2.2.isNone) ∧ 1 < every.length then [⟨environmentId, none, every⟩]
    else []

/-- `UniqueEnvBinding.run`. -/
def uniqueEnvBinding (store : HostStore) : List Violation :=
  let held := heldBindings store
  (held.map (·.2.1)).eraseDups.flatMap fun environmentId =>
    conflictsOn environmentId (held.filter fun row => decide (row.2.1 = environmentId))

/-! ## What the rows hold -/

def hold (row : Sequenced EnvBinding) : Hold String String ChunkId :=
  ⟨row.values.workspaceId, row.values.environmentId, row.values.chunkId⟩

/-- What the chunks of the host hold. -/
def holds (store : HostStore) : List (Hold String String ChunkId) := (keptBindings store).map hold

theorem mem_keptBindings {store : HostStore} {row : Sequenced EnvBinding} :
    row ∈ keptBindings store ↔ row ∈ store.envBindings ∧ heldBinding store row.runnerId row = true := by
  rw [keptBindings, List.mem_filter]

theorem mem_heldWorkspaceBindings {store : HostStore} {workspaceId : String} {binding : EnvBinding} :
    binding ∈ heldWorkspaceBindings store workspaceId ↔ ∃ row ∈ keptBindings store,
      row.values = binding ∧
        (binding.workspaceId = some workspaceId ∨ binding.workspaceId = none) := by
  rw [heldWorkspaceBindings, List.mem_map]
  constructor
  · rintro ⟨row, listed, rfl⟩
    obtain ⟨kept, place⟩ := List.mem_filter.mp (List.mem_mergeSort.mp listed)
    exact ⟨row, kept, rfl, by simpa using place⟩
  · rintro ⟨row, kept, rfl, place⟩
    exact ⟨row, List.mem_mergeSort.mpr (List.mem_filter.mpr ⟨kept, by simpa using place⟩), rfl⟩

theorem mem_holds {store : HostStore} {a : Hold String String ChunkId} :
    a ∈ holds store ↔ ∃ row ∈ keptBindings store, hold row = a := List.mem_map

/-- Two members are told apart by a set of more than one. -/
theorem one_lt_sortedSet {ids : List String} :
    1 < (sortedSet ids).length ↔ ∃ a ∈ ids, ∃ b ∈ ids, a ≠ b := by
  rw [sortedSet, List.length_mergeSort]
  have distinct := List.nodup_dedup ids
  have listed : ∀ {a}, a ∈ ids.dedup ↔ a ∈ ids := List.mem_dedup
  constructor
  · intro many
    rcases found : ids.dedup with _ | ⟨a, _ | ⟨b, rest⟩⟩
    · simp [found] at many
    · simp [found] at many
    · rw [found] at distinct
      have first : a ∈ ids := listed.mp (found ▸ List.mem_cons_self)
      have second : b ∈ ids := listed.mp (found ▸ List.mem_cons_of_mem _ List.mem_cons_self)
      refine ⟨a, first, b, second, ?_⟩
      rintro rfl
      exact (List.nodup_cons.mp distinct).1 List.mem_cons_self
  · rintro ⟨a, first, b, second, differ⟩
    have first' := listed.mpr first
    have second' := listed.mpr second
    rcases found : ids.dedup with _ | ⟨c, _ | ⟨d, rest⟩⟩
    · simp [found] at first'
    · rw [found, List.mem_singleton] at first' second'
      exact absurd (first'.trans second'.symm) differ
    · simp

theorem mem_sortedSet {ids : List String} {a : String} : a ∈ sortedSet ids ↔ a ∈ ids := by
  rw [sortedSet, List.mem_mergeSort, List.mem_dedup]

/-- One environment's rows are in order where no two chunks on it may meet. -/
theorem conflictsOn_eq_nil {environmentId : String} {rows : List (ChunkId × String × Option String)} :
    conflictsOn environmentId rows = [] ↔
      ∀ a ∈ rows, ∀ b ∈ rows, a.1 ≠ b.1 → ¬ MayMeet a.2.2 b.2.2 := by
  have every : (∃ x ∈ rows.map (·.1), ∃ y ∈ rows.map (·.1), x ≠ y) ↔
      ∃ a ∈ rows, ∃ b ∈ rows, a.1 ≠ b.1 := by simp
  have inPlace : ∀ w : String,
      (∃ x ∈ (rows.filter fun row => decide (row.2.2 = some w)).map (·.1),
        ∃ y ∈ (rows.filter fun row => decide (row.2.2 = some w)).map (·.1), x ≠ y) ↔
      ∃ a ∈ rows, a.2.2 = some w ∧ ∃ b ∈ rows, b.2.2 = some w ∧ a.1 ≠ b.1 := by
    intro w
    simp
  rw [conflictsOn]
  simp only [one_lt_sortedSet, every, inPlace, List.append_eq_nil_iff, List.filterMap_eq_nil_iff]
  constructor
  · rintro ⟨named, open_⟩ a mem b mem' differ meet
    have clear : ¬ (rows.any (fun row => row.2.2.isNone) = true ∧ ∃ a ∈ rows, ∃ b ∈ rows, a.1 ≠ b.1) := by
      intro both
      rw [if_pos both] at open_
      cases open_
    have known : ∀ c ∈ rows, c.2.2 ≠ none := by
      intro c mem'' unknown
      exact clear ⟨List.any_eq_true.mpr ⟨c, mem'', by simp [unknown]⟩, a, mem, b, mem', differ⟩
    rcases meet with unknown | unknown | same
    · exact known a mem unknown
    · exact known b mem' unknown
    · obtain ⟨w, at_⟩ := Option.ne_none_iff_exists'.mp (known a mem)
      have listed : w ∈ sortedSet (rows.filterMap (·.2.2)) :=
        mem_sortedSet.mpr (List.mem_filterMap.mpr ⟨a, mem, at_⟩)
      have none_ := named w listed
      rw [if_pos ⟨a, mem, at_, b, mem', same.symm.trans at_, differ⟩] at none_
      cases none_
  · intro apart
    constructor
    · intro w _
      rw [if_neg]
      rintro ⟨a, mem, at_, b, mem', at', differ⟩
      exact apart a mem b mem' differ (.inr (.inr (at_.trans at'.symm)))
    · rw [if_neg]
      rintro ⟨unknown, a, mem, b, mem', differ⟩
      obtain ⟨c, mem'', open_⟩ := List.any_eq_true.mp unknown
      have nowhere : c.2.2 = none := Option.isNone_iff_eq_none.mp open_
      -- the row of unknown place is another chunk's than one of the two
      by_cases own : c.1 = a.1
      · exact apart c mem'' b mem' (own ▸ differ) (.inl nowhere)
      · exact apart c mem'' a mem own (.inl nowhere)

/-- The checker reports nothing just where the host's holds are exclusive. -/
theorem uniqueEnvBinding_eq_nil {store : HostStore} :
    uniqueEnvBinding store = [] ↔ Exclusive (holds store) := by
  have rows : holds store = (heldBindings store).map fun row => ⟨row.2.2, row.2.1, row.1⟩ := by
    rw [holds, ParkMirror.bindings_mirrored store, List.map_map]
    rfl
  rw [uniqueEnvBinding, List.flatMap_eq_nil_iff]
  simp only [conflictsOn_eq_nil, rows]
  constructor
  · intro clear a mem b mem' clash
    obtain ⟨row, listed, rfl⟩ := List.mem_map.mp mem
    obtain ⟨row', listed', rfl⟩ := List.mem_map.mp mem'
    obtain ⟨same, differ, meet⟩ := clash
    have named : row.2.1 ∈ ((heldBindings store).map (·.2.1)).eraseDups :=
      List.mem_eraseDups.mpr (List.mem_map_of_mem (f := (·.2.1)) listed)
    refine clear row.2.1 named row ?_ row' ?_ differ meet
    · exact List.mem_filter.mpr ⟨listed, by simp⟩
    · exact List.mem_filter.mpr ⟨listed', by simpa using same.symm⟩
  · intro exclusive environmentId _ row mem row' mem' differ meet
    obtain ⟨listed, on⟩ := List.mem_filter.mp mem
    obtain ⟨listed', on'⟩ := List.mem_filter.mp mem'
    refine exclusive _ (List.mem_map_of_mem listed) _ (List.mem_map_of_mem listed') ⟨?_, differ, meet⟩
    exact (of_decide_eq_true on).trans (of_decide_eq_true on').symm

/-! ## What the writes keep -/

/-- The later row is the earlier one, its gaps filled or not. -/
structure Follows (row row' : Sequenced EnvBinding) : Prop where
  runnerId : row'.runnerId = row.runnerId
  seq : row'.seq = row.seq
  chunkId : row'.values.chunkId = row.values.chunkId
  environmentId : row'.values.environmentId = row.values.environmentId
  workspaceId : row.values.workspaceId = none ∨ row'.values.workspaceId = row.values.workspaceId

theorem Follows.refl (row : Sequenced EnvBinding) : Follows row row := ⟨rfl, rfl, rfl, rfl, .inr rfl⟩

theorem Follows.trans {a b c : Sequenced EnvBinding} (first : Follows a b) (second : Follows b c) :
    Follows a c where
  runnerId := second.runnerId.trans first.runnerId
  seq := second.seq.trans first.seq
  chunkId := second.chunkId.trans first.chunkId
  environmentId := second.environmentId.trans first.environmentId
  workspaceId := by
    rcases first.workspaceId with open_ | same
    · exact .inl open_
    · rcases second.workspaceId with open_ | same'
      · exact .inl (same.symm.trans open_)
      · exact .inr (same'.trans same)

/-- No row is held that was not: rows are released and their gaps filled. -/
def Eases (store store' : HostStore) : Prop :=
  ∀ row' ∈ keptBindings store', ∃ row ∈ keptBindings store, Follows row row'

theorem Eases.refl (store : HostStore) : Eases store store := fun row mem => ⟨row, mem, .refl row⟩

theorem Eases.trans {a b c : HostStore} (first : Eases a b) (second : Eases b c) : Eases a c := by
  intro row mem
  obtain ⟨row', mem', follows'⟩ := second row mem
  obtain ⟨row'', mem'', follows''⟩ := first row' mem'
  exact ⟨row'', mem'', follows''.trans follows'⟩

theorem Eases.exclusive {store store' : HostStore} (eases : Eases store store')
    (exclusive : Exclusive (holds store)) : Exclusive (holds store') := by
  refine exclusive.settle ?_
  intro b mem
  obtain ⟨row', kept', rfl⟩ := mem_holds.mp mem
  obtain ⟨row, kept, follows⟩ := eases row' kept'
  exact ⟨hold row, mem_holds.mpr ⟨row, kept, rfl⟩, follows.environmentId, follows.chunkId,
    follows.workspaceId⟩

/-- A pool holds nothing it did not hold. -/
theorem Eases.pool {store store' : HostStore} (eases : Eases store store') {workspaceId : String}
    {binding' : EnvBinding} (mem : binding' ∈ heldWorkspaceBindings store' workspaceId) :
    ∃ binding ∈ heldWorkspaceBindings store workspaceId,
      binding.environmentId = binding'.environmentId ∧ binding.chunkId = binding'.chunkId := by
  obtain ⟨row', kept', rfl, place'⟩ := mem_heldWorkspaceBindings.mp mem
  obtain ⟨row, kept, follows⟩ := eases row' kept'
  refine ⟨row.values, mem_heldWorkspaceBindings.mpr ⟨row, kept, rfl, ?_⟩,
    follows.environmentId.symm, follows.chunkId.symm⟩
  rcases follows.workspaceId with open_ | same
  · exact .inr open_
  · exact same ▸ place'

/-- A row a release was appended after stays released. -/
theorem heldBinding_mono {store store' : HostStore} {runnerId : RunnerId} {row : Sequenced EnvBinding}
    (releases : ∀ release ∈ store.bindingReleases, release ∈ store'.bindingReleases)
    (held : heldBinding store' runnerId row = true) : heldBinding store runnerId row = true := by
  rw [heldBinding, Bool.not_eq_true', List.any_eq_false] at held ⊢
  exact fun release mem => held release (releases release mem)

theorem eases_recordRelease (store : HostStore) (runnerId : RunnerId) (release : BindingRelease) :
    Eases store (recordRelease store runnerId release) := by
  intro row mem
  obtain ⟨listed, held⟩ := mem_keptBindings.mp mem
  exact ⟨row, mem_keptBindings.mpr ⟨listed,
    heldBinding_mono (fun _ => List.mem_append_left _) held⟩, .refl row⟩

theorem follows_filled (completion : BindingCompletion) (row : Sequenced EnvBinding) :
    Follows row (filled completion row) where
  runnerId := rfl
  seq := rfl
  chunkId := rfl
  environmentId := rfl
  workspaceId := by
    cases known : row.values.workspaceId with
    | none => exact .inl rfl
    | some w => exact .inr (by simp [filled, known])

theorem Follows.held {store : HostStore} {row row' : Sequenced EnvBinding} (follows : Follows row row') :
    heldBinding store row'.runnerId row' = heldBinding store row.runnerId row := by
  rw [heldBinding, heldBinding, follows.runnerId, follows.chunkId, follows.environmentId, follows.seq]

theorem eases_completeBinding (runnerId : RunnerId) (store : HostStore)
    (completion : BindingCompletion) : Eases store (completeBinding runnerId store completion) := by
  intro row' mem
  obtain ⟨listed, held⟩ := mem_keptBindings.mp mem
  obtain ⟨row, listed', rfl⟩ := List.mem_map.mp listed
  have follows : Follows row (if row.runnerId = runnerId ∧ row.seq = completion.bindingId then
      filled completion row else row) := by
    split
    · exact follows_filled completion row
    · exact .refl row
  exact ⟨row, mem_keptBindings.mpr ⟨listed', follows.held.symm.trans held⟩, follows⟩

theorem eases_completeBindings (store : HostStore) (runnerId : RunnerId)
    (completions : List BindingCompletion) :
    Eases store (completeBindings store runnerId completions) := by
  induction completions generalizing store with
  | nil => exact .refl store
  | cons completion completions ih =>
    exact (eases_completeBinding runnerId store completion).trans (ih _)

/-- A binding adds its own row to what is held. -/
theorem mem_kept_recordBinding {store : HostStore} {runnerId : RunnerId} {binding : EnvBinding}
    {row : Sequenced EnvBinding} (mem : row ∈ keptBindings (recordBinding store runnerId binding)) :
    row ∈ keptBindings store ∨ row = store.factRow runnerId binding := by
  obtain ⟨listed, held⟩ := mem_keptBindings.mp mem
  rcases List.mem_append.mp listed with old | new
  · exact .inl (mem_keptBindings.mpr ⟨old, held⟩)
  · exact .inr (List.mem_singleton.mp new)

/-- A binding no other chunk stands against keeps the host's holds exclusive. -/
theorem exclusive_recordBinding {store : HostStore} {runnerId : RunnerId} {binding : EnvBinding}
    {workspaceId : String} (exclusive : Exclusive (holds store))
    (named : binding.workspaceId = some workspaceId)
    (free : ∀ other ∈ heldWorkspaceBindings store workspaceId,
      other.environmentId = binding.environmentId → other.chunkId = binding.chunkId) :
    Exclusive (holds (recordBinding store runnerId binding)) := by
  have admitted : Exclusive (holds store ++ [hold (store.factRow runnerId binding)]) := by
    refine exclusive.admit ?_
    rintro b mem ⟨same, differ, meet⟩
    obtain ⟨row, kept, rfl⟩ := mem_holds.mp mem
    refine differ (free row.values (mem_heldWorkspaceBindings.mpr ⟨row, kept, rfl, ?_⟩) same)
    have place : (hold (store.factRow runnerId binding)).place = some workspaceId := named
    rw [place] at meet
    rcases meet with open_ | never | here
    · exact .inr open_
    · cases never
    · exact .inl here
  refine admitted.subset ?_
  intro b mem
  obtain ⟨row, kept, rfl⟩ := mem_holds.mp mem
  rcases mem_kept_recordBinding kept with old | rfl
  · exact List.mem_append_left _ (mem_holds.mpr ⟨row, old, rfl⟩)
  · exact List.mem_append_right _ (List.mem_singleton.mpr rfl)

end Blizzard.EnvironmentBindings
