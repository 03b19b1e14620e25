import Blizzard.EnvironmentHosts

/-! # What a host's claims keep

While a claim holds its pool's lock the pool can only shrink, so what it read of the pool stays
true of it: the provider's steps are on environments no one holds, and a binding or a hand-back is
of an environment no other chunk holds. -/
namespace Blizzard.EnvironmentSafety
open HubTables FactSequence DictionaryRows ExclusiveHolds EnvironmentBindings EnvironmentProviders
open EnvironmentCapacity EnvironmentHosts

/-! ## The rules' answers -/

theorem mem_holdersOtherThan {chunkId : ChunkId} {held : List EnvBinding} {binding : EnvBinding}
    (mem : binding ∈ held) (other : binding.chunkId ≠ chunkId) :
    binding.environmentId ∈ (holdersOtherThan chunkId held).map (·.1) := by
  rw [holdersOtherThan, List.map_map, List.mem_map]
  exact ⟨binding, List.mem_filter.mpr ⟨mem, decide_eq_true other⟩, rfl⟩

/-- No other chunk is named the environment's holder only where none holds it. -/
theorem own_of_get_none {chunkId : ChunkId} {held : List EnvBinding} {environmentId : String}
    (none_ : get (holdersOtherThan chunkId held) environmentId = none) {binding : EnvBinding}
    (mem : binding ∈ held) (on : binding.environmentId = environmentId) :
    binding.chunkId = chunkId := by
  by_contra other
  exact get_eq_none.mp none_ (on ▸ mem_holdersOtherThan mem other)

theorem requireUnheld_own {chunkId : ChunkId} {environmentIds : List String} {held : List EnvBinding}
    (ok : requireUnheld chunkId environmentIds held = .ok ()) {environmentId : String}
    (asked : environmentId ∈ environmentIds) {binding : EnvBinding} (mem : binding ∈ held)
    (on : binding.environmentId = environmentId) : binding.chunkId = chunkId := by
  have each := ExceptRules.forM_ok ok environmentId asked
  refine own_of_get_none ?_ mem on
  cases found : get (holdersOtherThan chunkId held) environmentId with
  | none => rfl
  | some holder =>
    rw [found] at each
    cases each

theorem releasable_own {chunkId : ChunkId} {environmentIds : List String} {held : List EnvBinding}
    {environmentId : String} (given : environmentId ∈ releasableAfterRefusal chunkId environmentIds held)
    {binding : EnvBinding} (mem : binding ∈ held) (on : binding.environmentId = environmentId) :
    binding.chunkId = chunkId :=
  own_of_get_none (Option.isNone_iff_eq_none.mp (List.mem_filter.mp given).2) mem on

/-! ## One claim -/

/-- The environments a phase's steps may reset or remove. -/
def touched : Phase → List String
  | .preparing acts todo => (acts ++ todo).map PoolAct.environmentId
  | .cleaning todo => todo
  | _ => []

/-- The environments a phase goes on to bind or hand back under the lock. -/
def guarded : Phase → List String
  | .binding _ _ rest => rest.map (·.environmentId)
  | .retracting true envs => envs.map (·.environmentId)
  | .returning true _ _ rest => rest.map (·.environmentId)
  | .handing true _ _ env rest => env.environmentId :: rest.map (·.environmentId)
  | _ => []

def seen : Phase → Option (List String)
  | .read heldIds => some heldIds
  | _ => none

/-- What a claim for a chunk knows of its pool. -/
structure Knows (pool : List EnvBinding) (chunkId : ChunkId) (phase : Phase) : Prop where
  free : ∀ name ∈ touched phase, ∀ binding ∈ pool, binding.environmentId ≠ name
  own : ∀ name ∈ guarded phase, ∀ binding ∈ pool, binding.environmentId = name →
    binding.chunkId = chunkId
  read : ∀ heldIds, seen phase = some heldIds → ∀ binding ∈ pool, binding.environmentId ∈ heldIds

variable {pool pool' : List EnvBinding} {chunkId : ChunkId} {phase : Phase}

/-- Each binding of the later pool was in the earlier one. -/
def Shrunk (pool pool' : List EnvBinding) : Prop :=
  ∀ binding' ∈ pool', ∃ binding ∈ pool, binding.environmentId = binding'.environmentId ∧
    binding.chunkId = binding'.chunkId

theorem Knows.shrunk (knows : Knows pool chunkId phase) (shrunk : Shrunk pool pool') :
    Knows pool' chunkId phase where
  free name mem binding' mem' := by
    obtain ⟨binding, listed, on, -⟩ := shrunk binding' mem'
    exact on ▸ knows.free name mem binding listed
  own name mem binding' mem' on' := by
    obtain ⟨binding, listed, on, holder⟩ := shrunk binding' mem'
    exact holder ▸ knows.own name mem binding listed (on.trans on')
  read heldIds at_ binding' mem' := by
    obtain ⟨binding, listed, on, -⟩ := shrunk binding' mem'
    exact on ▸ knows.read heldIds at_ binding listed

/-- A phase outside the lock knows nothing. -/
theorem knows_unlocked (unlocked : phase.locks = false) : Knows pool chunkId phase := by
  cases phase with
  | claiming envs => exact ⟨by simp [touched], by simp [guarded], by simp [seen]⟩
  | retracting inside envs =>
    cases inside with
    | true => cases unlocked
    | false => exact ⟨by simp [touched], by simp [guarded], by simp [seen]⟩
  | returning inside envs released rest =>
    cases inside with
    | true => cases unlocked
    | false => exact ⟨by simp [touched], by simp [guarded], by simp [seen]⟩
  | handing inside envs released env rest =>
    cases inside with
    | true => cases unlocked
    | false => exact ⟨by simp [touched], by simp [guarded], by simp [seen]⟩
  | _ => cases unlocked

theorem knows_quiet (touches : touched phase = []) (guards : guarded phase = [])
    (sees : seen phase = none) : Knows pool chunkId phase where
  free name mem := by simp [touches] at mem
  own name mem := by simp [guards] at mem
  read heldIds at_ := by simp [sees] at at_

/-! ## One host -/

/-- What every state of a host keeps. -/
structure Sound (host : Host) : Prop where
  idle : host.running = false → ∀ runnerId, host.passes runnerId = none
  locked : ∀ runnerId pass, host.passes runnerId = some pass → pass.phase.locks = true →
    host.locks pass.workspaceId = some runnerId
  knows : ∀ runnerId pass, host.passes runnerId = some pass →
    Knows (heldWorkspaceBindings host.store pass.workspaceId) pass.entry.chunkId pass.phase
  named : ∀ workspaceId, Named (host.directories workspaceId)

variable {host : Host} {runnerId : RunnerId} {pass : Pass}

theorem Sound.running (sound : Sound host) (at_ : host.passes runnerId = some pass) :
    host.running = true := by
  by_contra stopped
  rw [sound.idle (by simpa using stopped) runnerId] at at_
  cases at_

theorem Sound.not_stopped (sound : Sound host) (at_ : host.passes runnerId = some pass)
    (stopped : host.running = false) : False := by
  rw [sound.running at_] at stopped
  cases stopped

theorem shrunk_of_eases {store store' : HostStore} (eases : Eases store store') (workspaceId : String) :
    Shrunk (heldWorkspaceBindings store workspaceId) (heldWorkspaceBindings store' workspaceId) :=
  fun _ mem => eases.pool mem

/-- Rows released and gaps filled keep a host sound. -/
theorem Sound.eases (sound : Sound host) {store : HostStore} (eases : Eases host.store store) :
    Sound { host with store } where
  idle := sound.idle
  locked := sound.locked
  knows other pass at_ := (sound.knows other pass at_).shrunk (shrunk_of_eases eases _)
  named := sound.named

theorem Sound.setDirectory (sound : Sound host) {workspaceId : String} {directory : Directory}
    (named : Named directory) : Sound (host.setDirectory workspaceId directory) where
  idle := sound.idle
  locked := sound.locked
  knows := sound.knows
  named other := by
    by_cases same : other = workspaceId
    · subst same
      simpa [Host.setDirectory] using named
    · simpa [Host.setDirectory, same] using sound.named other

theorem Sound.locked_setPhase (sound : Sound host) (at_ : host.passes runnerId = some pass)
    {phase : Phase} (lock : phase.locks = true → pass.phase.locks = true) (other : RunnerId)
    (pass' : Pass) (at_' : (host.setPhase runnerId pass phase).passes other = some pass')
    (locks : pass'.phase.locks = true) : host.locks pass'.workspaceId = some other := by
  by_cases same : other = runnerId
  · subst same
    simp only [Host.setPhase, Function.update_self, Option.some.injEq] at at_'
    subst at_'
    exact sound.locked other pass at_ (lock locks)
  · simp only [Host.setPhase, Function.update_of_ne same] at at_'
    exact sound.locked other pass' at_' locks

/-- A claim goes on to a phase that keeps its lock and knows its pool. -/
theorem Sound.setPhase (sound : Sound host) (at_ : host.passes runnerId = some pass) {phase : Phase}
    (lock : phase.locks = true → pass.phase.locks = true)
    (knows : Knows (heldWorkspaceBindings host.store pass.workspaceId) pass.entry.chunkId phase) :
    Sound (host.setPhase runnerId pass phase) where
  idle stopped := (sound.not_stopped at_ stopped).elim
  locked := sound.locked_setPhase at_ lock
  knows other pass' at_' := by
    by_cases same : other = runnerId
    · subst same
      simp only [Host.setPhase, Function.update_self, Option.some.injEq] at at_'
      subst at_'
      exact knows
    · simp only [Host.setPhase, Function.update_of_ne same] at at_'
      exact sound.knows other pass' at_'
  named := sound.named

/-- Two claims under the lock of one pool are one claim. -/
theorem Sound.apart (sound : Sound host) {other : RunnerId} {pass' : Pass}
    (at_ : host.passes runnerId = some pass) (at_' : host.passes other = some pass')
    (locks : pass.phase.locks = true) (locks' : pass'.phase.locks = true)
    (same : pass'.workspaceId = pass.workspaceId) : other = runnerId := by
  have first := sound.locked runnerId pass at_ locks
  have second := sound.locked other pass' at_' locks'
  rw [same, first] at second
  exact (Option.some.inj second).symm

/-- A claim that ends, or gives its lock back. -/
theorem Sound.unlock (sound : Sound host) (at_ : host.passes runnerId = some pass)
    {next : Option Pass} (quiet : ∀ pass', next = some pass' → pass'.phase.locks = false)
    {locks : String → Option RunnerId}
    (given : locks = host.locks ∨
      pass.phase.locks = true ∧ locks = Function.update host.locks pass.workspaceId none) :
    Sound { host with passes := Function.update host.passes runnerId next, locks } where
  idle stopped := (sound.not_stopped at_ stopped).elim
  locked other pass' at_' locked := by
    by_cases same : other = runnerId
    · subst same
      simp only [Function.update_self] at at_'
      rw [quiet pass' at_'] at locked
      cases locked
    · simp only [Function.update_of_ne same] at at_'
      have held := sound.locked other pass' at_' locked
      rcases given with rfl | ⟨own, rfl⟩
      · exact held
      · have elsewhere : pass'.workspaceId ≠ pass.workspaceId :=
          fun here => same (sound.apart at_ at_' own locked here)
        simpa [Function.update_of_ne elsewhere] using held
  knows other pass' at_' := by
    by_cases same : other = runnerId
    · subst same
      simp only [Function.update_self] at at_'
      exact knows_unlocked (quiet pass' at_')
    · simp only [Function.update_of_ne same] at at_'
      exact sound.knows other pass' at_'
  named := sound.named

theorem Sound.leave (sound : Sound host) (at_ : host.passes runnerId = some pass) :
    Sound (host.leave runnerId pass) := by
  refine sound.unlock at_ (by simp) ?_
  by_cases locks : pass.phase.locks = true
  · exact .inr ⟨locks, if_pos locks⟩
  · exact .inl (if_neg locks)

/-- A binding under its pool's lock. -/
theorem Sound.bind (sound : Sound host) (at_ : host.passes runnerId = some pass)
    (locks : pass.phase.locks = true) {binding : EnvBinding}
    (place : binding.workspaceId = some pass.workspaceId) {phase : Phase}
    (knows : Knows (heldWorkspaceBindings (recordBinding host.store runnerId binding) pass.workspaceId)
      pass.entry.chunkId phase) :
    Sound { host.setPhase runnerId pass phase with
      store := recordBinding host.store runnerId binding } where
  idle stopped := (sound.not_stopped at_ stopped).elim
  locked := sound.locked_setPhase at_ fun _ => locks
  knows other pass' at_' := by
    by_cases same : other = runnerId
    · subst same
      simp only [Host.setPhase, Function.update_self, Option.some.injEq] at at_'
      subst at_'
      exact knows
    · simp only [Host.setPhase, Function.update_of_ne same] at at_'
      by_cases locked : pass'.phase.locks = true
      · have elsewhere : pass'.workspaceId ≠ pass.workspaceId :=
          fun here => same (sound.apart at_ at_' locks locked here)
        refine (sound.knows other pass' at_').shrunk ?_
        intro binding' mem
        obtain ⟨row, kept, rfl, where_⟩ := mem_heldWorkspaceBindings.mp mem
        rcases mem_kept_recordBinding kept with old | rfl
        · exact ⟨row.values, mem_heldWorkspaceBindings.mpr ⟨row, old, rfl, where_⟩, rfl, rfl⟩
        · rcases where_ with here | open_
          · exact absurd (Option.some.inj (here.symm.trans place)) elsewhere
          · have impossible := open_.symm.trans place
            cases impossible
      · exact knows_unlocked (by simpa using locked)
  named := sound.named

/-! ## One step of a claim -/

/-- A step keeps the host sound, and its holds exclusive where they were. -/
structure Kept (host host' : Host) : Prop where
  sound : Sound host'
  exclusive : Exclusive (holds host.store) → Exclusive (holds host'.store)

/-- A step that leaves the store as it is. -/
theorem Sound.kept {host' : Host} (sound : Sound host') (same : host'.store = host.store) :
    Kept host host' := ⟨sound, fun exclusive => same ▸ exclusive⟩

theorem Sound.keptEases {store : HostStore} {host' : Host} (sound : Sound host')
    (eases : Eases host.store store) (same : host'.store = store) : Kept host host' :=
  ⟨sound, fun exclusive => same ▸ eases.exclusive exclusive⟩

theorem named_applied (provider : Provider) (chunkId : ChunkId) {directory : Directory} (act : PoolAct)
    (failed : Option Remains) (named : Named directory) :
    Named (Host.applied provider chunkId directory act failed) := by
  have gone : Named (directory.removed act.environmentId) := named.removed _
  cases provider with
  | winter pool => exact named
  | basic hasRepos maxEnvironments =>
    cases failed with
    | none => exact named.apply act
    | some remains =>
      cases remains with
      | untouched => exact named
      | gone => exact gone
      | unmarked => exact gone
      | marked =>
        cases act with
        | evict name => exact named
        | prepare name => exact named.prepared name

theorem mem_preparedNames {acts : List PoolAct} {name : String} (mem : name ∈ preparedNames acts) :
    name ∈ acts.map PoolAct.environmentId := by
  obtain ⟨act, listed, made⟩ := List.mem_filterMap.mp mem
  cases act with
  | evict other => cases made
  | prepare other =>
    cases made
    exact List.mem_map_of_mem (f := PoolAct.environmentId) listed

variable {input : Input}

/-- A phase that knows of the pool no more than the one before it. -/
theorem Sound.narrow (sound : Sound host) (at_ : host.passes runnerId = some pass) {phase : Phase}
    (lock : phase.locks = true → pass.phase.locks = true)
    (touches : ∀ name ∈ touched phase, name ∈ touched pass.phase)
    (guards : ∀ name ∈ guarded phase, name ∈ guarded pass.phase) (sees : seen phase = none) :
    Sound (host.setPhase runnerId pass phase) := by
  have knows := sound.knows runnerId pass at_
  refine sound.setPhase at_ lock ⟨?_, ?_, ?_⟩
  · exact fun name mem => knows.free name (touches name mem)
  · exact fun name mem => knows.own name (guards name mem)
  · intro heldIds at_'
    rw [sees] at at_'
    cases at_'

theorem kept_read (sound : Sound host) (at_ : host.passes runnerId = some pass)
    {heldIds : List String} (phase : pass.phase = .read heldIds) :
    Kept host (host.advance runnerId pass input) := by
  rw [Host.advance]
  simp only [phase]
  split
  · exact (sound.leave at_).kept rfl
  · split
    · exact (sound.leave at_).kept rfl
    · rename_i acts answered
      split
      · refine (sound.setPhase at_ (fun _ => by rw [phase]; rfl) ⟨?_, by simp [guarded], by simp [seen]⟩).kept rfl
        intro name mem binding held on
        obtain ⟨act, listed, rfl⟩ := List.mem_map.mp mem
        have listed : act ∈ acts := by simpa using listed
        have known := (sound.knows runnerId pass at_).read heldIds (by rw [phase]; rfl) binding held
        exact (acquire_planned (sound.named _) answered).avoids act listed (on ▸ known)
      · exact (sound.leave at_).kept rfl

theorem kept_preparing (sound : Sound host) (at_ : host.passes runnerId = some pass)
    {acts todo : List PoolAct} (phase : pass.phase = .preparing acts todo) :
    Kept host (host.advance runnerId pass input) := by
  have locks : pass.phase.locks = true := by rw [phase]; rfl
  cases todo with
  | nil =>
    rw [Host.advance]
    simp only [phase]
    split
    · exact (sound.leave at_).kept rfl
    · refine (sound.narrow at_ (fun _ => locks) ?_ ?_ rfl).kept rfl
      · simp [touched]
      · simp [guarded]
  | cons act todo =>
    rw [Host.advance]
    simp only [phase]
    split
    · exact (sound.leave at_).kept rfl
    · rename_i workspace _
      have stepped : Sound (host.setDirectory pass.workspaceId _) := sound.setDirectory
        (named_applied workspace.provider pass.entry.chunkId act input.failed
          (sound.named pass.workspaceId))
      have fewer : ∀ name ∈ touched (.preparing acts todo), name ∈ touched pass.phase := by
        rw [phase]
        refine fun name mem => List.map_subset _ ?_ mem
        exact List.append_subset.mpr ⟨List.subset_append_left _ _,
          List.Subset.trans (List.subset_cons_self act todo) (List.subset_append_right _ _)⟩
      split
      · exact (stepped.narrow at_ (fun _ => locks) fewer (by simp [guarded]) rfl).kept rfl
      · exact (stepped.leave at_).kept rfl
      · refine (stepped.narrow at_ (fun _ => locks) ?_ (by simp [guarded]) rfl).kept rfl
        rw [phase]
        intro name mem
        rw [touched, List.map_append]
        exact List.mem_append_left _ (mem_preparedNames mem)

theorem kept_cleaning (sound : Sound host) (at_ : host.passes runnerId = some pass)
    {todo : List String} (phase : pass.phase = .cleaning todo) :
    Kept host (host.advance runnerId pass input) := by
  have locks : pass.phase.locks = true := by rw [phase]; rfl
  cases todo with
  | nil =>
    rw [Host.advance]
    simp only [phase]
    exact (sound.leave at_).kept rfl
  | cons name todo =>
    rw [Host.advance]
    simp only [phase]
    have fewer : ∀ other ∈ touched (.cleaning todo), other ∈ touched pass.phase := by
      rw [phase]
      exact fun other mem => List.mem_cons_of_mem _ mem
    split
    · refine (Sound.narrow (sound.setDirectory ?_) at_ (fun _ => locks) fewer ?_ rfl).kept rfl
      · split
        · exact (sound.named _).removed name
        · rename_i remains _
          exact named_applied (.basic true 0) pass.entry.chunkId (.evict name) (some remains)
            (sound.named _)
      · simp [guarded]
    · exact (sound.narrow at_ (fun _ => locks) fewer (by simp [guarded]) rfl).kept rfl

theorem kept_acquired (sound : Sound host) (at_ : host.passes runnerId = some pass)
    {envs : List AcquiredEnvironment} (phase : pass.phase = .acquired envs) :
    Kept host (host.advance runnerId pass input) := by
  have locks : pass.phase.locks = true := by rw [phase]; rfl
  rw [Host.advance]
  simp only [phase]
  split
  · exact (sound.narrow at_ (fun _ => locks) (by simp [touched]) (by simp [guarded]) rfl).kept rfl
  · rename_i unheld
    refine (sound.setPhase at_ (fun _ => locks) ⟨by simp [touched], ?_, by simp [seen]⟩).kept rfl
    exact fun name mem binding held on => requireUnheld_own unheld mem held on

/-- A recorded binding keeps what its claim may still bind. -/
theorem kept_binding (sound : Sound host) (at_ : host.passes runnerId = some pass) {now : Instant}
    {envs rest : List AcquiredEnvironment} (phase : pass.phase = .binding now envs rest) :
    Kept host (host.advance runnerId pass input) := by
  have locks : pass.phase.locks = true := by rw [phase]; rfl
  have knows := sound.knows runnerId pass at_
  rw [phase] at knows
  cases rest with
  | nil =>
    rw [Host.advance]
    simp only [phase]
    have given : Sound { host with
        passes := Function.update host.passes runnerId (some { pass with phase := .claiming envs })
        locks := Function.update host.locks pass.workspaceId none } := by
      refine sound.unlock at_ ?_ (.inr ⟨locks, rfl⟩)
      intro pass' same
      rw [← Option.some.inj same]
      rfl
    exact given.kept rfl
  | cons env rest =>
    rw [Host.advance]
    simp only [phase]
    refine ⟨sound.bind at_ locks rfl ⟨by simp [touched], ?_, by simp [seen]⟩, ?_⟩
    · intro name mem binding held on
      obtain ⟨row, kept, rfl, where_⟩ := mem_heldWorkspaceBindings.mp held
      rcases mem_kept_recordBinding kept with old | rfl
      · refine knows.own name (List.mem_cons_of_mem _ mem) row.values ?_ on
        exact mem_heldWorkspaceBindings.mpr ⟨row, old, rfl, where_⟩
      · rfl
    · intro exclusive
      refine exclusive_recordBinding exclusive rfl ?_
      exact fun other held on => knows.own _ List.mem_cons_self other held on

theorem kept_refused (sound : Sound host) (at_ : host.passes runnerId = some pass)
    {envs : List AcquiredEnvironment} (phase : pass.phase = .refused envs) :
    Kept host (host.advance runnerId pass input) := by
  rw [Host.advance]
  simp only [phase]
  refine (sound.setPhase at_ (fun _ => by rw [phase]; rfl) ⟨by simp [touched], ?_, by simp [seen]⟩).kept rfl
  intro name mem binding held on
  obtain ⟨env, listed, rfl⟩ := List.mem_map.mp mem
  exact releasable_own (of_decide_eq_true (List.mem_filter.mp listed).2) held on

theorem kept_claiming (sound : Sound host) (at_ : host.passes runnerId = some pass)
    {envs : List AcquiredEnvironment} (phase : pass.phase = .claiming envs) :
    Kept host (host.advance runnerId pass input) := by
  rw [Host.advance]
  simp only [phase]
  split
  · exact (sound.leave at_).kept rfl
  · split
    · refine (sound.setPhase at_ ?_ (knows_unlocked rfl)).kept rfl
      intro locks
      cases locks
    · exact (sound.leave at_).kept rfl

theorem kept_retracting (sound : Sound host) (at_ : host.passes runnerId = some pass) {inside : Bool}
    {envs : List AcquiredEnvironment} (phase : pass.phase = .retracting inside envs) :
    Kept host (host.advance runnerId pass input) := by
  rw [Host.advance]
  simp only [phase]
  refine (sound.narrow at_ ?_ (by simp [touched]) ?_ rfl).kept rfl
  · rw [phase]
    exact fun locks => locks
  · rw [phase]
    cases inside with
    | true => exact fun name mem => mem
    | false => simp [guarded]

theorem kept_returning (sound : Sound host) (at_ : host.passes runnerId = some pass) {inside : Bool}
    {envs rest : List AcquiredEnvironment} {released : List (String × Instant)}
    (phase : pass.phase = .returning inside envs released rest) :
    Kept host (host.advance runnerId pass input) := by
  cases rest with
  | nil =>
    rw [Host.advance]
    simp only [phase]
    exact (sound.leave at_).kept rfl
  | cons env rest =>
    rw [Host.advance]
    simp only [phase]
    have on : Sound (host.setPhase runnerId pass (.handing inside envs released env rest)) := by
      refine sound.narrow at_ ?_ (by simp [touched]) ?_ rfl
      · rw [phase]
        exact fun locks => locks
      · rw [phase]
        cases inside with
        | true => exact fun name mem => mem
        | false => simp [guarded]
    split
    · exact (on.eases (.refl _)).kept rfl
    · exact (on.eases (eases_recordRelease _ _ _)).keptEases (eases_recordRelease _ _ _) rfl

theorem kept_handing (sound : Sound host) (at_ : host.passes runnerId = some pass) {inside : Bool}
    {envs rest : List AcquiredEnvironment} {released : List (String × Instant)}
    {env : AcquiredEnvironment} (phase : pass.phase = .handing inside envs released env rest) :
    Kept host (host.advance runnerId pass input) := by
  rw [Host.advance]
  simp only [phase]
  refine (sound.narrow at_ ?_ (by simp [touched]) ?_ rfl).kept rfl
  · rw [phase]
    exact fun locks => locks
  · rw [phase]
    cases inside with
    | true => exact fun name mem => List.mem_cons_of_mem _ mem
    | false => simp [guarded]

theorem kept_locked (sound : Sound host) (at_ : host.passes runnerId = some pass)
    (phase : pass.phase = .locked) : Kept host (host.advance runnerId pass input) := by
  rw [Host.advance]
  simp only [phase]
  refine (sound.setPhase at_ (fun _ => by rw [phase]; rfl) ⟨by simp [touched], by simp [guarded], ?_⟩).kept rfl
  intro heldIds read binding held
  rw [← Option.some.inj read, List.mem_eraseDups]
  exact List.mem_map_of_mem held

/-- A step of a claim keeps its host. -/
theorem kept_advance (sound : Sound host) (at_ : host.passes runnerId = some pass) :
    Kept host (host.advance runnerId pass input) := by
  cases phase : pass.phase with
  | locked => exact kept_locked sound at_ phase
  | read heldIds => exact kept_read sound at_ phase
  | preparing acts todo => exact kept_preparing sound at_ phase
  | cleaning todo => exact kept_cleaning sound at_ phase
  | acquired envs => exact kept_acquired sound at_ phase
  | binding now envs rest => exact kept_binding sound at_ phase
  | refused envs => exact kept_refused sound at_ phase
  | claiming envs => exact kept_claiming sound at_ phase
  | retracting inside envs => exact kept_retracting sound at_ phase
  | returning inside envs released rest => exact kept_returning sound at_ phase
  | handing inside envs released env rest => exact kept_handing sound at_ phase

/-! ## One event -/

theorem eases_removeRunnerRows (store : HostStore) (runnerId : RunnerId) :
    Eases store (removeRunnerRows store runnerId) := by
  intro row mem
  obtain ⟨listed, held⟩ := mem_keptBindings.mp mem
  obtain ⟨listed', apart⟩ := List.mem_filter.mp listed
  refine ⟨row, mem_keptBindings.mpr ⟨listed', ?_⟩, .refl row⟩
  rw [heldBinding, Bool.not_eq_true', List.any_eq_false] at held ⊢
  intro release mem' closes
  have own : release.runnerId = row.runnerId := by
    simp only [Bool.and_eq_true, decide_eq_true_eq] at closes
    exact closes.1.1.1
  refine held release (List.mem_filter.mpr ⟨mem', ?_⟩) closes
  rw [own]
  exact apart

theorem kept_tryLock (sound : Sound host) {entry : QueueEntry} {workspaceId : String} :
    Kept host (host.exec (.tryLock runnerId entry workspaceId)) := by
  rw [Host.exec]
  split
  · rename_i open_
    obtain ⟨running, idle, -, free⟩ := open_
    refine ⟨⟨?_, ?_, ?_, sound.named⟩, id⟩
    · intro stopped
      have off : host.running = false := stopped
      rw [running] at off
      cases off
    · intro other pass at_ locks
      by_cases same : other = runnerId
      · subst same
        simp only [Function.update_self, Option.some.injEq] at at_
        subst at_
        simp
      · simp only [Function.update_of_ne same] at at_
        have held := sound.locked other pass at_ locks
        have elsewhere : pass.workspaceId ≠ workspaceId := by
          intro here
          rw [here, Option.isNone_iff_eq_none.mp free] at held
          cases held
        simpa [Function.update_of_ne elsewhere] using held
    · intro other pass at_
      by_cases same : other = runnerId
      · subst same
        simp only [Function.update_self, Option.some.injEq] at at_
        subst at_
        exact knows_quiet rfl rfl rfl
      · simp only [Function.update_of_ne same] at at_
        exact sound.knows other pass at_
  · exact sound.kept rfl

/-- An event of a host keeps it. -/
theorem kept_exec (sound : Sound host) (event : HostEvent) : Kept host (host.exec event) := by
  cases event with
  | start =>
    exact Sound.kept ⟨fun stopped => (by cases stopped), sound.locked, sound.knows, sound.named⟩ rfl
  | tryLock runnerId entry workspaceId => exact kept_tryLock sound
  | advance runnerId input =>
    rw [Host.exec]
    split
    · rename_i at_
      exact kept_advance sound at_
    · exact sound.kept rfl
  | raise runnerId =>
    rw [Host.exec]
    split
    · rename_i at_
      exact (sound.leave at_).kept rfl
    · exact sound.kept rfl
  | readTenure runnerId chunkId now =>
    rw [Host.exec]
    split
    · exact Sound.kept ⟨sound.idle, sound.locked, sound.knows, sound.named⟩ rfl
    · exact sound.kept rfl
  | release job =>
    rw [Host.exec]
    split
    · have eases := eases_recordRelease host.store
      exact Sound.keptEases ⟨sound.idle, sound.locked, (sound.eases (eases _ _)).knows, sound.named⟩
        (eases _ _) rfl
    · exact sound.kept rfl
  | readIncomplete runnerId project =>
    rw [Host.exec]
    split
    · exact Sound.kept ⟨sound.idle, sound.locked, sound.knows, sound.named⟩ rfl
    · exact sound.kept rfl
  | complete job =>
    rw [Host.exec]
    split
    · have eases := eases_completeBindings host.store
      exact Sound.keptEases ⟨sound.idle, sound.locked, (sound.eases (eases _ _)).knows, sound.named⟩
        (eases _ _) rfl
    · exact sound.kept rfl
  | crash =>
    exact Sound.kept ⟨fun _ _ => rfl, by rintro _ _ ⟨⟩, by rintro _ _ ⟨⟩, sound.named⟩ rfl
  | removeRunner runnerId =>
    rw [Host.exec]
    split
    · exact sound.kept rfl
    · exact (sound.eases (eases_removeRunnerRows _ _)).keptEases (eases_removeRunnerRows _ _) rfl

/-! ## An ingest -/

theorem heldBinding_congr {store store' : HostStore} {row : Sequenced EnvBinding}
    (same : ∀ release, release.runnerId = row.runnerId →
      (release ∈ store'.bindingReleases ↔ release ∈ store.bindingReleases)) :
    heldBinding store' row.runnerId row = heldBinding store row.runnerId row := by
  have one : ∀ {a b : HostStore}, (∀ release, release.runnerId = row.runnerId →
      release ∈ b.bindingReleases → release ∈ a.bindingReleases) →
      heldBinding a row.runnerId row = true → heldBinding b row.runnerId row = true := by
    intro a b sub held
    rw [heldBinding, Bool.not_eq_true', List.any_eq_false] at held ⊢
    intro release mem closes
    have own : release.runnerId = row.runnerId := by
      simp only [Bool.and_eq_true, decide_eq_true_eq] at closes
      exact closes.1.1.1
    exact held release (sub release own mem) closes
  rw [Bool.eq_iff_iff]
  exact ⟨one fun release own mem => (same release own).mpr mem,
    one fun release own mem => (same release own).mp mem⟩

theorem moved_held {store : HostStore} {rename : Option (String × String)} {row : Sequenced EnvBinding} :
    heldBinding store (moved rename row).runnerId (moved rename row) =
      heldBinding store row.runnerId row := rfl

variable {source here : HostStore} {rename : Option (String × String)}

/-- What an ingest leaves held: what was held here, and what the runner held at the source. -/
theorem mem_kept_copyRunner (gone : absent here runnerId = true) {row : Sequenced EnvBinding} :
    row ∈ keptBindings (copyRunner source here runnerId rename) ↔
      row ∈ keptBindings here ∨ ∃ old ∈ heldOf source runnerId, moved rename old = row := by
  rw [absent, Bool.and_eq_true, List.all_eq_true, List.all_eq_true] at gone
  obtain ⟨bindings, releases⟩ := gone
  have others : ∀ row ∈ here.envBindings,
      heldBinding (copyRunner source here runnerId rename) row.runnerId row =
        heldBinding here row.runnerId row := by
    intro row listed
    have apart := of_decide_eq_true (bindings row listed)
    refine heldBinding_congr ?_
    intro release own
    rw [copyRunner, List.mem_append, List.mem_filter, decide_eq_true_eq]
    constructor
    · rintro (mem | ⟨-, same⟩)
      · exact mem
      · exact absurd (own.symm.trans same) apart
    · exact .inl
  have mine : ∀ row : Sequenced EnvBinding, row.runnerId = runnerId →
      heldBinding (copyRunner source here runnerId rename) row.runnerId row =
        heldBinding source row.runnerId row := by
    intro row own
    refine heldBinding_congr ?_
    intro release same
    rw [copyRunner, List.mem_append, List.mem_filter, decide_eq_true_eq]
    constructor
    · rintro (mem | ⟨mem, -⟩)
      · exact absurd (same.trans own) (of_decide_eq_true (releases release mem))
      · exact mem
    · exact fun mem => .inr ⟨mem, same.trans own⟩
  rw [mem_keptBindings, mem_keptBindings]
  constructor
  · rintro ⟨listed, held⟩
    rcases List.mem_append.mp listed with old | new
    · exact .inl ⟨old, (others row old).symm.trans held⟩
    · obtain ⟨first, mem, rfl⟩ := List.mem_map.mp new
      obtain ⟨mem, own⟩ := List.mem_filter.mp mem
      have own := of_decide_eq_true own
      refine .inr ⟨first, List.mem_filter.mpr ⟨mem_keptBindings.mpr ⟨mem, ?_⟩, decide_eq_true own⟩, rfl⟩
      rw [← mine first own]
      exact held
  · rintro (⟨old, held⟩ | ⟨first, mem, rfl⟩)
    · exact ⟨List.mem_append_left _ old, (others row old).trans held⟩
    · obtain ⟨kept, own⟩ := List.mem_filter.mp mem
      obtain ⟨listed, held⟩ := mem_keptBindings.mp kept
      refine ⟨List.mem_append_right _ (List.mem_map.mpr ⟨first, ?_, rfl⟩), ?_⟩
      · exact List.mem_filter.mpr ⟨listed, own⟩
      · rw [moved_held]
        exact (mine first (of_decide_eq_true own)).trans held

theorem refuseBindingConflict_apart {moving : List EnvBinding} {ours : List (Sequenced EnvBinding)}
    (ok : (refuseBindingConflict moving ours rename).isOk = true) {binding : EnvBinding}
    (mem : binding ∈ moving) {held : Sequenced EnvBinding} (mem' : held ∈ ours)
    (same : held.values.environmentId = binding.environmentId)
    (differ : held.values.chunkId ≠ binding.chunkId) :
    ¬ MayMeet held.values.workspaceId (binding.workspaceId.map (renamedWorkspace rename)) := by
  have passed : refuseBindingConflict moving ours rename = .ok () := by
    cases answered : refuseBindingConflict moving ours rename with
    | error refusal =>
      rw [answered] at ok
      cases ok
    | ok _ => rfl
  have each := ExceptRules.forM_ok (ExceptRules.forM_ok passed binding mem) held mem'
  have met : ¬ (held.values.environmentId ≠ binding.environmentId ∨
      held.values.chunkId = binding.chunkId) := by
    rintro (other | own)
    · exact other same
    · exact differ own
  simp only [if_neg met] at each
  rintro (open_ | open_ | together)
  · rw [if_pos (.inr (.inl open_))] at each
    cases each
  · have unnamed : binding.workspaceId = none := Option.map_eq_none_iff.mp open_
    rw [if_pos (.inl (by rw [unnamed]; rfl))] at each
    cases each
  · cases read : binding.workspaceId.filter fun id => decide (id ≠ "") with
    | none =>
      rw [if_pos (.inl (by rw [read]; rfl))] at each
      cases each
    | some place =>
      have named : binding.workspaceId = some place := (Option.filter_eq_some_iff.mp read).1
      rw [if_pos (.inr (.inr (by rw [together, read, named])))] at each
      cases each

/-- No two of the runner's held rows, of different chunks on one environment, come to one workspace. -/
def KeepsApart (source : HostStore) (runnerId : RunnerId) (rename : Option (String × String)) : Prop :=
  ∀ a ∈ heldOf source runnerId, ∀ b ∈ heldOf source runnerId,
    a.values.environmentId = b.values.environmentId → a.values.chunkId ≠ b.values.chunkId →
    a.values.workspaceId.map (renamedWorkspace rename) ≠
      b.values.workspaceId.map (renamedWorkspace rename)

/-- Where the source's and the host's holds are exclusive, an ingest that passes its refusals keeps
them so just where its rename keeps the runner's own rows apart. -/
theorem exclusive_copyRunner (gone : absent here runnerId = true)
    (passed : (refuseBindingConflict ((heldOf source runnerId).map (·.values)) (keptBindings here)
      rename).isOk = true)
    (exclusive : Exclusive (holds source)) (exclusive' : Exclusive (holds here)) :
    Exclusive (holds (copyRunner source here runnerId rename)) ↔
      KeepsApart source runnerId rename := by
  have ownHolds : ∀ row ∈ heldOf source runnerId, hold row ∈ holds source := by
    intro row mem
    exact mem_holds.mpr ⟨row, (List.mem_filter.mp mem).1, rfl⟩
  constructor
  · intro after a mem b mem' same differ together
    have at_ : ∀ row ∈ heldOf source runnerId,
        hold (moved rename row) ∈ holds (copyRunner source here runnerId rename) := by
      intro row mem
      exact mem_holds.mpr ⟨_, (mem_kept_copyRunner gone).mpr (.inr ⟨row, mem, rfl⟩), rfl⟩
    exact after _ (at_ a mem) _ (at_ b mem') ⟨same, differ, .inr (.inr together)⟩
  · intro apart
    have joined : Exclusive (holds here ++
        (heldOf source runnerId).map fun row => hold (moved rename row)) := by
      refine exclusive'.join ?_ ?_
      · intro x mem y mem' clash
        obtain ⟨a, listed, rfl⟩ := List.mem_map.mp mem
        obtain ⟨b, listed', rfl⟩ := List.mem_map.mp mem'
        obtain ⟨same, differ, meet⟩ := clash
        have clear := exclusive _ (ownHolds a listed) _ (ownHolds b listed')
        rcases meet with open_ | open_ | together
        · exact clear ⟨same, differ, .inl (Option.map_eq_none_iff.mp open_)⟩
        · exact clear ⟨same, differ, .inr (.inl (Option.map_eq_none_iff.mp open_))⟩
        · exact apart a listed b listed' same differ together
      · intro x mem y mem' clash
        obtain ⟨row, kept, rfl⟩ := mem_holds.mp mem
        obtain ⟨old, listed, rfl⟩ := List.mem_map.mp mem'
        obtain ⟨same, differ, meet⟩ := clash
        exact refuseBindingConflict_apart passed (List.mem_map_of_mem listed) kept same differ meet
    refine joined.subset ?_
    intro x mem
    obtain ⟨row, kept, rfl⟩ := mem_holds.mp mem
    rcases (mem_kept_copyRunner gone).mp kept with old | ⟨first, listed, rfl⟩
    · exact List.mem_append_left _ (mem_holds.mpr ⟨row, old, rfl⟩)
    · exact List.mem_append_right _ (List.mem_map.mpr ⟨first, listed, rfl⟩)

end Blizzard.EnvironmentSafety
