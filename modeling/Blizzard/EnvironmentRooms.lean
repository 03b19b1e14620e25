import Blizzard.EnvironmentSafety

/-! # A basic workspace's cap over a host's runs

The folders of a basic workspace stay within its cap wherever an acquire is cut short, since every
stopping point of what it still plans is within the cap. -/
namespace Blizzard.EnvironmentRooms
open HubTables FactSequence EnvironmentBindings EnvironmentProviders EnvironmentCapacity
open EnvironmentHosts EnvironmentSafety

/-- Wherever the planned steps stop, a basic workspace's folders are within its cap. -/
def Roomy (workspace : Workspace) (chunkId : ChunkId) (directory : Directory) (todo : List PoolAct) :
    Prop :=
  ∀ hasRepos maxEnvironments, workspace.provider = .basic hasRepos maxEnvironments → ∀ n,
    ((todo.take n).foldl (PoolAct.apply chunkId) directory).environments.length ≤ maxEnvironments

/-- A basic workspace's folders are within its cap. -/
def Within (workspace : Workspace) (directory : Directory) : Prop :=
  ∀ hasRepos maxEnvironments, workspace.provider = .basic hasRepos maxEnvironments →
    directory.environments.length ≤ maxEnvironments

structure Capped (host : Host) : Prop where
  within : ∀ workspaceId workspace, host.workspace workspaceId = some workspace →
    Within workspace (host.directories workspaceId)
  planned : ∀ runnerId pass acts todo workspace, host.passes runnerId = some pass →
    pass.phase = .preparing acts todo → host.workspace pass.workspaceId = some workspace →
    Roomy workspace pass.entry.chunkId (host.directories pass.workspaceId) todo

variable {host host' : Host} {runnerId : RunnerId} {pass : Pass} {input : Input}
variable {workspace : Workspace} {chunkId : ChunkId} {directory : Directory} {act : PoolAct}
variable {todo : List PoolAct}

theorem Roomy.within (roomy : Roomy workspace chunkId directory todo) : Within workspace directory :=
  fun hasRepos maxEnvironments basic => by simpa using roomy hasRepos maxEnvironments basic 0

/-- What is planned after a step stops where the whole plan could. -/
theorem Roomy.next (roomy : Roomy workspace chunkId directory (act :: todo)) :
    Roomy workspace chunkId (act.apply chunkId directory) todo :=
  fun hasRepos maxEnvironments basic n => by
    simpa using roomy hasRepos maxEnvironments basic (n + 1)

theorem Within.removed (within : Within workspace directory) (name : String) :
    Within workspace (directory.removed name) :=
  fun hasRepos maxEnvironments basic =>
    (removed_length_le directory name).trans (within hasRepos maxEnvironments basic)

/-- A step that fails leaves no more folders than it found, or than it would have made. -/
theorem Roomy.failed (roomy : Roomy workspace chunkId directory (act :: todo)) (remains : Remains) :
    Within workspace (act.fail chunkId directory remains) := by
  have gone := roomy.within.removed act.environmentId
  cases remains with
  | untouched => exact roomy.within
  | gone => exact gone
  | unmarked => exact gone
  | marked =>
    cases act with
    | evict name => exact roomy.within
    | prepare name => exact roomy.next.within

/-- An evicting step takes no room. -/
theorem Within.evict (within : Within workspace directory) {name : String} (remains : Remains) :
    Within workspace (PoolAct.fail chunkId directory (.evict name) remains) := by
  have gone := within.removed name
  cases remains with
  | untouched => exact within
  | gone => exact gone
  | unmarked => exact gone
  | marked => exact within

theorem acquire_roomy {count : ℕ} {heldIds : List String} {changedAt : String → ℤ}
    {acts : List PoolAct} (named : Named directory) (within : Within workspace directory)
    (answered : workspace.provider.acquire directory chunkId count heldIds changedAt = .ok acts) :
    Roomy workspace chunkId directory acts := by
  intro hasRepos maxEnvironments basic n
  rw [basic] at answered
  obtain ⟨evicted, chosen, rfl, plan⟩ := basicAcquire_plan named answered
  exact plan.room named (within hasRepos maxEnvironments basic) n

/-- A step that touches no folder and plans nothing. -/
theorem Capped.quiet (capped : Capped host) (workspaces : host'.workspaces = host.workspaces)
    (directories : host'.directories = host.directories)
    (passes : ∀ other pass, host'.passes other = some pass →
      host.passes other = some pass ∨ ∀ acts todo, pass.phase ≠ .preparing acts todo) :
    Capped host' where
  within workspaceId workspace at_ := by
    rw [Host.workspace, workspaces] at at_
    rw [directories]
    exact capped.within workspaceId workspace at_
  planned other pass acts todo workspace at_ phase listed := by
    rw [Host.workspace, workspaces] at listed
    rw [directories]
    rcases passes other pass at_ with same | quiet
    · exact capped.planned other pass acts todo workspace same phase listed
    · exact absurd phase (quiet acts todo)

/-- One claim goes on, or ends, with nothing planned. -/
theorem quiet_update {passes : RunnerId → Option Pass} {next : Option Pass}
    (quiet : ∀ pass' acts todo, next = some pass' → pass'.phase ≠ .preparing acts todo)
    (other : RunnerId) (pass' : Pass) (at_ : Function.update passes runnerId next other = some pass') :
    passes other = some pass' ∨ ∀ acts todo, pass'.phase ≠ .preparing acts todo := by
  by_cases same : other = runnerId
  · subst same
    rw [Function.update_self] at at_
    exact .inr fun acts todo => quiet pass' acts todo at_
  · rw [Function.update_of_ne same] at at_
    exact .inl at_

/-- A step of a claim that keeps its folders and its pool's other claims, and plans nothing. -/
theorem Capped.still (capped : Capped host) (workspaces : host'.workspaces = host.workspaces)
    (directories : host'.directories = host.directories) {next : Option Pass}
    (quiet : ∀ pass' acts todo, next = some pass' → pass'.phase ≠ .preparing acts todo)
    (passes : host'.passes = Function.update host.passes runnerId next) : Capped host' := by
  refine capped.quiet workspaces directories ?_
  rw [passes]
  exact quiet_update quiet

theorem Capped.setPhase (capped : Capped host) {phase : Phase}
    (quiet : ∀ acts todo, phase ≠ .preparing acts todo) :
    Capped (host.setPhase runnerId pass phase) := by
  refine capped.still rfl rfl ?_ rfl
  rintro pass' acts todo ⟨⟩
  exact quiet acts todo

theorem Capped.leave (capped : Capped host) : Capped (host.leave runnerId pass) := by
  refine capped.still rfl rfl ?_ rfl
  rintro pass' acts todo ⟨⟩

/-- A step on the folders of the claim's own workspace, and what it still plans. -/
theorem Capped.touch (capped : Capped host) (sound : Sound host)
    (at_ : host.passes runnerId = some pass) (locks : pass.phase.locks = true)
    (listed : host.workspace pass.workspaceId = some workspace) {directory : Directory}
    (within : Within workspace directory) {next : Option Pass}
    (same : ∀ pass', next = some pass' → pass'.workspaceId = pass.workspaceId)
    (planned : ∀ pass' acts todo, next = some pass' → pass'.phase = .preparing acts todo →
      Roomy workspace pass'.entry.chunkId directory todo)
    (workspaces : host'.workspaces = host.workspaces)
    (directories : host'.directories = Function.update host.directories pass.workspaceId directory)
    (passes : host'.passes = Function.update host.passes runnerId next) : Capped host' where
  within workspaceId other at_' := by
    rw [Host.workspace, workspaces] at at_'
    rw [directories]
    by_cases here : workspaceId = pass.workspaceId
    · subst here
      rw [Function.update_self, Option.some.inj (at_'.symm.trans listed)]
      exact within
    · rw [Function.update_of_ne here]
      exact capped.within workspaceId other at_'
  planned other pass' acts todo workspace' held phase at_' := by
    rw [Host.workspace, workspaces] at at_'
    rw [passes] at held
    rw [directories]
    by_cases own : other = runnerId
    · subst own
      rw [Function.update_self] at held
      rw [same pass' held] at at_' ⊢
      rw [Function.update_self, Option.some.inj (at_'.symm.trans listed)]
      exact planned pass' acts todo held phase
    · rw [Function.update_of_ne own] at held
      have elsewhere : pass'.workspaceId ≠ pass.workspaceId := by
        intro here
        exact own (sound.apart at_ held locks (by rw [phase]; rfl) here)
      rw [Function.update_of_ne elsewhere]
      exact capped.planned other pass' acts todo workspace' held phase at_'

/-- A step on the folders of a workspace the host does not list. -/
theorem Capped.unlisted (capped : Capped host) {workspaceId : String} {directory : Directory}
    (unlisted : host.workspace workspaceId = none) (workspaces : host'.workspaces = host.workspaces)
    (directories : host'.directories = Function.update host.directories workspaceId directory)
    (passes : ∀ other pass, host'.passes other = some pass →
      host.passes other = some pass ∨ ∀ acts todo, pass.phase ≠ .preparing acts todo) :
    Capped host' := by
  have elsewhere : ∀ {other : String} {workspace : Workspace},
      host.workspace other = some workspace → host'.directories other = host.directories other := by
    intro other workspace listed
    rw [directories, Function.update_of_ne]
    rintro rfl
    rw [unlisted] at listed
    cases listed
  refine ⟨?_, ?_⟩
  · intro other workspace listed
    rw [Host.workspace, workspaces] at listed
    rw [elsewhere listed]
    exact capped.within other workspace listed
  · intro other pass acts todo workspace at_ phase listed
    rw [Host.workspace, workspaces] at listed
    rw [elsewhere listed]
    rcases passes other pass at_ with same | quiet
    · exact capped.planned other pass acts todo workspace same phase listed
    · exact absurd phase (quiet acts todo)

theorem capped_read (capped : Capped host) (sound : Sound host)
    (at_ : host.passes runnerId = some pass) {heldIds : List String}
    (phase : pass.phase = .read heldIds) : Capped (host.advance runnerId pass input) := by
  rw [Host.advance]
  simp only [phase]
  split
  · exact capped.leave
  · rename_i workspace listed
    split
    · exact capped.leave
    · rename_i acts answered
      split
      · have within := capped.within _ workspace listed
        refine capped.touch sound at_ (by rw [phase]; rfl) listed within ?_ ?_ rfl
          (Function.update_eq_self _ _).symm rfl
        · rintro pass' ⟨⟩
          rfl
        · rintro pass' acts' todo ⟨⟩ planning
          cases planning
          exact acquire_roomy (sound.named _) within answered
      · exact capped.leave

theorem capped_preparing (capped : Capped host) (sound : Sound host)
    (at_ : host.passes runnerId = some pass) {acts todo : List PoolAct}
    (phase : pass.phase = .preparing acts todo) : Capped (host.advance runnerId pass input) := by
  have locks : pass.phase.locks = true := by rw [phase]; rfl
  cases todo with
  | nil =>
    rw [Host.advance]
    simp only [phase]
    split
    · exact capped.leave
    · exact capped.setPhase (by simp)
  | cons act todo =>
    rw [Host.advance]
    simp only [phase]
    split
    · exact capped.leave
    · rename_i workspace listed
      have roomy := capped.planned runnerId pass acts (act :: todo) workspace at_ phase listed
      have within : Within workspace (Host.applied workspace.provider pass.entry.chunkId
          (host.directories pass.workspaceId) act input.failed) := by
        cases kind : workspace.provider with
        | winter pool => exact roomy.within
        | basic hasRepos maxEnvironments =>
          cases failed : input.failed with
          | none => exact roomy.next.within
          | some remains => exact roomy.failed remains
      split
      · rename_i done
        refine capped.touch sound at_ locks listed within ?_ ?_ rfl rfl rfl
        · rintro pass' ⟨⟩
          rfl
        · rintro pass' acts' todo' ⟨⟩ planning hasRepos maxEnvironments basic n
          cases planning
          rw [done, basic]
          exact roomy.next hasRepos maxEnvironments basic n
      · refine capped.touch sound at_ locks listed within ?_ ?_ rfl rfl rfl
        · rintro pass' ⟨⟩
        · rintro pass' acts' todo' ⟨⟩
      · refine capped.touch sound at_ locks listed within ?_ ?_ rfl rfl rfl
        · rintro pass' ⟨⟩
          rfl
        · rintro pass' acts' todo' ⟨⟩ planning
          cases planning

theorem capped_cleaning (capped : Capped host) (sound : Sound host)
    (at_ : host.passes runnerId = some pass) {todo : List String}
    (phase : pass.phase = .cleaning todo) : Capped (host.advance runnerId pass input) := by
  have locks : pass.phase.locks = true := by rw [phase]; rfl
  cases todo with
  | nil =>
    rw [Host.advance]
    simp only [phase]
    exact capped.leave
  | cons name todo =>
    rw [Host.advance]
    simp only [phase]
    split
    · cases listed : host.workspace pass.workspaceId with
      | none =>
        refine capped.unlisted listed rfl rfl (quiet_update ?_)
        rintro pass' acts todo' ⟨⟩ planning
        cases planning
      | some workspace =>
        have within := capped.within _ workspace listed
        refine capped.touch sound at_ locks listed ?_ ?_ ?_ rfl rfl rfl
        · split
          · exact within.removed name
          · exact within.evict _
        · rintro pass' ⟨⟩
          rfl
        · rintro pass' acts' todo' ⟨⟩ planning
          cases planning
    · exact capped.setPhase (by simp)

/-- The phases after an acquire touch no folder. -/
theorem capped_binding (capped : Capped host) {now : Instant} {envs rest : List AcquiredEnvironment}
    (phase : pass.phase = .binding now envs rest) : Capped (host.advance runnerId pass input) := by
  cases rest with
  | nil =>
    rw [Host.advance]
    simp only [phase]
    refine capped.still rfl rfl ?_ rfl
    rintro pass' acts todo ⟨⟩ planning
    cases planning
  | cons env rest =>
    rw [Host.advance]
    simp only [phase]
    refine capped.still rfl rfl ?_ rfl
    rintro pass' acts todo ⟨⟩ planning
    cases planning

theorem capped_returning (capped : Capped host) {inside : Bool} {envs rest : List AcquiredEnvironment}
    {released : List (String × Instant)} (phase : pass.phase = .returning inside envs released rest) :
    Capped (host.advance runnerId pass input) := by
  cases rest with
  | nil =>
    rw [Host.advance]
    simp only [phase]
    exact capped.leave
  | cons env rest =>
    rw [Host.advance]
    simp only [phase]
    refine capped.still rfl rfl ?_ rfl
    rintro pass' acts todo ⟨⟩ planning
    cases planning

/-- A step of a claim keeps the caps. -/
theorem capped_advance (capped : Capped host) (sound : Sound host)
    (at_ : host.passes runnerId = some pass) : Capped (host.advance runnerId pass input) := by
  cases phase : pass.phase with
  | read heldIds => exact capped_read capped sound at_ phase
  | preparing acts todo => exact capped_preparing capped sound at_ phase
  | cleaning todo => exact capped_cleaning capped sound at_ phase
  | binding now envs rest => exact capped_binding capped phase
  | returning inside envs released rest => exact capped_returning capped phase
  | locked =>
    rw [Host.advance]
    simp only [phase]
    exact capped.setPhase (by simp)
  | acquired envs =>
    rw [Host.advance]
    simp only [phase]
    split
    · exact capped.setPhase (by simp)
    · exact capped.setPhase (by simp)
  | refused envs =>
    rw [Host.advance]
    simp only [phase]
    exact capped.setPhase (by simp)
  | claiming envs =>
    rw [Host.advance]
    simp only [phase]
    split
    · exact capped.leave
    · split
      · exact capped.setPhase (by simp)
      · exact capped.leave
  | retracting inside envs =>
    rw [Host.advance]
    simp only [phase]
    exact capped.setPhase (by simp)
  | handing inside envs released env rest =>
    rw [Host.advance]
    simp only [phase]
    exact capped.setPhase (by simp)

/-- An event of a host keeps the caps. -/
theorem capped_exec (capped : Capped host) (sound : Sound host) (event : HostEvent) :
    Capped (host.exec event) := by
  have same : ∀ {host' : Host}, host'.workspaces = host.workspaces →
      host'.directories = host.directories → host'.passes = host.passes → Capped host' := by
    intro host' workspaces directories passes
    exact capped.quiet workspaces directories fun _ _ at_ => .inl (passes ▸ at_)
  cases event with
  | start => exact same rfl rfl rfl
  | tryLock runnerId entry workspaceId =>
    rw [Host.exec]
    split
    · refine capped.still rfl rfl ?_ rfl
      rintro pass' acts todo ⟨⟩ planning
      cases planning
    · exact capped
  | advance runnerId input =>
    rw [Host.exec]
    split
    · rename_i at_
      exact capped_advance capped sound at_
    · exact capped
  | raise runnerId =>
    rw [Host.exec]
    split
    · exact capped.leave
    · exact capped
  | readTenure runnerId chunkId now =>
    rw [Host.exec]
    split
    · exact same rfl rfl rfl
    · exact capped
  | release job =>
    rw [Host.exec]
    split
    · exact same rfl rfl rfl
    · exact capped
  | readIncomplete runnerId project =>
    rw [Host.exec]
    split
    · exact same rfl rfl rfl
    · exact capped
  | complete job =>
    rw [Host.exec]
    split
    · exact same rfl rfl rfl
    · exact capped
  | crash =>
    refine capped.quiet rfl rfl ?_
    rintro other pass' ⟨⟩
  | removeRunner runnerId =>
    rw [Host.exec]
    split
    · exact capped
    · exact same rfl rfl rfl

end Blizzard.EnvironmentRooms
