import Blizzard.FleetPasses

/-! # What every event keeps of the fleet

One event adds reads, starts or resumes a pass, or moves the tables; whatever it
is, the reads and passes already there stay sound. -/
namespace Blizzard.FleetSafety
open HubTables RouteLiveness StatusLadder FactLoading EpochFence FencedWrites WorkflowGraph ClaimAdmission
open ChunkLevers EpochFencing ClaimExclusivity VersionedFacts FleetRegistry FleetWrites FleetMembership
open FleetSteps FleetRequests FleetHoldings FleetRuns FleetPasses UniqueRows ExceptRules

/-- The runner's retirement that stands has its pass finished, or under way as the one named. -/
def Handled (registry : Registry) (passes : List Pass) (on : Option ℕ) (runnerId : RunnerId) : Prop :=
  ∃ i pass, passes[i]? = some pass ∧ pass.purpose = .retirement ∧ pass.runnerId = runnerId ∧
    registry.runnerLifecycle.version runnerId = pass.version ∧ (on = some i ∨ pass.Finished)

/-- What holds of a host's retirement in every state: a runner under the host is still on its roster,
or has been retired. -/
structure HostSound (registry : Registry) (passes : List Pass) (hostPass : HostPass) : Prop where
  closed : isRetired registry.hostLifecycle hostPass.hostId = true
  roster : ∀ roster on, hostPass.stage = .walking roster on →
    (∀ runner ∈ roster, SawRunner registry runner) ∧
    ∀ runnerId, (groups registry).under runnerId = some hostPass.hostId →
      (∃ runner ∈ roster, runner.runnerId = runnerId) ∨ Handled registry passes on runnerId

structure Sound (fleet : Fleet) : Prop where
  founded : Founded fleet.registry
  clock : RouteClock fleet.hub
  runners : ∀ runner ∈ fleet.runners, SawRunner fleet.registry runner
  hosts : ∀ host ∈ fleet.hosts, SawHost fleet.registry host
  passes : ∀ pass ∈ fleet.passes, PassSound fleet.registry fleet.hub.tables pass
  hostPasses : ∀ hostPass ∈ fleet.hostPasses, HostSound fleet.registry fleet.passes hostPass

/-- Every pass is still there, a finished one finished. -/
def Persist (passes after : List Pass) : Prop :=
  ∀ (i : ℕ) pass, passes[i]? = some pass → ∃ pass', after[i]? = some pass' ∧
    pass'.runnerId = pass.runnerId ∧ pass'.version = pass.version ∧ pass'.purpose = pass.purpose ∧
      (pass.Finished → pass'.Finished)

/-- What one event leaves. -/
structure Step (fleet after : Fleet) : Prop where
  grown : Grown fleet.registry after.registry
  clock : RouteClock after.hub
  holds : ∀ runnerId chunkId, Holds after.hub.tables runnerId chunkId →
    Holds fleet.hub.tables runnerId chunkId ∨ isRetired fleet.registry.runnerLifecycle runnerId = false
  persist : Persist fleet.passes after.passes
  runners : ∀ runner ∈ after.runners, runner ∈ fleet.runners ∨ SawRunner after.registry runner
  hosts : ∀ host ∈ after.hosts, host ∈ fleet.hosts ∨ SawHost after.registry host
  passes : ∀ pass ∈ after.passes, pass ∈ fleet.passes ∨
    PassSound after.registry after.hub.tables pass
  hostPasses : ∀ hostPass ∈ after.hostPasses, hostPass ∈ fleet.hostPasses ∨
    HostSound after.registry after.passes hostPass

variable {fleet after last : Fleet} {pass : Pass} {hostPass : HostPass} {runnerId : RunnerId}

theorem Persist.refl (passes : List Pass) : Persist passes passes :=
  fun _ pass found => ⟨pass, found, rfl, rfl, rfl, id⟩

theorem persist_append (passes more : List Pass) : Persist passes (passes ++ more) := by
  intro i pass found
  exact ⟨pass, by rw [List.getElem?_append_left (List.getElem?_eq_some_iff.mp found).1, found], rfl, rfl,
    rfl, id⟩

theorem persist_set {passes : List Pass} {i : ℕ} {pass pass' : Pass} (found : passes[i]? = some pass)
    (runner : pass'.runnerId = pass.runnerId) (version : pass'.version = pass.version)
    (purpose : pass'.purpose = pass.purpose) (finished : pass.Finished → pass'.Finished) :
    Persist passes (passes.set i pass') := by
  intro j other found'
  by_cases same : i = j
  · subst same
    obtain rfl := Option.some.inj (found.symm.trans found')
    refine ⟨pass', ?_, runner, version, purpose, finished⟩
    rw [List.getElem?_set_self (List.getElem?_eq_some_iff.mp found').1]
  · exact ⟨other, by rw [List.getElem?_set_ne same, found'], rfl, rfl, rfl, id⟩

theorem Handled.later {registry registry' : Registry} {passes passes' : List Pass} {on : Option ℕ}
    (handled : Handled registry passes on runnerId) (persist : Persist passes passes')
    (unmoved : registry'.runnerLifecycle.version runnerId =
      registry.runnerLifecycle.version runnerId) : Handled registry' passes' on runnerId := by
  obtain ⟨i, pass, found, retirement, own, stands, done⟩ := handled
  obtain ⟨pass', found', own', version', purpose', finished⟩ := persist i pass found
  exact ⟨i, pass', found', purpose'.trans retirement, own'.trans own,
    by rw [unmoved, stands, version'], done.imp id finished⟩

/-! ## Carrying the state over an event -/

/-- A write of the registry or of the chunks' tables, and nothing of what is under way. -/
theorem step_moved {registry : Registry} {hub : Hub} (grown : Grown fleet.registry registry)
    (clock : RouteClock hub)
    (holds : ∀ runnerId chunkId, Holds hub.tables runnerId chunkId →
      Holds fleet.hub.tables runnerId chunkId ∨
        isRetired fleet.registry.runnerLifecycle runnerId = false) :
    Step fleet { fleet with registry, hub } where
  grown := grown
  clock := clock
  holds := holds
  persist := .refl _
  runners _ mem := .inl mem
  hosts _ mem := .inl mem
  passes _ mem := .inl mem
  hostPasses _ mem := .inl mem

theorem Step.refl (sound : Sound fleet) : Step fleet fleet :=
  step_moved (.refl _) sound.clock fun _ _ held => .inl held

theorem step_registry (sound : Sound fleet) {registry : Registry}
    (grown : Grown fleet.registry registry) : Step fleet { fleet with registry } :=
  step_moved grown sound.clock fun _ _ held => .inl held

/-- Under a retired host a runner whose retirement is handled keeps it so. -/
theorem HostSound.later (host : HostSound fleet.registry fleet.passes hostPass) (sound : Sound fleet)
    (grown : Grown fleet.registry after.registry) (persist : Persist fleet.passes after.passes) :
    HostSound after.registry after.passes hostPass := by
  have kept := sound.founded.kept
  have closed := (closed_iff kept).mpr host.closed
  refine ⟨(closed_iff (Groups.kept_steps grown.members kept)).mp (Groups.closed_steps grown.members closed),
    fun roster on walking => ?_⟩
  obtain ⟨saw, covered⟩ := host.roster roster on walking
  refine ⟨fun runner mem => (saw runner mem).later grown, fun runnerId under => ?_⟩
  obtain ⟨stood, still⟩ := Groups.under_steps grown.members closed under
  rcases covered runnerId stood with listed | handled
  · exact .inl listed
  · refine .inr (handled.later persist (grown.runners.version_eq ?_))
    obtain ⟨i, pass, found, -, rfl, stands, -⟩ := handled
    have retired := (sound.passes pass (List.mem_of_getElem? found)).isRetired stands
    have same := still (retired_iff.mpr retired)
    simpa [groups] using congrArg List.length same

theorem Sound.step (sound : Sound fleet) (step : Step fleet after) : Sound after where
  founded := sound.founded.grown step.grown
  clock := step.clock
  runners runner mem := by
    rcases step.runners runner mem with old | new
    · exact (sound.runners runner old).later step.grown
    · exact new
  hosts host mem := by
    rcases step.hosts host mem with old | new
    · exact (sound.hosts host old).later step.grown
    · exact new
  passes pass mem := by
    rcases step.passes pass mem with old | new
    · exact (sound.passes pass old).later step.grown fun chunkId held => step.holds _ chunkId held
    · exact new
  hostPasses hostPass mem := by
    rcases step.hostPasses hostPass mem with old | new
    · exact (sound.hostPasses hostPass old).later sound step.grown step.persist
    · exact new

/-! ## Events -/

/-- A new pass, beside what it wrote to the registry. -/
theorem step_newPass (sound : Sound fleet) {registry : Registry} {pass : Pass}
    (grown : Grown fleet.registry registry)
    (pass_sound : PassSound registry fleet.hub.tables pass) :
    Step fleet { fleet with registry, passes := fleet.passes ++ [pass] } where
  grown := grown
  clock := sound.clock
  holds _ _ held := .inl held
  persist := persist_append _ _
  runners _ mem := .inl mem
  hosts _ mem := .inl mem
  passes other mem := by
    rcases List.mem_append.mp mem with old | new
    · exact .inl old
    · obtain rfl := List.mem_singleton.mp new
      exact .inr pass_sound
  hostPasses _ mem := .inl mem

/-- A pass taken one stage further. -/
theorem step_setPass {registry : Registry} {hub : Hub} {i : ℕ} {pass pass' : Pass}
    (found : fleet.passes[i]? = some pass) (grown : Grown fleet.registry registry)
    (clock : RouteClock hub)
    (holds : ∀ runnerId chunkId, Holds hub.tables runnerId chunkId →
      Holds fleet.hub.tables runnerId chunkId)
    (same : pass'.runnerId = pass.runnerId ∧ pass'.version = pass.version ∧
      pass'.purpose = pass.purpose)
    (unfinished : ¬ pass.Finished) (pass_sound : PassSound registry hub.tables pass') :
    Step fleet { fleet.setPass i pass' with registry, hub } where
  grown := grown
  clock := clock
  holds runnerId chunkId held := .inl (holds runnerId chunkId held)
  persist := persist_set found same.1 same.2.1 same.2.2 fun finished => absurd finished unfinished
  runners _ mem := .inl mem
  hosts _ mem := .inl mem
  passes other mem := by
    rcases List.mem_or_eq_of_mem_set mem with old | rfl
    · exact .inl old
    · exact .inr pass_sound
  hostPasses _ mem := .inl mem

/-- A host's pass taken further. -/
theorem step_setHostPass (sound : Sound fleet) {i : ℕ} {hostPass : HostPass}
    (host : HostSound fleet.registry fleet.passes hostPass) :
    Step fleet (fleet.setHostPass i hostPass) :=
  { Step.refl sound with
    hostPasses := fun other mem => by
      rcases List.mem_or_eq_of_mem_set mem with old | rfl
      · exact .inl old
      · exact .inr host }

theorem HostSound.stopped {registry : Registry} {passes : List Pass}
    (host : HostSound registry passes hostPass) :
    HostSound registry passes { hostPass with stage := .refused } where
  closed := host.closed
  roster _ _ walking := by cases walking

theorem getHost_saw {registry : Registry} {hostId : String} {host : Host}
    (found : registry.getHost hostId = some host) : SawHost registry host := by
  obtain ⟨row, listed, rfl⟩ := Option.map_eq_some_iff.mp found
  exact sawHost_now (List.mem_of_find?_eq_some listed)

theorem getRunner_saw {registry : Registry} {runner : Registration}
    (found : registry.getRunner runnerId = some runner) : SawRunner registry runner := by
  obtain ⟨row, listed, rfl⟩ := Option.map_eq_some_iff.mp found
  exact sawRunner_now listed

theorem step_retireRunner {runner : Registration} {holdings : List Route} {force : Bool} {stamp : Stamp}
    (sound : Sound fleet) (saw : SawRunner fleet.registry runner)
    (retired : fleet.retireRunner runner holdings force stamp = .ok after) :
    Step fleet after ∧ ∃ pass, after.passes = fleet.passes ++ [pass] ∧
      after.hostPasses = fleet.hostPasses ∧ pass.purpose = .retirement ∧
      pass.runnerId = runner.runnerId ∧
      after.registry.runnerLifecycle.version runner.runnerId = pass.version := by
  rw [Fleet.retireRunner] at retired
  obtain ⟨unit, decided, retired⟩ := bind_ok retired
  obtain rfl := Except.ok.inj retired
  have retires := retires_retireUnit saw decided
  exact ⟨step_newPass sound retires.grown (passSound_retired retires), _, rfl, rfl, rfl, rfl,
    retires.version⟩

theorem step_startReinstatement {runner : Registration} {stamp : Stamp} (sound : Sound fleet)
    (saw : SawRunner fleet.registry runner)
    (started : fleet.startReinstatement runner stamp = .ok after) : Step fleet after := by
  rw [Fleet.startReinstatement] at started
  obtain ⟨fact, decided, started⟩ := bind_ok started
  split at started
  · cases started
  · rename_i placed
    obtain rfl := Except.ok.inj started
    obtain ⟨retired, unretires, live⟩ := decideReinstatement_ok decided
    refine step_newPass sound (.refl _) (passSound_reinstating ⟨saw, retired, fun host mem => ?_, ?_⟩ unretires)
    · obtain ⟨hostId, -, found⟩ := Option.bind_eq_some_iff.mp mem
      exact ⟨getHost_saw found, live host mem⟩
    · exact not_not.mp placed

theorem clock_next (sound : Sound fleet) (at_ : Instant) :
    RouteClock ⟨fleet.clock at_, fleet.hub.tables⟩ :=
  sound.clock.later (le_max_left _ _)

theorem step_releaseNext {i : ℕ} {chunkId : ChunkId} {rest : List ChunkId} {at_ : Instant}
    (sound : Sound fleet) (found : fleet.passes[i]? = some pass)
    (walking : pass.stage = .walking (chunkId :: rest)) :
    Step fleet (fleet.releaseNext i pass chunkId rest at_) := by
  have own := sound.passes pass (List.mem_of_getElem? found)
  have unfinished : ¬ pass.Finished := by
    rintro ⟨-, done⟩
    rw [walking] at done
    cases done
  rw [Fleet.releaseNext]
  rcases releaseHeld_cases fleet.hub.tables chunkId pass.runnerId
      (decide (fleet.registry.runnerLifecycle.version pass.runnerId = pass.version))
      (fleet.clock at_) with ⟨ended, skipped⟩ | ⟨-, conflict, refused⟩ | ⟨-, held, released⟩
  · rw [skipped]
    exact step_setPass found (.refl _) sound.clock (fun _ _ held => held) ⟨rfl, rfl, rfl⟩
      unfinished (passSound_passedOver own walking ended)
  · rw [refused]
    exact step_setPass found (.refl _) sound.clock (fun _ _ held => held) ⟨rfl, rfl, rfl⟩
      unfinished own.stopped
  · rw [released]
    have next := clock_next sound at_
    have quiet := routesQuiet_released fleet.hub.tables chunkId (some "retirement") none (fleet.clock at_)
    exact step_setPass found (.refl _) (next.quiet quiet) (fun _ _ held => held.before quiet)
      ⟨rfl, rfl, rfl⟩ unfinished
      (passSound_released own walking (routeOf_released next) fun _ held => held.before quiet)

theorem step_reinstate {i : ℕ} {runner : Registration} {fact : LifecycleFact} {host : Option Host}
    (sound : Sound fleet) (found : fleet.passes[i]? = some pass)
    (purpose : pass.purpose = .reinstatement runner fact host) :
    Step fleet (fleet.reinstate i pass fact host) := by
  have own := sound.passes pass (List.mem_of_getElem? found)
  have unfinished : ¬ pass.Finished := by
    rintro ⟨retirement, -⟩
    rw [purpose] at retirement
    cases retirement
  obtain ⟨same, version, unretires, reinstating⟩ := own.purpose runner fact host purpose
  rw [Fleet.reinstate]
  cases recorded : recordReinstatement fleet.registry pass.runnerId pass.version fact host with
  | error refusal =>
    exact step_setPass found (.refl _) sound.clock (fun _ _ held => held) ⟨rfl, rfl, rfl⟩
      unfinished own.stopped
  | ok registry =>
    rw [← same, ← version] at recorded
    obtain ⟨-, grown, -⟩ := grown_recordReinstatement sound.founded reinstating unretires recorded
    have later := own.later grown fun _ held => .inl held
    exact step_setPass found grown sound.clock (fun _ _ held => held) ⟨rfl, rfl, rfl⟩ unfinished
      (later.staged (fun _ _ _ _ => trivial) later.ended)

/-- The roster holds every runner the host has, read once it takes no more. -/
theorem hostSound_readRoster (host : HostSound fleet.registry fleet.passes hostPass) :
    HostSound fleet.registry fleet.passes { hostPass with
      stage := .walking (fleet.registry.roster hostPass.hostId) none } where
  closed := host.closed
  roster roster on walking := by
    obtain ⟨rfl, rfl⟩ := HostStage.walking.inj walking
    refine ⟨fun runner mem => ?_, fun runnerId under => .inl ?_⟩
    · obtain ⟨row, listed, rfl⟩ := List.mem_map.mp mem
      exact sawRunner_now (UniqueTable.find_of_mem (List.mem_filter.mp (List.mem_mergeSort.mp listed)).1)
    · obtain ⟨row, found, own⟩ := Option.bind_eq_some_iff.mp under
      have named : row.runnerId = runnerId := by simpa using List.find?_some found
      refine ⟨fleet.registry.registration row, List.mem_map.mpr ⟨row, ?_, rfl⟩, named⟩
      rw [List.mem_mergeSort, List.mem_filter]
      exact ⟨List.mem_of_find?_eq_some found, by simpa using own⟩

/-- Once the pass a host's retirement waits for has finished, it waits for none. -/
theorem HostSound.waited {registry : Registry} {passes : List Pass} {roster : List Registration}
    {on : Option ℕ} (host : HostSound registry passes hostPass)
    (walking : hostPass.stage = .walking roster on)
    (done : ∀ j ∈ on, ∀ pass, passes[j]? = some pass → pass.stage = .walking []) :
    HostSound registry passes { hostPass with stage := .walking roster none } where
  closed := host.closed
  roster roster' on' walking' := by
    obtain ⟨rfl, rfl⟩ := HostStage.walking.inj walking'
    obtain ⟨saw, covered⟩ := host.roster _ _ walking
    refine ⟨saw, fun runnerId under => (covered runnerId under).imp_right ?_⟩
    rintro ⟨j, pass, found, retirement, own, stands, waiting⟩
    refine ⟨j, pass, found, retirement, own, stands, .inr ?_⟩
    rcases waiting with rfl | finished
    · exact ⟨retirement, done j rfl pass found⟩
    · exact finished

theorem step_retireNext {i : ℕ} {runner : Registration} {rest : List Registration} {on : Option ℕ}
    {holdings : List Route} {at_ : Instant} (sound : Sound fleet)
    (found : fleet.hostPasses[i]? = some hostPass) (walking : hostPass.stage = .walking (runner :: rest) on)
    (done : ∀ j ∈ on, ∀ pass, fleet.passes[j]? = some pass → pass.stage = .walking []) :
    Step fleet (fleet.retireNext i hostPass runner rest holdings at_) := by
  have host := sound.hostPasses hostPass (List.mem_of_getElem? found)
  obtain ⟨saw, covered⟩ := host.roster _ _ walking
  rw [Fleet.retireNext]
  cases retired : fleet.retireRunner runner holdings hostPass.force ⟨at_, hostPass.by_⟩ with
  | error refusal => exact step_setHostPass sound host.stopped
  | ok after =>
    obtain ⟨step, pass, passes, hostPasses, retirement, own, version⟩ :=
      step_retireRunner sound (saw runner List.mem_cons_self) retired
    have later := (host.waited walking done).later sound step.grown step.persist
    refine { step with hostPasses := fun other mem => ?_ }
    rcases List.mem_or_eq_of_mem_set mem with old | rfl
    · exact .inl (hostPasses ▸ old)
    refine .inr ⟨later.closed, fun roster on' walking' => ?_⟩
    obtain ⟨rfl, rfl⟩ := HostStage.walking.inj walking'
    obtain ⟨saw', covered'⟩ := later.roster _ _ rfl
    refine ⟨fun other mem => saw' other (List.mem_cons_of_mem _ mem), fun runnerId under => ?_⟩
    rcases covered' runnerId under with ⟨other, mem, rfl⟩ | ⟨j, pass', found', handled⟩
    · rcases List.mem_cons.mp mem with rfl | mem
      · refine .inr ⟨fleet.passes.length, pass, ?_, retirement, own, version, .inl rfl⟩
        simp [Fleet.setHostPass, passes]
      · exact .inl ⟨other, mem, rfl⟩
    · obtain ⟨retirement', own', stands', finished⟩ := handled
      refine .inr ⟨j, pass', found', retirement', own', stands', .inr ?_⟩
      simpa using finished

/-- A chunk command that reads nothing of the registry gives no runner a route. -/
theorem quiet_aside {command : ChunkCommand} (free : aside command = true) (tables : Tables)
    (now : Instant) : RoutesQuiet tables (command.exec tables now) now := by
  refine routesQuiet_exec ?_ tables now fun request node same => ?_
  · cases command <;> first | exact free | cases free
  · subst same
    cases free

theorem admissionNode_registration {chunk : ChunkRow} {graph : Graph} {loaded : Option ChunkFacts}
    {existingRoute : Option Route} {unmet : Option ChunkId}
    {registration : Option ClaimAdmission.RunnerRegistration}
    {eligible : ChunkRow → Graph → Node → Bool} {node : Node}
    (admitted : admissionNode chunk graph loaded runnerId existingRoute unmet registration eligible =
      .ok node) :
    ∃ held, registration = some held ∧ held.neverConnected = false ∧ held.retired = false ∧
      held.versionRefusal = none := by
  unfold admissionNode at admitted
  split at admitted
  · cases admitted
  rename_i held
  split at admitted
  · cases admitted
  rename_i connected
  split at admitted
  · cases admitted
  rename_i live
  split at admitted
  · cases admitted
  rename_i current
  exact ⟨held, rfl, by simpa using connected, by simpa using live, current⟩

/-- A claim is won only by a runner that is registered, live and not refused on its version. -/
theorem claim_registration {tables : Tables} {request : ClaimRequest} {now : Instant} {node : Node}
    (won : (ClaimAdmission.claim tables request now).2 = .ok node) :
    ∃ held, request.registration = some held ∧ held.neverConnected = false ∧ held.retired = false ∧
      held.versionRefusal = none := by
  unfold ClaimAdmission.claim at won
  split at won
  · cases won
  rename_i admitted
  unfold claimNode at admitted
  dsimp only at admitted
  split at admitted
  · cases admitted
  split at admitted
  · cases admitted
  split at admitted
  · cases admitted
  exact admissionNode_registration admitted

end Blizzard.FleetSafety
