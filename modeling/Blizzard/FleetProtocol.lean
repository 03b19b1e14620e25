import Blizzard.FleetSafety

/-! # Retirement across interleavings

Whatever order the requests, the release passes and the claims come in: a
retirement that stands leaves its runner no route on a chunk still under way, a
reinstatement comes after that, and a route won since is no earlier pass's to
release. -/
namespace Blizzard.FleetProtocol
open HubTables RouteLiveness StatusLadder FactLoading EpochFence FencedWrites WorkflowGraph ClaimAdmission
open ChunkLevers EpochFencing ClaimExclusivity VersionedFacts FleetRegistry FleetWrites FleetMembership
open FleetSteps FleetRequests FleetHoldings FleetRuns FleetPasses FleetSafety UniqueRows ExceptRules

variable {fleet after : Fleet} {runnerId : RunnerId}

/-- A claim is won only by a runner that has connected, is not refused on its version, and is live. -/
theorem won_registration {route : RouteClaim} {peeked : Option Registration}
    {graphs : String → Option Graph} {eligible : ChunkRow → Graph → Node → Bool} {now : Instant}
    {node : Node}
    (won : (ClaimAdmission.claim fleet.hub.tables (fleet.claimRequest route peeked graphs eligible) now).2 =
      .ok node) :
    ∃ row ∈ fleet.registry.runners.rows, row.runnerId = route.runnerId ∧ row.registeredAt ≠ none ∧
      row.versionRefusal = none ∧ isRetired fleet.registry.runnerLifecycle route.runnerId = false := by
  obtain ⟨held, registered, connected, live, current⟩ := claim_registration won
  obtain ⟨runner, found, rfl⟩ := Option.map_eq_some_iff.mp registered
  obtain ⟨row, listed, rfl⟩ := Option.map_eq_some_iff.mp found
  have own : row.runnerId = route.runnerId := by simpa using List.find?_some listed
  refine ⟨row, List.mem_of_find?_eq_some listed, own, ?_, current, own ▸ live⟩
  intro never
  simp [ClaimAdmission.RunnerRegistration.neverConnected, claimant, Registry.registration, never]
    at connected

theorem step_claim {route : RouteClaim} {peeked : Option Registration} {graphs : String → Option Graph}
    {eligible : ChunkRow → Graph → Node → Bool} {at_ : Instant} (sound : Sound fleet) :
    Step fleet (fleet.exec (.claim route peeked graphs eligible at_)) := by
  rw [Fleet.exec]
  split
  · have next := clock_next sound at_
    dsimp only
    cases judged : (ClaimAdmission.claim fleet.hub.tables
        (fleet.claimRequest route peeked graphs eligible) (fleet.clock at_)).2 with
    | error refusal =>
      rw [claim_eq_error judged]
      exact step_moved (.refl _) next fun _ _ held => .inl held
    | ok node =>
      obtain ⟨_, -, -, -, -, live⟩ := won_registration judged
      obtain ⟨_, _, _, _, clocked⟩ := heldBy_claimed next route
      rw [(claim_eq_ok judged).1]
      refine step_moved (.refl _) clocked fun runnerId chunkId held => ?_
      refine (held.claimed next).imp_right fun same => ?_
      rw [same]
      exact live
  · exact Step.refl sound

theorem step_exec (sound : Sound fleet) (event : FleetEvent) : Step fleet (fleet.exec event) := by
  cases event with
  | readRunner runnerId =>
    refine { Step.refl sound with runners := fun runner mem => ?_ }
    rcases List.mem_append.mp mem with old | new
    · exact .inl old
    · exact .inr (getRunner_saw (Option.mem_toList.mp new))
  | readHost hostId =>
    refine { Step.refl sound with hosts := fun host mem => ?_ }
    rcases List.mem_append.mp mem with old | new
    · exact .inl old
    · exact .inr (getHost_saw (Option.mem_toList.mp new))
  | request request =>
    rw [Fleet.exec]
    split
    · rename_i read
      cases done : request.exec fleet.registry with
      | error refusal => exact Step.refl sound
      | ok registry =>
        exact step_registry sound (grown_exec sound.founded
          (fun runner mem => sound.runners runner (read.1 runner mem))
          (fun host mem => sound.hosts host (read.2 host mem)) done)
    · exact Step.refl sound
  | retire runner holdings force stamp =>
    rw [Fleet.exec]
    split
    · rename_i read
      cases retired : fleet.retireRunner runner holdings force stamp with
      | error refusal => exact Step.refl sound
      | ok after => exact (step_retireRunner sound (sound.runners runner read) retired).1
    · exact Step.refl sound
  | reinstate runner stamp =>
    rw [Fleet.exec]
    split
    · rename_i read
      cases started : fleet.startReinstatement runner stamp with
      | error refusal => exact Step.refl sound
      | ok after => exact step_startReinstatement sound (sound.runners runner read) started
    · exact Step.refl sound
  | readRoutes i =>
    rw [Fleet.exec]
    split
    · rename_i pass found
      split
      · rename_i unread
        refine step_setPass found (.refl _) sound.clock (fun _ _ held => held) ⟨rfl, rfl, rfl⟩ ?_
          (passSound_readRoutes (sound.passes pass (List.mem_of_getElem? found)))
        rintro ⟨-, done⟩
        rw [unread] at done
        cases done
      · exact Step.refl sound
    · exact Step.refl sound
  | readRecords i =>
    rw [Fleet.exec]
    split
    · rename_i pass found
      split
      · rename_i chunkIds routed
        refine step_setPass found (.refl _) sound.clock (fun _ _ held => held) ⟨rfl, rfl, rfl⟩ ?_
          (passSound_readRecords (sound.passes pass (List.mem_of_getElem? found)) routed _)
        rintro ⟨-, done⟩
        rw [routed] at done
        cases done
      · exact Step.refl sound
    · exact Step.refl sound
  | releaseNext i at_ =>
    rw [Fleet.exec]
    split
    · rename_i pass found
      split
      · rename_i walking
        exact step_releaseNext sound found walking
      · exact Step.refl sound
    · exact Step.refl sound
  | reinstated i =>
    rw [Fleet.exec]
    split
    · rename_i pass found
      split
      · rename_i purpose
        exact step_reinstate sound found purpose
      · exact Step.refl sound
    · exact Step.refl sound
  | retireHost host holdings force stamp =>
    rw [Fleet.exec]
    split
    · rename_i read
      cases retired : FleetWrites.retireHost fleet.registry host holdings force stamp with
      | error refusal => exact Step.refl sound
      | ok registry =>
        obtain ⟨grown, closed⟩ := grown_retireHost sound.founded (sound.hosts host read) retired
        refine { step_registry sound grown with hostPasses := fun other mem => ?_ }
        rcases List.mem_append.mp mem with old | new
        · exact .inl old
        · obtain rfl := List.mem_singleton.mp new
          exact .inr ⟨closed, fun roster on walking => by cases walking⟩
    · exact Step.refl sound
  | readRoster i =>
    rw [Fleet.exec]
    split
    · rename_i hostPass found
      split
      · exact step_setHostPass sound
          (hostSound_readRoster (sound.hostPasses hostPass (List.mem_of_getElem? found)))
      · exact Step.refl sound
    · exact Step.refl sound
  | retireNext i holdings at_ =>
    rw [Fleet.exec]
    split
    · rename_i hostPass found
      have host := sound.hostPasses hostPass (List.mem_of_getElem? found)
      split
      · rename_i runner rest on walking
        split
        · rename_i idle
          refine step_retireNext sound found walking fun j mem pass found' => ?_
          obtain rfl := Option.mem_def.mp mem
          simp [found'] at idle
        · rename_i finished
          refine step_retireNext sound found walking fun j mem pass found' => ?_
          obtain rfl := Option.mem_def.mp mem
          simpa [found'] using finished
        · exact step_setHostPass sound host.stopped
        · exact Step.refl sound
      · exact Step.refl sound
    · exact Step.refl sound
  | claim route peeked graphs eligible at_ => exact step_claim sound
  | chunk command at_ =>
    rw [Fleet.exec]
    split
    · rename_i free
      have quiet := quiet_aside free fleet.hub.tables (fleet.clock at_)
      exact step_moved (.refl _) ((clock_next sound at_).quiet quiet) fun _ _ held =>
        .inl (held.before quiet)
    · exact Step.refl sound

theorem sound_start (now : Instant) (chunks : ChunkTable) (graphNodes : List GraphNodeRow) :
    Sound (Fleet.start now chunks graphNodes) where
  founded := by
    refine ⟨⟨fun runnerId => ⟨List.isChain_nil, by simp [groups, Fleet.start, Registry.empty]⟩,
      fun hostId => .inl rfl⟩, ?_, ?_⟩
    · intro fact mem
      cases mem
    · intro fact mem
      cases mem
  clock := routeClock_minted now chunks graphNodes
  runners runner mem := by cases mem
  hosts host mem := by cases mem
  passes pass mem := by cases mem
  hostPasses hostPass mem := by cases mem

theorem sound_run (sound : Sound fleet) (events : List FleetEvent) : Sound (fleet.run events) := by
  induction events generalizing fleet with
  | nil => exact sound
  | cons event events ih => exact ih (sound.step (step_exec sound event))

/-- What an event writes of the registry. -/
inductive Wrote (fleet : Fleet) (event : FleetEvent) : Registry → Prop
  | nothing : Wrote fleet event fleet.registry
  | request {registry : Registry} (request : Request) (own : event = .request request)
    (done : request.exec fleet.registry = .ok registry) : Wrote fleet event registry
  | retired {runner : Registration} {holdings : List Route} {force : Bool} {stamp : Stamp}
    {unit : RetireUnit} (saw : SawRunner fleet.registry runner)
    (done : retireUnit fleet.registry runner holdings force stamp = .ok unit) :
    Wrote fleet event unit.registry
  | hostRetired {registry : Registry} {host : Host} {holdings : List (RunnerId × List Route)}
    {force : Bool} {stamp : Stamp} (saw : SawHost fleet.registry host)
    (done : FleetWrites.retireHost fleet.registry host holdings force stamp = .ok registry) :
    Wrote fleet event registry
  | reinstated {i : ℕ} {pass : Pass} {runner : Registration} {fact : LifecycleFact}
    {host : Option Host} {registry : Registry} (own : event = .reinstated i)
    (found : fleet.passes[i]? = some pass) (done : pass.stage = .walking [])
    (purpose : pass.purpose = .reinstatement runner fact host)
    (recorded : recordReinstatement fleet.registry pass.runnerId pass.version fact host =
      .ok registry) : Wrote fleet event registry

theorem wrote_retireRunner {event : FleetEvent} {runner : Registration} {holdings : List Route}
    {force : Bool} {stamp : Stamp} (saw : SawRunner fleet.registry runner)
    (retired : fleet.retireRunner runner holdings force stamp = .ok after) :
    Wrote fleet event after.registry := by
  rw [Fleet.retireRunner] at retired
  obtain ⟨unit, decided, retired⟩ := bind_ok retired
  obtain rfl := Except.ok.inj retired
  exact .retired saw decided

theorem wrote_exec (sound : Sound fleet) (event : FleetEvent) :
    Wrote fleet event (fleet.exec event).registry := by
  cases event with
  | readRunner _ | readHost _ => exact .nothing
  | request request =>
    rw [Fleet.exec]
    split
    · cases done : request.exec fleet.registry with
      | error refusal => exact .nothing
      | ok registry => exact .request request rfl done
    · exact .nothing
  | retire runner holdings force stamp =>
    rw [Fleet.exec]
    split
    · rename_i read
      cases retired : fleet.retireRunner runner holdings force stamp with
      | error refusal => exact .nothing
      | ok after => exact wrote_retireRunner (sound.runners runner read) retired
    · exact .nothing
  | reinstate runner stamp =>
    rw [Fleet.exec]
    split
    · cases started : fleet.startReinstatement runner stamp with
      | error refusal => exact .nothing
      | ok after =>
        rw [Fleet.startReinstatement] at started
        obtain ⟨fact, -, started⟩ := bind_ok started
        split at started
        · cases started
        · obtain rfl := Except.ok.inj started
          exact .nothing
    · exact .nothing
  | readRoutes i | readRecords i | readRoster i =>
    rw [Fleet.exec]
    split
    · split <;> exact .nothing
    · exact .nothing
  | releaseNext i at_ =>
    rw [Fleet.exec]
    split
    · split
      · rw [Fleet.releaseNext]
        split <;> exact .nothing
      · exact .nothing
    · exact .nothing
  | reinstated i =>
    rw [Fleet.exec]
    split
    · rename_i pass found
      split
      · rename_i runner fact host done purpose
        rw [Fleet.reinstate]
        cases recorded : recordReinstatement fleet.registry pass.runnerId pass.version fact host with
        | error refusal => exact .nothing
        | ok registry => exact .reinstated rfl found done purpose recorded
      · exact .nothing
    · exact .nothing
  | retireHost host holdings force stamp =>
    rw [Fleet.exec]
    split
    · rename_i read
      cases retired : FleetWrites.retireHost fleet.registry host holdings force stamp with
      | error refusal => exact .nothing
      | ok registry => exact .hostRetired (sound.hosts host read) retired
    · exact .nothing
  | retireNext i holdings at_ =>
    rw [Fleet.exec]
    split
    · rename_i hostPass found
      have host := sound.hostPasses hostPass (List.mem_of_getElem? found)
      split
      · rename_i runner rest on walking
        obtain ⟨saw, -⟩ := host.roster _ _ walking
        have next : Wrote fleet (.retireNext i holdings at_)
            (fleet.retireNext i hostPass runner rest holdings at_).registry := by
          rw [Fleet.retireNext]
          cases retired : fleet.retireRunner runner holdings hostPass.force ⟨at_, hostPass.by_⟩ with
          | error refusal => exact .nothing
          | ok after =>
            have wrote : Wrote fleet (.retireNext i holdings at_) after.registry :=
              wrote_retireRunner (saw runner List.mem_cons_self) retired
            exact wrote
        split
        · exact next
        · exact next
        · exact .nothing
        · exact .nothing
      · exact .nothing
    · exact .nothing
  | claim route peeked graphs eligible at_ | chunk command at_ =>
    rw [Fleet.exec]
    split <;> exact .nothing

/-! ## What the protocol promises -/

/-- The pass left the chunk routed, since it had ended or has no record. -/
def PassedOver (pass : Pass) (chunkId : ChunkId) : Prop :=
  ∃ status, (chunkId, status) ∈ pass.passedOver ∧ ∀ ended ∈ status, holdsClaim ended = false

/-- A pass with nothing left to look at has passed over what its runner still holds. -/
theorem passedOver_of_covers {registry : Registry} {tables : Tables} {pass : Pass} {chunkId : ChunkId}
    (own : PassSound registry tables pass) (done : pass.stage = .walking [])
    (stands : registry.runnerLifecycle.version pass.runnerId = pass.version)
    (held : Holds tables pass.runnerId chunkId) : PassedOver pass chunkId := by
  have covered := own.covers stands chunkId held
  rw [Covers, done] at covered
  rcases covered with todo | over_
  · cases todo
  · obtain ⟨⟨_, status⟩, mem, rfl⟩ := List.mem_map.mp over_
    exact ⟨status, mem, own.ended _ mem⟩

/-- A retired runner becomes live by a reinstatement only, after its pass. -/
theorem reinstated_pass (sound : Sound fleet) {event : FleetEvent}
    (retired : isRetired fleet.registry.runnerLifecycle runnerId = true)
    (live : isRetired (fleet.exec event).registry.runnerLifecycle runnerId = false) :
    ∃ i pass, event = .reinstated i ∧ fleet.passes[i]? = some pass ∧ pass.runnerId = runnerId ∧
      ∀ chunkId, Holds fleet.hub.tables runnerId chunkId → PassedOver pass chunkId := by
  have wrote := wrote_exec sound event
  generalize (fleet.exec event).registry = registry at wrote live
  have again : registry.runnerLifecycle ≠ fleet.registry.runnerLifecycle := by
    intro same
    rw [same, retired] at live
    cases live
  cases wrote with
  | nothing => exact absurd rfl again
  | request request own done => exact absurd (leaves_exec done).lifecycle again
  | retired saw done =>
    rcases (retires_retireUnit saw done).lifecycle with same | ⟨fact, retires, same⟩
    · exact absurd same again
    · rw [same, isRetired_append retires retired] at live
      cases live
  | hostRetired saw done => exact absurd (retireHost_leaves done).1 again
  | @reinstated i pass runner fact host _ own found done purpose recorded =>
    have kept := sound.passes pass (List.mem_of_getElem? found)
    obtain ⟨same, version, unretires, reinstating⟩ := kept.purpose runner fact host purpose
    rw [← same, ← version] at recorded
    obtain ⟨stands, -, rfl⟩ := grown_recordReinstatement sound.founded reinstating unretires recorded
    rw [same, version] at stands
    have named : pass.runnerId = runnerId := by
      by_contra apart
      have still : isRetired (fleet.registry.runnerLifecycle.append runner.runnerId fact) runnerId =
        false := live
      rw [same, isRetired, Log.value_append_other (Ne.symm apart)] at still
      rw [isRetired, still] at retired
      cases retired
    subst named
    exact ⟨i, pass, own, found, rfl, fun chunkId held => passedOver_of_covers kept done stands held⟩

/-- A pass whose version has moved releases nothing more. -/
theorem releaseNext_moved {i : ℕ} {pass : Pass} {at_ : Instant} (found : fleet.passes[i]? = some pass)
    (moved : fleet.registry.runnerLifecycle.version pass.runnerId ≠ pass.version) :
    (fleet.exec (.releaseNext i at_)).hub.tables = fleet.hub.tables := by
  simp only [Fleet.exec, found]
  split
  · rename_i chunkId rest walking
    rw [Fleet.releaseNext, decide_eq_false moved]
    rcases releaseHeld_cases fleet.hub.tables chunkId pass.runnerId false (fleet.clock at_) with
      ⟨-, skipped⟩ | ⟨-, conflict, refused⟩ | ⟨stands, -⟩
    · rw [skipped]
      rfl
    · rw [refused]
      rfl
    · cases stands
  · rfl

/-- Along a run every pass is still there, and its version, once moved, stays so. -/
theorem moved_run (sound : Sound fleet) (events : List FleetEvent) {i : ℕ} {pass : Pass}
    (found : fleet.passes[i]? = some pass)
    (moved : fleet.registry.runnerLifecycle.version pass.runnerId ≠ pass.version) :
    ∃ pass', (fleet.run events).passes[i]? = some pass' ∧
      (fleet.run events).registry.runnerLifecycle.version pass'.runnerId ≠ pass'.version := by
  induction events generalizing fleet pass with
  | nil => exact ⟨pass, found, moved⟩
  | cons event events ih =>
    have step := step_exec sound event
    obtain ⟨pass', found', runner, version, -⟩ := step.persist i pass found
    refine ih (sound.step step) found' fun stands => moved ?_
    rw [runner, version] at stands
    exact (sound.passes pass (List.mem_of_getElem? found)).stood step.grown stands

/-- Along a run a live runner under a retired host stood there live already. -/
theorem live_under_run (sound : Sound fleet) (events : List FleetEvent) {hostId : String}
    (closed : isRetired fleet.registry.hostLifecycle hostId = true)
    (under : (groups (fleet.run events).registry).under runnerId = some hostId)
    (live : isRetired (fleet.run events).registry.runnerLifecycle runnerId = false) :
    (groups fleet.registry).under runnerId = some hostId ∧
      isRetired fleet.registry.runnerLifecycle runnerId = false := by
  induction events generalizing fleet with
  | nil => exact ⟨under, live⟩
  | cons event events ih =>
    have step := step_exec sound event
    have kept := sound.founded.kept
    have closing := (closed_iff kept).mpr closed
    have closed' := (closed_iff (Groups.kept_steps step.grown.members kept)).mp
      (Groups.closed_steps step.grown.members closing)
    obtain ⟨under', live'⟩ := ih (sound.step step) closed' under live
    obtain ⟨stood, stayed⟩ := Groups.live_under_steps step.grown.members closing under' (by
      rw [retired_iff, live']
      simp)
    exact ⟨stood, by simpa [retired_iff] using stayed⟩

/-- The rules of retirement, in one state of the fleet. -/
structure Rules (fleet : Fleet) : Prop where
  /-- A claim is won only by a runner that has connected, is not refused on its version, and is live. -/
  barred : ∀ {route peeked graphs eligible now node},
    (ClaimAdmission.claim fleet.hub.tables (fleet.claimRequest route peeked graphs eligible) now).2 =
      .ok node →
    ∃ row ∈ fleet.registry.runners.rows, row.runnerId = route.runnerId ∧ row.registeredAt ≠ none ∧
      row.versionRefusal = none ∧ isRetired fleet.registry.runnerLifecycle route.runnerId = false
  /-- A finished retirement that stands has left its runner only routes it passed over. -/
  released : ∀ pass ∈ fleet.passes, pass.Finished →
    fleet.registry.runnerLifecycle.version pass.runnerId = pass.version →
      isRetired fleet.registry.runnerLifecycle pass.runnerId = true ∧
        ∀ chunkId, Holds fleet.hub.tables pass.runnerId chunkId → PassedOver pass chunkId
  /-- A retired runner becomes live by a reinstatement only, which has released its routes first. -/
  reinstated : ∀ event runnerId, isRetired fleet.registry.runnerLifecycle runnerId = true →
    isRetired (fleet.exec event).registry.runnerLifecycle runnerId = false →
      ∃ i pass, event = .reinstated i ∧ fleet.passes[i]? = some pass ∧ pass.runnerId = runnerId ∧
        ∀ chunkId, Holds fleet.hub.tables runnerId chunkId → PassedOver pass chunkId
  /-- After a won claim no pass begun before it releases anything for its runner. -/
  spared : ∀ {route peeked graphs eligible now node},
    (ClaimAdmission.claim fleet.hub.tables (fleet.claimRequest route peeked graphs eligible) now).2 =
      .ok node →
    ∀ (i : ℕ) pass, fleet.passes[i]? = some pass → pass.runnerId = route.runnerId → ∀ events at_,
      ((fleet.run events).exec (.releaseNext i at_)).hub.tables = (fleet.run events).hub.tables
  /-- A finished host retirement has retired every runner under the host, each with its own pass
  finished, and no later event brings a live one under it. -/
  hosts : ∀ hostPass ∈ fleet.hostPasses, ∀ on, hostPass.stage = .walking [] on →
    (∀ i ∈ on, ∀ pass, fleet.passes[i]? = some pass → pass.stage = .walking []) →
      (∀ runnerId, (groups fleet.registry).under runnerId = some hostPass.hostId →
        ∃ pass ∈ fleet.passes, pass.Finished ∧ pass.runnerId = runnerId ∧
          fleet.registry.runnerLifecycle.version runnerId = pass.version) ∧
      ∀ events runnerId, (groups (fleet.run events).registry).under runnerId = some hostPass.hostId →
        isRetired (fleet.run events).registry.runnerLifecycle runnerId = true
  /-- A runner is retired and reinstated in turns, and a host is retired once. -/
  turns : Groups.Kept (groups fleet.registry)

/-- The rules of retirement hold after any events, interleaved in any way. -/
theorem retirement_rules (now : Instant) (chunks : ChunkTable) (graphNodes : List GraphNodeRow)
    (events : List FleetEvent) : Rules ((Fleet.start now chunks graphNodes).run events) := by
  have sound := sound_run (sound_start now chunks graphNodes) events
  generalize (Fleet.start now chunks graphNodes).run events = fleet at sound
  refine ⟨won_registration, fun pass mem finished stands => ?_,
    fun event runnerId retired live => reinstated_pass sound retired live, ?_,
    fun hostPass mem on walking done => ?_, sound.founded.kept⟩
  · have own := sound.passes pass mem
    exact ⟨own.isRetired stands, fun chunkId held => passedOver_of_covers own finished.2 stands held⟩
  · intro route peeked graphs eligible _ node won i pass found same events at_
    obtain ⟨_, -, -, -, -, live⟩ := won_registration won
    have own := sound.passes pass (List.mem_of_getElem? found)
    have moved : fleet.registry.runnerLifecycle.version pass.runnerId ≠ pass.version := by
      intro stands
      have retired := own.isRetired stands
      rw [same, live] at retired
      cases retired
    obtain ⟨pass', found', moved'⟩ := moved_run sound events found moved
    exact releaseNext_moved found' moved'
  · have host := sound.hostPasses hostPass mem
    have handled : ∀ runnerId, (groups fleet.registry).under runnerId = some hostPass.hostId →
        ∃ pass ∈ fleet.passes, pass.Finished ∧ pass.runnerId = runnerId ∧
          fleet.registry.runnerLifecycle.version runnerId = pass.version := by
      intro runnerId under
      obtain ⟨-, covered⟩ := (host.waited walking done).roster _ _ rfl
      rcases covered runnerId under with ⟨runner, listed, -⟩ | ⟨i, pass, found, -, own, stands, finished⟩
      · cases listed
      · exact ⟨pass, List.mem_of_getElem? found, by simpa using finished, own, stands⟩
    refine ⟨handled, fun events runnerId under => ?_⟩
    by_contra live
    obtain ⟨stood, stayed⟩ := live_under_run sound events host.closed under (by simpa using live)
    obtain ⟨pass, listed, -, own, stands⟩ := handled runnerId stood
    have retired := (sound.passes pass listed).isRetired (own ▸ stands)
    rw [own, stayed] at retired
    cases retired

end Blizzard.FleetProtocol
