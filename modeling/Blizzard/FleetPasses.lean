import Blizzard.FleetRuns

/-! # What a release pass accounts for

While the version a pass stands at has not moved its runner is retired, and so
takes no further route: every route the runner still holds is one the pass has
yet to look at, or one it passed over. -/
namespace Blizzard.FleetPasses
open HubTables RouteLiveness StatusLadder FactLoading FencedWrites WorkflowGraph ClaimAdmission
open ChunkLevers EpochFencing ClaimExclusivity VersionedFacts FleetRegistry FleetWrites FleetMembership
open FleetSteps FleetRequests FleetHoldings FleetRuns ExceptRules

/-- The chunk is still to be looked at, or was passed over. -/
def Covers (pass : Pass) (chunkId : ChunkId) : Prop :=
  match pass.stage with
  | .routed chunkIds => chunkId ∈ chunkIds
  | .walking chunkIds => chunkId ∈ chunkIds ∨ chunkId ∈ pass.passedOver.map (·.1)
  | .unread | .reinstated | .refused => True

/-- What holds of a pass in every state. -/
structure PassSound (registry : Registry) (tables : Tables) (pass : Pass) : Prop where
  retired : ∃ value, registry.runnerLifecycle.Saw pass.runnerId pass.version value ∧
    value.any (·.retired) = true
  covers : registry.runnerLifecycle.version pass.runnerId = pass.version →
    ∀ chunkId, Holds tables pass.runnerId chunkId → Covers pass chunkId
  ended : ∀ entry ∈ pass.passedOver, ∀ status ∈ entry.2, holdsClaim status = false
  purpose : ∀ runner fact host, pass.purpose = .reinstatement runner fact host →
    runner.runnerId = pass.runnerId ∧ runner.lifecycleVersion = pass.version ∧
      fact.retired = false ∧ Reinstating registry runner host

variable {registry after : Registry} {tables tables' : Tables} {pass : Pass}

/-- A pass whose version stands is one of a retired runner. -/
theorem PassSound.isRetired (sound : PassSound registry tables pass)
    (stands : registry.runnerLifecycle.version pass.runnerId = pass.version) :
    isRetired registry.runnerLifecycle pass.runnerId = true := by
  obtain ⟨value, saw, retired⟩ := sound.retired
  rw [FleetRegistry.isRetired, saw.stands stands, retired]

/-- A version that stands in the later registry stood in the earlier one. -/
theorem PassSound.stood (sound : PassSound registry tables pass) (grown : Grown registry after)
    (stands : after.runnerLifecycle.version pass.runnerId = pass.version) :
    registry.runnerLifecycle.version pass.runnerId = pass.version := by
  obtain ⟨value, saw, -⟩ := sound.retired
  exact le_antisymm (stands ▸ grown.runners.version_le pass.runnerId) saw.reached

/-- A retired runner takes no route, so a pass left alone stays sound. -/
theorem PassSound.later (sound : PassSound registry tables pass) (grown : Grown registry after)
    (holds : ∀ chunkId, Holds tables' pass.runnerId chunkId → Holds tables pass.runnerId chunkId ∨
      FleetRegistry.isRetired registry.runnerLifecycle pass.runnerId = false) :
    PassSound after tables' pass where
  retired := by
    obtain ⟨value, saw, retired⟩ := sound.retired
    exact ⟨value, saw.later grown.runners, retired⟩
  covers stands chunkId held := by
    have stood := sound.stood grown stands
    rcases holds chunkId held with still | live
    · exact sound.covers stood chunkId still
    · rw [sound.isRetired stood] at live
      cases live
  ended := sound.ended
  purpose runner fact host own := by
    obtain ⟨same, version, unretires, reinstating⟩ := sound.purpose runner fact host own
    exact ⟨same, version, unretires, reinstating.later grown⟩

/-- A pass moved on to a stage that covers what its runner still holds. -/
theorem PassSound.staged (sound : PassSound registry tables pass) {stage : PassStage}
    {passedOver : List (ChunkId × Option ChunkStatus)}
    (covers : ∀ chunkId, Holds tables pass.runnerId chunkId →
      (registry.runnerLifecycle.version pass.runnerId = pass.version → Covers pass chunkId) →
      registry.runnerLifecycle.version pass.runnerId = pass.version →
      Covers { pass with passedOver, stage } chunkId)
    (ended : ∀ entry ∈ passedOver, ∀ status ∈ entry.2, holdsClaim status = false) :
    PassSound registry tables { pass with passedOver, stage } where
  retired := sound.retired
  covers stands chunkId held :=
    covers chunkId held (fun stands => sound.covers stands chunkId held) stands
  ended := ended
  purpose := sound.purpose

/-- A pass that has stopped. -/
theorem PassSound.stopped (sound : PassSound registry tables pass) :
    PassSound registry tables { pass with stage := .refused } :=
  sound.staged (fun _ _ _ _ => trivial) sound.ended

theorem passSound_readRoutes (sound : PassSound registry tables pass) :
    PassSound registry tables { pass with
      stage := .routed ((liveRoutesOfRunner tables pass.runnerId).map (·.chunkId)) } :=
  sound.staged (fun _ held _ _ => mem_liveRoutes held) sound.ended

theorem passSound_readRecords {chunkIds : List ChunkId} (sound : PassSound registry tables pass)
    (routed : pass.stage = .routed chunkIds) (recorded : ChunkId → Bool) :
    PassSound registry tables { pass with
      passedOver := pass.passedOver ++ (chunkIds.filter fun chunkId => !recorded chunkId).map
        fun chunkId => (chunkId, none)
      stage := .walking (chunkIds.filter recorded) } := by
  refine sound.staged (fun chunkId held covered stands => ?_) fun entry mem => ?_
  · have listed : chunkId ∈ chunkIds := by
      have covered := covered stands
      rwa [Covers, routed] at covered
    simp only [Covers, List.map_append, List.mem_append, List.mem_filter, List.map_map]
    cases kept : recorded chunkId with
    | true => exact .inl ⟨listed, rfl⟩
    | false =>
      refine .inr (.inr (List.mem_map.mpr ⟨chunkId, ?_, rfl⟩))
      exact List.mem_filter.mpr ⟨listed, by simp [kept]⟩
  · rcases List.mem_append.mp mem with old | new
    · exact sound.ended entry old
    · obtain ⟨chunkId, -, rfl⟩ := List.mem_map.mp new
      simp

/-- A chunk the pass leaves routed, since it has ended. -/
theorem passSound_passedOver {chunkId : ChunkId} {rest : List ChunkId}
    (sound : PassSound registry tables pass) (walking : pass.stage = .walking (chunkId :: rest))
    (ended : Holds tables pass.runnerId chunkId →
      ∃ facts, loadFacts tables chunkId = some facts ∧ holdsClaim facts.status = false) :
    PassSound registry tables { pass with
      passedOver := pass.passedOver ++
        if (routeOf tables chunkId).any fun route => decide (route.runnerId = pass.runnerId) then
          [(chunkId, (loadFacts tables chunkId).map (·.status))]
        else []
      stage := .walking rest } := by
  refine sound.staged (fun other held covered stands => ?_) fun entry mem => ?_
  · have covered := covered stands
    rw [Covers, walking] at covered
    simp only [Covers, List.map_append, List.mem_append]
    rcases covered with todo | over_
    · rcases List.mem_cons.mp todo with rfl | later
      · obtain ⟨route, live, own⟩ := held
        exact .inr (.inr (by simp [live, own]))
      · exact .inl later
    · exact .inr (.inl over_)
  · rcases List.mem_append.mp mem with old | new
    · exact sound.ended entry old
    · split at new
      · rename_i own
        obtain ⟨route, live, same⟩ := (Option.any_eq_true _ _).mp own
        obtain ⟨facts, loaded, done⟩ := ended ⟨route, live, by simpa using same⟩
        obtain rfl := List.mem_singleton.mp new
        simp [loaded, done]
      · cases new

/-- A chunk the pass released. -/
theorem passSound_released {chunkId : ChunkId} {rest : List ChunkId}
    (sound : PassSound registry tables pass) (walking : pass.stage = .walking (chunkId :: rest))
    (gone : routeOf tables' chunkId = none)
    (before : ∀ other, Holds tables' pass.runnerId other → Holds tables pass.runnerId other) :
    PassSound registry tables' { pass with stage := .walking rest } where
  retired := sound.retired
  covers stands other held := by
    have covered := sound.covers stands other (before other held)
    rw [Covers, walking] at covered
    rcases covered with todo | over_
    · rcases List.mem_cons.mp todo with rfl | later
      · obtain ⟨route, live, -⟩ := held
        rw [gone] at live
        cases live
      · exact .inl later
    · exact .inr over_
  ended := sound.ended
  purpose := sound.purpose

/-- The pass of a retirement that has just landed. -/
theorem passSound_retired {runner : Registration} {unit : RetireUnit}
    (retires : Retires registry runner unit) :
    PassSound unit.registry tables
      { runnerId := runner.runnerId, version := unit.version, purpose := .retirement } where
  retired := by
    refine ⟨unit.registry.runnerLifecycle.value runner.runnerId, ?_, retires.retired⟩
    rw [← retires.version]
    exact Log.saw_now _ _
  covers _ _ _ := trivial
  ended entry mem := by cases mem
  purpose runner fact host own := by cases own

/-- The pass of a reinstatement that was just decided. -/
theorem passSound_reinstating {runner : Registration} {host : Option Host} {fact : LifecycleFact}
    (reinstating : Reinstating registry runner host) (unretires : fact.retired = false) :
    PassSound registry tables
      { runnerId := runner.runnerId, version := runner.lifecycleVersion
        purpose := .reinstatement runner fact host } where
  retired := by
    obtain ⟨value, saw, same⟩ := reinstating.saw.lifecycle
    exact ⟨value, saw, by rw [← same, reinstating.retired]⟩
  covers _ _ _ := trivial
  ended entry mem := by cases mem
  purpose runner' fact' host' own := by
    obtain ⟨rfl, rfl, rfl⟩ := Purpose.reinstatement.inj own
    exact ⟨rfl, rfl, unretires, reinstating⟩

end Blizzard.FleetPasses
