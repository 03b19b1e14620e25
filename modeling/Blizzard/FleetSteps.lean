import Blizzard.FleetMembership
import Blizzard.FleetWrites

/-! # The registry's writes move its membership

What a reader saw of a runner or a host holds while its lifecycle version
stands, so a write decided on it takes only the steps its decision allowed. -/
namespace Blizzard.FleetSteps
open BearerTokens HubTables RouteLiveness UniqueRows VersionedFacts FleetRegistry FleetWrites
open FleetMembership ExceptRules

/-- Where each runner stands, and the lifecycles the facts tell. -/
def groups (registry : Registry) : Groups RunnerId String where
  under runnerId :=
    (registry.runners.rows.find? fun row => decide (row.runnerId = runnerId)).bind (·.hostId)
  history runnerId := (registry.runnerLifecycle.of runnerId).map (·.value.retired)
  closings hostId := (registry.hostLifecycle.of hostId).map (·.value.retired)

/-- The later registry, reached by steps its lifecycle logs tell of. -/
structure Grown (registry after : Registry) : Prop where
  runners : registry.runnerLifecycle.Extends after.runnerLifecycle
  hosts : registry.hostLifecycle.Extends after.hostLifecycle
  members : Groups.Steps (groups registry) (groups after)
  runnerIds : ∀ row ∈ registry.runners.rows, ∃ row' ∈ after.runners.rows, row'.runnerId = row.runnerId
  hostIds : ∀ row ∈ registry.hosts.rows, ∃ row' ∈ after.hosts.rows, row'.hostId = row.hostId
  runnerFacts : ∀ fact ∈ after.runnerLifecycle.facts, fact ∈ registry.runnerLifecycle.facts ∨
    ∃ row ∈ after.runners.rows, row.runnerId = fact.key
  hostFacts : ∀ fact ∈ after.hostLifecycle.facts, fact ∈ registry.hostLifecycle.facts ∨
    ∃ row ∈ after.hosts.rows, row.hostId = fact.key

/-- What a read of a runner still says of it. -/
structure SawRunner (registry : Registry) (runner : RunnerRegistration) : Prop where
  known : ∃ row ∈ registry.runners.rows, row.runnerId = runner.runnerId
  lifecycle : ∃ value, registry.runnerLifecycle.Saw runner.runnerId runner.lifecycleVersion value ∧
    runner.retired = value.any (·.retired)
  under : registry.runnerLifecycle.version runner.runnerId = runner.lifecycleVersion →
    runner.retired = true → (groups registry).under runner.runnerId = runner.hostId ∨
      (groups registry).under runner.runnerId = none

structure SawHost (registry : Registry) (host : Host) : Prop where
  known : ∃ row ∈ registry.hosts.rows, row.hostId = host.hostId
  lifecycle : ∃ value, registry.hostLifecycle.Saw host.hostId host.lifecycleVersion value ∧
    host.retired = value.any (·.retired)

variable {registry after last : Registry} {runner : RunnerRegistration} {host : Host}
  {runnerId : RunnerId} {hostId : String}

theorem Grown.refl (registry : Registry) : Grown registry registry :=
  ⟨.refl _, .refl _, Relation.ReflTransGen.refl, fun row mem => ⟨row, mem, rfl⟩,
    fun row mem => ⟨row, mem, rfl⟩, fun _ mem => .inl mem, fun _ mem => .inl mem⟩

theorem Grown.trans (grown : Grown registry after) (grown' : Grown after last) :
    Grown registry last where
  runners := grown.runners.trans grown'.runners
  hosts := grown.hosts.trans grown'.hosts
  members := grown.members.trans grown'.members
  runnerIds row mem := by
    obtain ⟨row', mem', same⟩ := grown.runnerIds row mem
    obtain ⟨row'', mem'', same'⟩ := grown'.runnerIds row' mem'
    exact ⟨row'', mem'', same'.trans same⟩
  hostIds row mem := by
    obtain ⟨row', mem', same⟩ := grown.hostIds row mem
    obtain ⟨row'', mem'', same'⟩ := grown'.hostIds row' mem'
    exact ⟨row'', mem'', same'.trans same⟩
  runnerFacts fact mem := by
    rcases grown'.runnerFacts fact mem with old | known
    · rcases grown.runnerFacts fact old with old | ⟨row, mem, same⟩
      · exact .inl old
      · obtain ⟨row', mem', same'⟩ := grown'.runnerIds row mem
        exact .inr ⟨row', mem', same'.trans same⟩
    · exact .inr known
  hostFacts fact mem := by
    rcases grown'.hostFacts fact mem with old | known
    · rcases grown.hostFacts fact old with old | ⟨row, mem, same⟩
      · exact .inl old
      · obtain ⟨row', mem', same'⟩ := grown'.hostIds row mem
        exact .inr ⟨row', mem', same'.trans same⟩
    · exact .inr known

/-! ## Groups and the facts -/

theorem retired_iff : (groups registry).Retired runnerId ↔
    isRetired registry.runnerLifecycle runnerId = true := by
  rw [Groups.Retired, groups, List.getLast?_map, isRetired, Log.value, Log.newest]
  cases (registry.runnerLifecycle.of runnerId).getLast? <;> simp

/-- Hosts are only ever retired, so a host with a lifecycle fact is a retired one. -/
theorem closed_iff (kept : Groups.Kept (groups registry)) :
    (groups registry).Closed hostId ↔ isRetired registry.hostLifecycle hostId = true := by
  have closings : (registry.hostLifecycle.of hostId).map (·.value.retired) = [] ∨
      (registry.hostLifecycle.of hostId).map (·.value.retired) = [true] := kept.closings hostId
  rw [Groups.Closed, groups, isRetired, Log.value, Log.newest]
  rcases closings with none_ | one
  · have empty : registry.hostLifecycle.of hostId = [] := List.map_eq_nil_iff.mp none_
    simp [empty]
  · obtain ⟨fact, single, retired⟩ : ∃ fact, registry.hostLifecycle.of hostId = [fact] ∧
        fact.value.retired = true := by
      cases facts : registry.hostLifecycle.of hostId with
      | nil => simp [facts] at one
      | cons fact rest =>
        rw [facts, List.map_cons, List.cons.injEq, List.map_eq_nil_iff] at one
        exact ⟨fact, by rw [one.2], one.1⟩
    simp [single, retired]

/-- While a runner's version stands, so does what the read said of its retirement. -/
theorem SawRunner.retired_eq (saw : SawRunner registry runner)
    (stands : registry.runnerLifecycle.version runner.runnerId = runner.lifecycleVersion) :
    isRetired registry.runnerLifecycle runner.runnerId = runner.retired := by
  obtain ⟨value, saw, same⟩ := saw.lifecycle
  rw [isRetired, saw.stands stands, same]

theorem SawHost.retired_eq (saw : SawHost registry host)
    (stands : registry.hostLifecycle.version host.hostId = host.lifecycleVersion) :
    isRetired registry.hostLifecycle host.hostId = host.retired := by
  obtain ⟨value, saw, same⟩ := saw.lifecycle
  rw [isRetired, saw.stands stands, same]

theorem SawHost.later (saw : SawHost registry host) (grown : Grown registry after) :
    SawHost after host where
  known := by
    obtain ⟨row, mem, same⟩ := saw.known
    obtain ⟨row', mem', same'⟩ := grown.hostIds row mem
    exact ⟨row', mem', same'.trans same⟩
  lifecycle := by
    obtain ⟨value, saw, same⟩ := saw.lifecycle
    exact ⟨value, saw.later grown.hosts, same⟩

theorem SawRunner.later (saw : SawRunner registry runner) (grown : Grown registry after) :
    SawRunner after runner where
  known := by
    obtain ⟨row, mem, same⟩ := saw.known
    obtain ⟨row', mem', same'⟩ := grown.runnerIds row mem
    exact ⟨row', mem', same'.trans same⟩
  lifecycle := by
    obtain ⟨value, saw, same⟩ := saw.lifecycle
    exact ⟨value, saw.later grown.runners, same⟩
  under stands retired := by
    obtain ⟨value, seen, same⟩ := saw.lifecycle
    have stood : registry.runnerLifecycle.version runner.runnerId = runner.lifecycleVersion :=
      le_antisymm (stands ▸ grown.runners.version_le runner.runnerId) seen.reached
    have unmoved : after.runnerLifecycle.of runner.runnerId =
        registry.runnerLifecycle.of runner.runnerId := by
      rcases grown.runners.of_or runner.runnerId with still | risen
      · exact still
      · omega
    have retired' : (groups registry).Retired runner.runnerId := by
      rw [retired_iff, saw.retired_eq stood, retired]
    have history : (groups after).history runner.runnerId =
        (groups registry).history runner.runnerId := by
      simp only [groups, unmoved]
    rcases Groups.retired_under_steps grown.members retired' history with still | alone
    · rw [still]
      exact saw.under stood retired
    · exact .inr alone

/-- A registration read now says what its facts say. -/
theorem sawRunner_now {row : RegistrationRow}
    (found : registry.runners.rows.find? (fun row => decide (row.runnerId = runnerId)) = some row) :
    SawRunner registry (registry.registration row) where
  known := ⟨row, List.mem_of_find?_eq_some found, rfl⟩
  lifecycle := ⟨_, Log.saw_now _ _, rfl⟩
  under _ _ := by
    have own : row.runnerId = runnerId := by simpa using List.find?_some found
    left
    simp only [groups, Registry.registration, own, found, Option.bind_some]

theorem sawHost_now {row : HostRow} (mem : row ∈ registry.hosts.rows) :
    SawHost registry (registry.host row) where
  known := ⟨row, mem, rfl⟩
  lifecycle := ⟨_, Log.saw_now _ _, rfl⟩

/-! ## The store's writes -/

/-- A write that leaves every member where it stands, and the lifecycles. -/
theorem grown_of_same (runners : after.runnerLifecycle = registry.runnerLifecycle)
    (hosts : after.hostLifecycle = registry.hostLifecycle)
    (under : (groups after).under = (groups registry).under)
    (runnerIds : ∀ row ∈ registry.runners.rows, ∃ row' ∈ after.runners.rows,
      row'.runnerId = row.runnerId)
    (hostIds : ∀ row ∈ registry.hosts.rows, ∃ row' ∈ after.hosts.rows, row'.hostId = row.hostId) :
    Grown registry after where
  runners := runners ▸ .refl _
  hosts := hosts ▸ .refl _
  members := by
    have same : groups after = groups registry := by
      have histories : (groups after).history = (groups registry).history := by
        simp only [groups, runners]
      have closings : (groups after).closings = (groups registry).closings := by
        simp only [groups, hosts]
      cases own : groups after
      cases own' : groups registry
      simp only [own, own'] at under histories closings
      rw [under, histories, closings]
    rw [same]
  runnerIds := runnerIds
  hostIds := hostIds
  runnerFacts fact mem := .inl (runners ▸ mem)
  hostFacts fact mem := .inl (hosts ▸ mem)

section SetRunner
variable {change : RegistrationRow → RegistrationRow} {keeps : ∀ row, (change row).runnerId = row.runnerId}

theorem find_setRunner (other : RunnerId) :
    ((setRunner registry runnerId change keeps).runners.rows.find? fun row =>
      decide (row.runnerId = other)) =
        (registry.runners.rows.find? fun row => decide (row.runnerId = other)).map fun row =>
          if row.runnerId = runnerId then change row else row := by
  simp only [setRunner, UniqueTable.update, List.find?_map]
  congr 2
  funext row
  simp only [Function.comp_apply]
  split
  · rw [keeps]
  · rfl

theorem setRunner_ids : ∀ row ∈ registry.runners.rows,
    ∃ row' ∈ (setRunner registry runnerId change keeps).runners.rows, row'.runnerId = row.runnerId := by
  intro row mem
  refine ⟨if row.runnerId = runnerId then change row else row, List.mem_map.mpr ⟨row, mem, rfl⟩, ?_⟩
  split
  · exact keeps row
  · rfl

/-- A change of a row's other columns. -/
theorem grown_setRunner (still : ∀ row, (change row).hostId = row.hostId) :
    Grown registry (setRunner registry runnerId change keeps) := by
  refine grown_of_same rfl rfl (funext fun other => ?_) setRunner_ids fun row mem => ⟨row, mem, rfl⟩
  simp only [groups, find_setRunner, Option.bind_map]
  congr 1
  funext row
  simp only [Function.comp_apply]
  split
  · exact still row
  · rfl

/-- The runner stands under the host it is moved to, or alone. -/
theorem under_setRunner {to_ : Option String} (moves : ∀ row, (change row).hostId = to_)
    (known : ∃ row ∈ registry.runners.rows, row.runnerId = runnerId) :
    (groups (setRunner registry runnerId change keeps)).under =
      Function.update (groups registry).under runnerId to_ := by
  funext other
  simp only [groups, find_setRunner, Option.bind_map]
  by_cases same : other = runnerId
  · subst same
    rw [Function.update_self]
    obtain ⟨row, mem, rfl⟩ := known
    simp [UniqueTable.find_of_mem mem, moves]
  · rw [Function.update_of_ne same]
    cases found : registry.runners.rows.find? fun row => decide (row.runnerId = other) with
    | none => rfl
    | some row' =>
      have own' : row'.runnerId = other := by simpa using List.find?_some found
      simp [own', same]

end SetRunner

theorem requireRunners_ok {expected : List (RunnerId × ℕ)}
    (held : requireRunners registry expected = .ok ()) :
    ∀ entry ∈ expected, registry.runnerLifecycle.version entry.1 = entry.2 := by
  intro entry mem
  rw [requireRunners] at held
  split at held
  · cases held
  · rename_i none_
    have stands := List.find?_eq_none.mp none_ entry (List.mem_mergeSort.mpr mem)
    simpa using stands

theorem requireHost_ok {expected : ℕ} (held : requireHost registry hostId expected = .ok ()) :
    registry.hostLifecycle.version hostId = expected := by
  rw [requireHost] at held
  split at held
  · cases held
  · rename_i stands
    exact not_not.mp stands

/-- A runner moved on or off a host, by one step of its membership. -/
theorem grown_moved {change : RegistrationRow → RegistrationRow}
    {keeps : ∀ row, (change row).runnerId = row.runnerId} {to_ : Option String}
    (moves : ∀ row, (change row).hostId = to_)
    (known : ∃ row ∈ registry.runners.rows, row.runnerId = runnerId)
    (step : Groups.Step (groups registry)
      { groups registry with under := Function.update (groups registry).under runnerId to_ }) :
    Grown registry (setRunner registry runnerId change keeps) where
  runners := .refl _
  hosts := .refl _
  members := by
    have same : groups (setRunner registry runnerId change keeps) =
        { groups registry with under := Function.update (groups registry).under runnerId to_ } := by
      have moved : (groups (setRunner registry runnerId change keeps)).under = _ := under_setRunner moves known
      rw [← moved]
      rfl
    rw [same]
    exact Relation.ReflTransGen.single step
  runnerIds := setRunner_ids
  hostIds row mem := ⟨row, mem, rfl⟩
  runnerFacts _ mem := .inl mem
  hostFacts _ mem := .inl mem

/-- What a registry keeps: its membership's rules, and every fact's foreign key. -/
structure Founded (registry : Registry) : Prop where
  kept : Groups.Kept (groups registry)
  runnerFacts : ∀ fact ∈ registry.runnerLifecycle.facts,
    ∃ row ∈ registry.runners.rows, row.runnerId = fact.key
  hostFacts : ∀ fact ∈ registry.hostLifecycle.facts, ∃ row ∈ registry.hosts.rows, row.hostId = fact.key

theorem Founded.grown (founded : Founded registry) (grown : Grown registry after) :
    Founded after where
  kept := Groups.kept_steps grown.members founded.kept
  runnerFacts fact mem := by
    rcases grown.runnerFacts fact mem with old | known
    · obtain ⟨row, mem, same⟩ := founded.runnerFacts fact old
      obtain ⟨row', mem', same'⟩ := grown.runnerIds row mem
      exact ⟨row', mem', same'.trans same⟩
    · exact known
  hostFacts fact mem := by
    rcases grown.hostFacts fact mem with old | known
    · obtain ⟨row, mem, same⟩ := founded.hostFacts fact old
      obtain ⟨row', mem', same'⟩ := grown.hostIds row mem
      exact ⟨row', mem', same'.trans same⟩
    · exact known

theorem grown_place (kept : Groups.Kept (groups registry))
    (live : isRetired registry.runnerLifecycle runnerId = false)
    (open_ : isRetired registry.hostLifecycle hostId = false)
    (placed : place hostId registry runnerId = .ok after) :
    Grown registry after ∧ after.runnerLifecycle = registry.runnerLifecycle ∧
      after.hostLifecycle = registry.hostLifecycle := by
  rw [place] at placed
  split at placed
  · rename_i alone
    obtain rfl := Except.ok.inj placed
    obtain ⟨row, mem, own⟩ := List.any_eq_true.mp alone
    refine ⟨grown_moved (fun _ => rfl) ⟨row, mem, by simpa using (Bool.and_eq_true_iff.mp own).1⟩ ?_,
      rfl, rfl⟩
    refine .place runnerId hostId ?_ ?_
    · rw [retired_iff, live]
      simp
    · rw [closed_iff kept, open_]
      simp
  · cases placed

/-- Runners placed under a live host, one after the other. -/
theorem grown_placed {runnerIds : List RunnerId} (founded : Founded registry)
    (live : ∀ runnerId ∈ runnerIds, isRetired registry.runnerLifecycle runnerId = false)
    (open_ : isRetired registry.hostLifecycle hostId = false)
    (placed : runnerIds.foldlM (place hostId) registry = .ok after) : Grown registry after := by
  induction runnerIds generalizing registry with
  | nil =>
    obtain rfl := Except.ok.inj placed
    exact .refl _
  | cons runnerId runnerIds ih =>
    rw [List.foldlM_cons] at placed
    obtain ⟨middle, first, rest⟩ := bind_ok placed
    obtain ⟨grown, runners, hosts⟩ :=
      grown_place founded.kept (live runnerId List.mem_cons_self) open_ first
    refine grown.trans (ih (founded.grown grown) (fun other mem => ?_) (hosts ▸ open_) rest)
    rw [runners]
    exact live other (List.mem_cons_of_mem _ mem)

theorem grown_letGo (kept : Groups.Kept (groups registry))
    (ended : isRetired registry.hostLifecycle hostId = true →
      isRetired registry.runnerLifecycle runnerId = true)
    (left : letGo hostId registry runnerId = .ok after) :
    Grown registry after ∧ after.runnerLifecycle = registry.runnerLifecycle ∧
      after.hostLifecycle = registry.hostLifecycle := by
  rw [letGo] at left
  split at left
  · rename_i stands
    obtain rfl := Except.ok.inj left
    obtain ⟨row, mem, both⟩ := List.any_eq_true.mp stands
    obtain ⟨own, under⟩ := Bool.and_eq_true_iff.mp both
    have own : row.runnerId = runnerId := by simpa using own
    have under : row.hostId = some hostId := by simpa using under
    refine ⟨grown_moved (fun _ => rfl) ⟨row, mem, own⟩ (.letGo runnerId fun h stands closed => ?_),
      rfl, rfl⟩
    have found : registry.runners.rows.find? (fun row => decide (row.runnerId = runnerId)) = some row :=
      own ▸ UniqueTable.find_of_mem mem
    rw [groups] at stands
    simp only [found, Option.bind_some, under, Option.some.injEq] at stands
    rw [retired_iff]
    exact ended ((closed_iff kept).mp (stands ▸ closed))
  · cases left

/-- Runners returned to standing alone, one after the other. -/
theorem grown_left {runnerIds : List RunnerId} (founded : Founded registry)
    (ended : ∀ runnerId ∈ runnerIds, isRetired registry.hostLifecycle hostId = true →
      isRetired registry.runnerLifecycle runnerId = true)
    (left : runnerIds.foldlM (letGo hostId) registry = .ok after) : Grown registry after := by
  induction runnerIds generalizing registry with
  | nil =>
    obtain rfl := Except.ok.inj left
    exact .refl _
  | cons runnerId runnerIds ih =>
    rw [List.foldlM_cons] at left
    obtain ⟨middle, first, rest⟩ := bind_ok left
    obtain ⟨grown, runners, hosts⟩ :=
      grown_letGo founded.kept (ended runnerId List.mem_cons_self) first
    refine grown.trans (ih (founded.grown grown) (fun other mem => ?_) rest)
    rw [runners, hosts]
    exact ended other (List.mem_cons_of_mem _ mem)

end Blizzard.FleetSteps
