import Blizzard.FleetSteps

/-! # Requests on the registry

One request of an operator, of a runner or of a host: what it decides on was
read earlier, and its write is one transaction. Whatever was read when, the
write moves the membership by allowed steps only. -/
namespace Blizzard.FleetRequests
open BearerTokens HubTables RouteLiveness UniqueRows VersionedFacts FleetRegistry FleetWrites
open FleetMembership FleetSteps ExceptRules

inductive Request
  | addRunner (row : RegistrationRow) (tokenHash : String)
  | addRunnerUnder (host : Host) (row : RegistrationRow) (tokenHash : String)
  | enrollRunner (runner : RunnerRegistration) (tokenHash : String) (at_ : Instant)
  | revokeRunner (runner : RunnerRegistration) (stamp : Stamp)
  | register (held : RunnerRegistration) (reported : Reported) (judgement : VersionJudgement)
      (at_ : Instant)
  | heartbeat (runner : RunnerRegistration) (at_ : Instant)
  | setPaused (runner : RunnerRegistration) (fact : PauseFact)
  | addHost (row : HostRow) (tokenHash : String) (adopting : List RunnerRegistration)
  | enrollHost (host : Host) (tokenHash : String) (at_ : Instant)
  | revokeHost (host : Host) (stamp : Stamp)
  | adopt (host : Host) (runners : List RunnerRegistration)
  | release (host : Host) (runners : List RunnerRegistration)
  | report (host : Host) (reported : HostReport) (otherLiveNames : List String) (at_ : Instant)
  deriving DecidableEq

/-- The registrations the request decides on. -/
def Request.runners : Request → List RunnerRegistration
  | .enrollRunner runner _ _ | .revokeRunner runner _ | .register runner _ _ _
  | .heartbeat runner _ | .setPaused runner _ => [runner]
  | .addHost _ _ runners | .adopt _ runners | .release _ runners => runners
  | .addRunner _ _ | .addRunnerUnder _ _ _ | .enrollHost _ _ _ | .revokeHost _ _
  | .report _ _ _ _ => []

def Request.hosts : Request → List Host
  | .addRunnerUnder host _ _ | .enrollHost host _ _ | .revokeHost host _ | .adopt host _
  | .release host _ | .report host _ _ _ => [host]
  | .addRunner _ _ | .enrollRunner _ _ _ | .revokeRunner _ _ | .register _ _ _ _
  | .heartbeat _ _ | .setPaused _ _ | .addHost _ _ _ => []

/-- The registry the request leaves, or why it is refused. -/
def Request.exec (registry : Registry) : Request → Except FleetRefusal Registry
  | .addRunner row tokenHash =>
    FleetWrites.addRunner registry { row with hostId := none } tokenHash none
  | .addRunnerUnder host row tokenHash => FleetWrites.addRunnerUnder registry host row tokenHash
  | .enrollRunner runner tokenHash at_ => FleetWrites.enrollRunner registry runner tokenHash at_
  | .revokeRunner runner stamp => FleetWrites.revokeRunner registry runner stamp
  | .register held reported judgement at_ =>
    FleetWrites.register registry held reported judgement at_
  | .heartbeat runner at_ =>
    if runner.retired then .error (.runnerRetired runner.runnerId "heartbeat")
    else .ok (touchLastSeen registry runner.runnerId at_)
  | .setPaused runner fact => .ok (recordPause registry runner.runnerId fact)
  | .addHost row tokenHash runners => addHostAdopting registry row tokenHash runners
  | .enrollHost host tokenHash at_ => FleetWrites.enrollHost registry host tokenHash at_
  | .revokeHost host stamp => FleetWrites.revokeHost registry host stamp
  | .adopt host runners => adoptRunners registry host runners
  | .release host runners => releaseRunners registry host runners
  | .report host reported otherLiveNames at_ =>
    FleetWrites.report registry host reported otherLiveNames at_

variable {registry after : Registry} {runner : RunnerRegistration} {host : Host}

theorem asHostRetired_ok {α : Type} {action : String} {answer : Except FleetRefusal α} {a : α}
    (ok : asHostRetired action answer = .ok a) : answer = .ok a := by
  rw [asHostRetired.eq_def] at ok
  split at ok
  · cases ok
  · exact ok

theorem mem_versions {runners : List RunnerRegistration} (mem : runner ∈ runners) :
    (runner.runnerId, runner.lifecycleVersion) ∈ versions runners :=
  List.mem_map.mpr ⟨runner, mem, rfl⟩

theorem versions_ids (runners : List RunnerRegistration) :
    (versions runners).map (·.1) = runners.map (·.runnerId) := by
  rw [versions, List.map_map]
  rfl

theorem adopt_ok (allowed : host.adopt runner = .ok ()) :
    host.retired = false ∧ runner.retired = false := by
  rw [Host.adopt] at allowed
  split at allowed
  · cases allowed
  · rename_i permits
    split at allowed
    · cases allowed
    · rename_i live
      refine ⟨?_, by simpa using live⟩
      cases retired : host.retired with
      | false => rfl
      | true => simp [Host.permits, Host.state, retired, hostVerbs] at permits

theorem release_ok (allowed : host.release runner = .ok ()) (retired : host.retired = true) :
    runner.retired = true := by
  rw [Host.release] at allowed
  split at allowed
  · cases allowed
  · split at allowed
    · cases allowed
    · rename_i ended
      simpa [retired] using ended

theorem addingRunner_ok (allowed : host.refuseAddingRunner = .ok ()) : host.retired = false := by
  rw [Host.refuseAddingRunner] at allowed
  split at allowed
  · rename_i permits
    cases retired : host.retired with
    | false => rfl
    | true => simp [Host.permits, Host.state, retired, hostVerbs] at permits
  · cases allowed

/-- A key no fact names is retired by none. -/
theorem isRetired_unknown {K : Type*} [DecidableEq K] {log : Log K LifecycleFact} {key : K}
    (none_ : ∀ fact ∈ log.facts, fact.key ≠ key) : isRetired log key = false := by
  have empty : log.of key = [] := List.filter_eq_nil_iff.mpr fun fact mem => by
    simpa using none_ fact mem
  simp [isRetired, Log.value, Log.newest, empty]

theorem grown_addRunner {row : RegistrationRow} {tokenHash : String}
    {expectedHost : Option (String × ℕ)} (founded : Founded registry)
    (open_ : ∀ hostId, row.hostId = some hostId →
      (∃ version, expectedHost = some (hostId, version) ∧
        (registry.hostLifecycle.version hostId = version →
          isRetired registry.hostLifecycle hostId = false)))
    (added : FleetWrites.addRunner registry row tokenHash expectedHost = .ok after) :
    Grown registry after := by
  rw [FleetWrites.addRunner] at added
  obtain ⟨_, required, added⟩ := bind_ok added
  split at added
  · cases added
  rename_i runners inserted
  obtain rfl := Except.ok.inj added
  obtain ⟨fresh, rows⟩ := UniqueTable.insert_some inserted
  have absent : ∀ other ∈ registry.runners.rows, other.runnerId ≠ row.runnerId :=
    fun other mem same => fresh (List.mem_map.mpr ⟨other, mem, same⟩)
  have unretired : isRetired registry.runnerLifecycle row.runnerId = false := by
    refine isRetired_unknown fun fact mem same => ?_
    obtain ⟨other, mem', known⟩ := founded.runnerFacts fact mem
    exact absent other mem' (known.trans same)
  set new : Registry := { registry with
    runners, runnerTokens := registry.runnerTokens.issue row.runnerId tokenHash }
  have under : (groups new).under =
      Function.update (groups registry).under row.runnerId row.hostId := by
    funext other
    simp only [groups, new, rows, List.find?_append]
    by_cases same : other = row.runnerId
    · subst same
      have none_ : registry.runners.rows.find? (fun r => decide (r.runnerId = row.runnerId)) = none :=
        List.find?_eq_none.mpr fun other mem => by simpa using absent other mem
      simp [none_]
    · simp [Function.update_of_ne same, Ne.symm same]
  have runnerIds : ∀ other ∈ registry.runners.rows,
      ∃ row' ∈ new.runners.rows, row'.runnerId = other.runnerId :=
    fun other mem => ⟨other, by simp [new, rows, mem], rfl⟩
  cases own : row.hostId with
  | none =>
    refine grown_of_same rfl rfl ?_ runnerIds fun row mem => ⟨row, mem, rfl⟩
    rw [under, own]
    refine Function.update_eq_self_iff.mpr ?_
    have none_ : registry.runners.rows.find? (fun r => decide (r.runnerId = row.runnerId)) = none :=
      List.find?_eq_none.mpr fun other mem => by simpa using absent other mem
    simp [groups, none_]
  | some hostId =>
    obtain ⟨version, rfl, opens⟩ := open_ hostId own
    have stands := requireHost_ok required
    exact {
      runners := .refl _
      hosts := .refl _
      members := by
        have same : groups new =
            { groups registry with
              under := Function.update (groups registry).under row.runnerId (some hostId) } := by
          rw [← own, ← under]
          rfl
        rw [same]
        refine Relation.ReflTransGen.single (.place row.runnerId hostId ?_ ?_)
        · rw [retired_iff, unretired]
          simp
        · rw [closed_iff founded.kept, opens stands]
          simp
      runnerIds := runnerIds
      hostIds := fun row mem => ⟨row, mem, rfl⟩
      runnerFacts := fun _ mem => .inl mem
      hostFacts := fun _ mem => .inl mem }

/-- Runners that were live when read are live while their versions stand. -/
theorem live_versions {runners : List RunnerRegistration} {runnerId : RunnerId}
    (saw : ∀ runner ∈ runners, SawRunner registry runner)
    (stands : ∀ entry ∈ versions runners, registry.runnerLifecycle.version entry.1 = entry.2)
    (live : ∀ runner ∈ runners, runner.retired = false)
    (mem : runnerId ∈ (versions runners).map (·.1)) :
    isRetired registry.runnerLifecycle runnerId = false := by
  rw [versions_ids] at mem
  obtain ⟨runner, listed, rfl⟩ := List.mem_map.mp mem
  rw [(saw runner listed).retired_eq (stands _ (mem_versions listed)), live runner listed]

theorem grown_addHost {row : HostRow} {tokenHash : String} {runners : List RunnerRegistration}
    (founded : Founded registry) (saw : ∀ runner ∈ runners, SawRunner registry runner)
    (added : addHostAdopting registry row tokenHash runners = .ok after) : Grown registry after := by
  rw [addHostAdopting] at added
  obtain ⟨_, allowed, added⟩ := bind_ok added
  rw [addHost] at added
  obtain ⟨_, required, added⟩ := bind_ok added
  have stands := requireRunners_ok required
  split at added
  · cases added
  split at added
  · cases added
  rename_i hosts inserted
  obtain ⟨fresh, rows⟩ := UniqueTable.insert_some inserted
  have open_ : isRetired registry.hostLifecycle row.hostId = false := by
    refine isRetired_unknown fun fact mem same => ?_
    obtain ⟨other, mem', known⟩ := founded.hostFacts fact mem
    exact fresh (List.mem_map.mpr ⟨other, mem', known.trans same⟩)
  have founds : Grown registry { registry with
      hosts, hostTokens := registry.hostTokens.issue row.hostId tokenHash } :=
    grown_of_same rfl rfl rfl (fun row mem => ⟨row, mem, rfl⟩)
      fun other mem => ⟨other, by simp [rows, mem], rfl⟩
  refine founds.trans (grown_placed (founded.grown founds) (fun runnerId mem => ?_) open_ added)
  exact live_versions (fun runner mem => (saw runner mem).later founds) stands
    (fun runner mem => (adopt_ok (forM_ok allowed runner mem)).2) mem

theorem grown_adopt {runners : List RunnerRegistration} (founded : Founded registry)
    (saw : ∀ runner ∈ runners, SawRunner registry runner) (sawHost : SawHost registry host)
    (adopted : adoptRunners registry host runners = .ok after) : Grown registry after := by
  rw [adoptRunners] at adopted
  obtain ⟨_, allowed, adopted⟩ := bind_ok adopted
  have adopted := asHostRetired_ok adopted
  rw [FleetWrites.adopt] at adopted
  obtain ⟨_, requiredHost, adopted⟩ := bind_ok adopted
  obtain ⟨_, required, adopted⟩ := bind_ok adopted
  have stands := requireRunners_ok required
  have live : ∀ runner ∈ runners, host.retired = false ∧ runner.retired = false :=
    fun runner mem => adopt_ok (forM_ok allowed runner mem)
  cases runners with
  | nil =>
    obtain rfl := Except.ok.inj adopted
    exact .refl _
  | cons first rest =>
    have open_ : isRetired registry.hostLifecycle host.hostId = false := by
      rw [sawHost.retired_eq (requireHost_ok requiredHost), (live first List.mem_cons_self).1]
    exact grown_placed founded
      (fun runnerId mem => live_versions saw stands (fun runner mem => (live runner mem).2) mem)
      open_ adopted

theorem grown_release {runners : List RunnerRegistration} (founded : Founded registry)
    (saw : ∀ runner ∈ runners, SawRunner registry runner) (sawHost : SawHost registry host)
    (released : releaseRunners registry host runners = .ok after) : Grown registry after := by
  rw [releaseRunners] at released
  obtain ⟨_, allowed, released⟩ := bind_ok released
  rw [FleetWrites.release] at released
  obtain ⟨_, requiredHost, released⟩ := bind_ok released
  obtain ⟨_, required, released⟩ := bind_ok released
  have stands := requireRunners_ok required
  refine grown_left founded (fun runnerId mem retired => ?_) released
  rw [sawHost.retired_eq (requireHost_ok requiredHost)] at retired
  rw [versions_ids] at mem
  obtain ⟨runner, listed, rfl⟩ := List.mem_map.mp mem
  rw [(saw runner listed).retired_eq (stands _ (mem_versions listed))]
  exact release_ok (forM_ok allowed runner listed) retired

theorem grown_setHost {hostId : String} {change : HostRow → HostRow}
    {keeps : ∀ row, (change row).hostId = row.hostId} :
    Grown registry (setHost registry hostId change keeps) := by
  refine grown_of_same rfl rfl rfl (fun row mem => ⟨row, mem, rfl⟩) fun row mem => ?_
  refine ⟨if row.hostId = hostId then change row else row, List.mem_map.mpr ⟨row, mem, rfl⟩, ?_⟩
  split
  · exact keeps row
  · rfl

theorem grown_recordReport {hostId : String} {report : HostReport} {name : Option String}
    {at_ : Instant} (recorded : recordReport registry hostId report name at_ = .ok after) :
    Grown registry after := by
  rw [recordReport] at recorded
  split at recorded
  · cases recorded
  split at recorded
  · cases recorded
  · obtain rfl := Except.ok.inj recorded
    exact grown_setHost

theorem grown_report {reported : HostReport} {otherLiveNames : List String} {at_ : Instant}
    (recorded : FleetWrites.report registry host reported otherLiveNames at_ = .ok after) :
    Grown registry after := by
  rw [FleetWrites.report] at recorded
  obtain ⟨name, -, recorded⟩ := bind_ok recorded
  split at recorded
  · exact grown_recordReport recorded
  · exact grown_recordReport recorded

theorem grown_register {held : RunnerRegistration} {reported : Reported}
    {judgement : VersionJudgement} {at_ : Instant}
    (registered : FleetWrites.register registry held reported judgement at_ = .ok after) :
    Grown registry after := by
  rw [FleetWrites.register] at registered
  obtain ⟨_, -, registered⟩ := bind_ok registered
  cases refused : judgement.refusal with
  | some reason =>
    simp only [refused, recordVersionRefusal] at registered
    split at registered
    · obtain rfl := Except.ok.inj registered
      exact grown_setRunner fun _ => rfl
    · cases registered
  | none =>
    simp only [refused, recordRegistration] at registered
    split at registered
    · obtain rfl := Except.ok.inj registered
      exact grown_setRunner fun _ => rfl
    · cases registered

/-- A write of the tokens or the pauses moves nobody. -/
theorem grown_aside {runnerTokens : Tokens RunnerId String Stamp} {runnerPauses : Log RunnerId PauseFact}
    {hostTokens : Tokens String String Stamp} :
    Grown registry { registry with runnerTokens, runnerPauses, hostTokens } :=
  grown_of_same rfl rfl rfl (fun row mem => ⟨row, mem, rfl⟩) fun row mem => ⟨row, mem, rfl⟩

/-- Whatever was read when, a request moves the membership by its allowed steps. -/
theorem grown_exec {request : Request} (founded : Founded registry)
    (saw : ∀ runner ∈ request.runners, SawRunner registry runner)
    (sawHosts : ∀ host ∈ request.hosts, SawHost registry host)
    (done : request.exec registry = .ok after) : Grown registry after := by
  cases request with
  | addRunner row tokenHash =>
    refine grown_addRunner founded (fun hostId own => ?_) done
    cases own
  | addRunnerUnder host row tokenHash =>
    have sawHost := sawHosts host List.mem_cons_self
    simp only [Request.exec, FleetWrites.addRunnerUnder] at done
    obtain ⟨_, allowed, done⟩ := bind_ok done
    refine grown_addRunner founded (fun hostId own => ?_) (asHostRetired_ok done)
    obtain rfl := Option.some.inj own
    refine ⟨host.lifecycleVersion, rfl, fun stands => ?_⟩
    rw [sawHost.retired_eq stands]
    exact addingRunner_ok allowed
  | enrollRunner runner tokenHash at_ =>
    simp only [Request.exec, FleetWrites.enrollRunner] at done
    obtain ⟨rotation, -, done⟩ := bind_ok done
    obtain rfl := Except.ok.inj done
    exact grown_aside
  | revokeRunner runner stamp =>
    simp only [Request.exec, FleetWrites.revokeRunner] at done
    obtain ⟨_, -, done⟩ := bind_ok done
    obtain ⟨revoked, revoking, done⟩ := bind_ok done
    rw [FleetWrites.revokeToken] at revoking
    obtain ⟨_, -, revoking⟩ := bind_ok revoking
    obtain rfl := Except.ok.inj revoking
    split at done
    · cases done
    · obtain rfl := Except.ok.inj done
      exact grown_aside
  | register held reported judgement at_ => exact grown_register done
  | heartbeat runner at_ =>
    simp only [Request.exec] at done
    split at done
    · cases done
    · obtain rfl := Except.ok.inj done
      refine grown_setRunner fun row => ?_
      split <;> rfl
  | setPaused runner fact =>
    obtain rfl := Except.ok.inj done
    exact grown_aside
  | addHost row tokenHash runners => exact grown_addHost founded saw done
  | enrollHost host tokenHash at_ =>
    simp only [Request.exec, FleetWrites.enrollHost] at done
    obtain ⟨rotation, -, done⟩ := bind_ok done
    obtain rfl := Except.ok.inj done
    exact grown_aside
  | revokeHost host stamp =>
    simp only [Request.exec, FleetWrites.revokeHost] at done
    obtain ⟨_, -, done⟩ := bind_ok done
    split at done
    · cases done
    · obtain rfl := Except.ok.inj done
      exact grown_aside
  | adopt host runners => exact grown_adopt founded saw (sawHosts host List.mem_cons_self) done
  | release host runners => exact grown_release founded saw (sawHosts host List.mem_cons_self) done
  | report host reported otherLiveNames at_ => exact grown_report done

/-! ## No request writes a runner's lifecycle -/

/-- The token a request asks to issue, and to which runner. -/
def Request.toRunner : Request → Option (String × RunnerId)
  | .addRunner row tokenHash | .addRunnerUnder _ row tokenHash => some (tokenHash, row.runnerId)
  | .enrollRunner runner tokenHash _ => some (tokenHash, runner.runnerId)
  | _ => none

def Request.toHost : Request → Option (String × String)
  | .addHost row tokenHash _ => some (tokenHash, row.hostId)
  | .enrollHost host tokenHash _ => some (tokenHash, host.hostId)
  | _ => none

/-- What a request leaves of the runners' lifecycles and of the tokens. -/
structure Leaves (request : Request) (registry after : Registry) : Prop where
  lifecycle : after.runnerLifecycle = registry.runnerLifecycle
  runnerTokens : Tokens.Step request.toRunner registry.runnerTokens after.runnerTokens
  hostTokens : Tokens.Step request.toHost registry.hostTokens after.hostTokens

/-- The tables that a change of the rows leaves alone. -/
structure Still (registry after : Registry) : Prop where
  lifecycle : after.runnerLifecycle = registry.runnerLifecycle
  runnerTokens : after.runnerTokens = registry.runnerTokens
  hostTokens : after.hostTokens = registry.hostTokens

theorem Still.leaves {request : Request} (still : Still registry after) :
    Leaves request registry after where
  lifecycle := still.lifecycle
  runnerTokens := still.runnerTokens ▸ .same
  hostTokens := still.hostTokens ▸ .same

theorem still_foldlM {move : Registry → RunnerId → Except FleetRefusal Registry}
    (still : ∀ {registry after runnerId}, move registry runnerId = .ok after → Still registry after)
    {runnerIds : List RunnerId} (moved : runnerIds.foldlM move registry = .ok after) :
    Still registry after := by
  induction runnerIds generalizing registry with
  | nil =>
    obtain rfl := Except.ok.inj moved
    exact ⟨rfl, rfl, rfl⟩
  | cons runnerId runnerIds ih =>
    rw [List.foldlM_cons] at moved
    obtain ⟨middle, first, rest⟩ := bind_ok moved
    obtain ⟨lifecycle, runnerTokens, hostTokens⟩ := still first
    obtain ⟨lifecycle', runnerTokens', hostTokens'⟩ := ih rest
    exact ⟨lifecycle'.trans lifecycle, runnerTokens'.trans runnerTokens, hostTokens'.trans hostTokens⟩

theorem still_place {hostId : String} {runnerId : RunnerId}
    (placed : place hostId registry runnerId = .ok after) : Still registry after := by
  rw [place] at placed
  split at placed
  · obtain rfl := Except.ok.inj placed
    exact ⟨rfl, rfl, rfl⟩
  · cases placed

theorem still_letGo {hostId : String} {runnerId : RunnerId}
    (left : letGo hostId registry runnerId = .ok after) : Still registry after := by
  rw [letGo] at left
  split at left
  · obtain rfl := Except.ok.inj left
    exact ⟨rfl, rfl, rfl⟩
  · cases left

theorem leaves_addRunner {request : Request} {row : RegistrationRow} {tokenHash : String}
    {expectedHost : Option (String × ℕ)}
    (added : FleetWrites.addRunner registry row tokenHash expectedHost = .ok after)
    (own : request.toRunner = some (tokenHash, row.runnerId)) :
    Leaves request registry after := by
  rw [FleetWrites.addRunner] at added
  obtain ⟨_, -, added⟩ := bind_ok added
  split at added
  · cases added
  · obtain rfl := Except.ok.inj added
    exact ⟨rfl, .issue tokenHash row.runnerId own, .same⟩

theorem still_recordReport {hostId : String} {report : HostReport} {name : Option String}
    {at_ : Instant} (recorded : recordReport registry hostId report name at_ = .ok after) :
    Still registry after := by
  rw [recordReport] at recorded
  split at recorded
  · cases recorded
  split at recorded
  · cases recorded
  · obtain rfl := Except.ok.inj recorded
    exact ⟨rfl, rfl, rfl⟩

theorem still_register {held : RunnerRegistration} {reported : Reported} {judgement : VersionJudgement}
    {at_ : Instant} (registered : FleetWrites.register registry held reported judgement at_ = .ok after) :
    Still registry after := by
  obtain ⟨_, -, registered⟩ := bind_ok registered
  cases refused : judgement.refusal with
  | some reason =>
    simp only [refused, recordVersionRefusal] at registered
    split at registered
    · obtain rfl := Except.ok.inj registered
      exact ⟨rfl, rfl, rfl⟩
    · cases registered
  | none =>
    simp only [refused, recordRegistration] at registered
    split at registered
    · obtain rfl := Except.ok.inj registered
      exact ⟨rfl, rfl, rfl⟩
    · cases registered

theorem leaves_exec {request : Request} (done : request.exec registry = .ok after) :
    Leaves request registry after := by
  cases request with
  | addRunner row tokenHash => exact leaves_addRunner done rfl
  | addRunnerUnder host row tokenHash =>
    obtain ⟨_, -, done⟩ := bind_ok done
    exact leaves_addRunner (asHostRetired_ok done) rfl
  | enrollRunner runner tokenHash at_ =>
    obtain ⟨rotation, enrolled, done⟩ := bind_ok done
    obtain rfl := Except.ok.inj done
    rw [RunnerRegistration.enroll] at enrolled
    split at enrolled
    · obtain rfl := Except.ok.inj enrolled
      exact ⟨rfl, .rotate tokenHash runner.runnerId _ rfl, .same⟩
    · cases enrolled
  | revokeRunner runner stamp =>
    obtain ⟨_, -, done⟩ := bind_ok done
    obtain ⟨revoked, revoking, done⟩ := bind_ok done
    obtain ⟨_, -, revoking⟩ := bind_ok revoking
    obtain rfl := Except.ok.inj revoking
    split at done
    · cases done
    · obtain rfl := Except.ok.inj done
      exact ⟨rfl, .revoke runner.runnerId stamp, .same⟩
  | register held reported judgement at_ => exact (still_register done).leaves
  | heartbeat runner at_ =>
    simp only [Request.exec] at done
    split at done
    · cases done
    · obtain rfl := Except.ok.inj done
      exact ⟨rfl, .same, .same⟩
  | setPaused runner fact =>
    obtain rfl := Except.ok.inj done
    exact ⟨rfl, .same, .same⟩
  | addHost row tokenHash runners =>
    obtain ⟨_, -, done⟩ := bind_ok done
    obtain ⟨_, -, done⟩ := bind_ok done
    split at done
    · cases done
    split at done
    · cases done
    · obtain ⟨lifecycle, runnerTokens, hostTokens⟩ := still_foldlM still_place done
      exact ⟨lifecycle, runnerTokens ▸ .same, hostTokens ▸ .issue tokenHash row.hostId rfl⟩
  | enrollHost host tokenHash at_ =>
    obtain ⟨rotation, enrolled, done⟩ := bind_ok done
    obtain rfl := Except.ok.inj done
    rw [Host.enroll] at enrolled
    split at enrolled
    · obtain rfl := Except.ok.inj enrolled
      exact ⟨rfl, .same, .rotate tokenHash host.hostId _ rfl⟩
    · cases enrolled
  | revokeHost host stamp =>
    obtain ⟨_, -, done⟩ := bind_ok done
    split at done
    · cases done
    · obtain rfl := Except.ok.inj done
      exact ⟨rfl, .same, .revoke host.hostId stamp⟩
  | adopt host runners =>
    obtain ⟨_, -, done⟩ := bind_ok done
    have done := asHostRetired_ok done
    obtain ⟨_, -, done⟩ := bind_ok done
    obtain ⟨_, -, done⟩ := bind_ok done
    exact (still_foldlM still_place done).leaves
  | release host runners =>
    obtain ⟨_, -, done⟩ := bind_ok done
    obtain ⟨_, -, done⟩ := bind_ok done
    obtain ⟨_, -, done⟩ := bind_ok done
    exact (still_foldlM still_letGo done).leaves
  | report host reported otherLiveNames at_ =>
    obtain ⟨name, -, done⟩ := bind_ok done
    split at done
    · exact (still_recordReport done).leaves
    · exact (still_recordReport done).leaves

theorem retireHost_leaves {holdings : List (RunnerId × List Route)} {force : Bool} {stamp : Stamp}
    (retired : FleetWrites.retireHost registry host holdings force stamp = .ok after) :
    after.runnerLifecycle = registry.runnerLifecycle ∧ after.runnerTokens = registry.runnerTokens ∧
      after.hostTokens = registry.hostTokens.revoke host.hostId stamp := by
  obtain ⟨fact, -, retired⟩ := bind_ok retired
  obtain ⟨_, -, retired⟩ := bind_ok retired
  obtain rfl := Except.ok.inj retired
  exact ⟨rfl, rfl, rfl⟩

/-- Another retirement leaves who is retired so. -/
theorem isRetired_append {log : Log RunnerId LifecycleFact} {key other : RunnerId} {fact : LifecycleFact}
    (retires : fact.retired = true) (retired : isRetired log other = true) :
    isRetired (log.append key fact) other = true := by
  by_cases same : other = key
  · subst same
    simp [isRetired, retires]
  · rw [isRetired, Log.value_append_other same]
    exact retired

/-! ## Retirement and reinstatement -/

/-- The unit of a retire: the runner stands retired at the version its release acts on, and its token
is revoked. -/
structure Retires (registry : Registry) (runner : RunnerRegistration) (unit : RetireUnit) : Prop where
  grown : Grown registry unit.registry
  version : unit.registry.runnerLifecycle.version runner.runnerId = unit.version
  retired : isRetired unit.registry.runnerLifecycle runner.runnerId = true
  runnerTokens : ∃ stamp, unit.registry.runnerTokens = registry.runnerTokens.revoke runner.runnerId stamp
  hostTokens : unit.registry.hostTokens = registry.hostTokens
  lifecycle : unit.registry.runnerLifecycle = registry.runnerLifecycle ∨ ∃ fact, fact.retired = true ∧
    unit.registry.runnerLifecycle = registry.runnerLifecycle.append runner.runnerId fact

theorem requireRunners_single {expected : ℕ} {runnerId : RunnerId}
    (held : requireRunners registry [(runnerId, expected)] = .ok ()) :
    registry.runnerLifecycle.version runnerId = expected :=
  requireRunners_ok held _ List.mem_cons_self

/-- A lifecycle fact of a known runner that its membership's rules allow. -/
theorem grown_recordLifecycle {runnerId : RunnerId} {fact : LifecycleFact} {expected : ℕ}
    {expectedHost : Option (String × ℕ)}
    (known : ∃ row ∈ registry.runners.rows, row.runnerId = runnerId)
    (step : registry.runnerLifecycle.version runnerId = expected →
      (∀ host, expectedHost = some host → registry.hostLifecycle.version host.1 = host.2) →
      Groups.Step (groups registry) { groups registry with
        history := Function.update (groups registry).history runnerId
          ((groups registry).history runnerId ++ [fact.retired]) })
    (recorded : recordLifecycle registry runnerId fact expected expectedHost = .ok after) :
    Grown registry after ∧
      after = { registry with
        runnerLifecycle := registry.runnerLifecycle.append runnerId fact } := by
  rw [recordLifecycle] at recorded
  obtain ⟨_, required, recorded⟩ := bind_ok recorded
  obtain ⟨_, requiredHost, recorded⟩ := bind_ok recorded
  obtain rfl := Except.ok.inj recorded
  have allowed := step (requireRunners_single required) (by
    rintro host rfl
    exact requireHost_ok requiredHost)
  refine ⟨?_, rfl⟩
  exact {
    runners := Log.extends_append _ _ _
    hosts := .refl _
    members := by
      have same : groups { registry with
            runnerLifecycle := registry.runnerLifecycle.append runnerId fact } =
          { groups registry with
            history := Function.update (groups registry).history runnerId
              ((groups registry).history runnerId ++ [fact.retired]) } := by
        have histories : (groups { registry with
              runnerLifecycle := registry.runnerLifecycle.append runnerId fact }).history =
            Function.update (groups registry).history runnerId
              ((groups registry).history runnerId ++ [fact.retired]) := by
          funext other
          by_cases same : other = runnerId
          · subst same
            simp [groups]
          · rw [Function.update_of_ne same]
            simp only [groups, Log.of_append_other same]
        rw [← histories]
        rfl
      rw [same]
      exact Relation.ReflTransGen.single allowed
    runnerIds := fun row mem => ⟨row, mem, rfl⟩
    hostIds := fun row mem => ⟨row, mem, rfl⟩
    runnerFacts := fun new mem => by
      rcases List.mem_append.mp mem with old | own
      · exact .inl old
      · rw [List.mem_singleton.mp own]
        exact .inr known
    hostFacts := fun _ mem => .inl mem }

theorem revokeToken_ok {runnerId : RunnerId} {expected : ℕ} {stamp : Stamp}
    (revoked : FleetWrites.revokeToken registry runnerId expected stamp = .ok after) :
    registry.runnerLifecycle.version runnerId = expected ∧
      after = { registry with runnerTokens := registry.runnerTokens.revoke runnerId stamp } := by
  rw [FleetWrites.revokeToken] at revoked
  obtain ⟨_, required, revoked⟩ := bind_ok revoked
  exact ⟨requireRunners_single required, (Except.ok.inj revoked).symm⟩

theorem retires_retireUnit {holdings : List Route} {force : Bool} {stamp : Stamp} {unit : RetireUnit}
    (saw : SawRunner registry runner)
    (retires : retireUnit registry runner holdings force stamp = .ok unit) :
    Retires registry runner unit := by
  rw [retireUnit] at retires
  obtain ⟨fact, retire, retires⟩ := bind_ok retires
  rw [RunnerRegistration.retire] at retire
  split at retire
  · rename_i already
    obtain rfl := Except.ok.inj retire
    obtain ⟨revoking, revoke, retires⟩ := bind_ok retires
    obtain rfl := Except.ok.inj retires
    obtain ⟨stands, rfl⟩ := revokeToken_ok revoke
    have retired : runner.retired = true := by
      rw [RunnerRegistration.state] at already
      split at already
      · assumption
      · split at already <;> cases already
    exact {
      grown := grown_aside
      version := stands
      retired := by rw [← retired, ← saw.retired_eq stands]
      runnerTokens := ⟨stamp, rfl⟩
      hostTokens := rfl
      lifecycle := .inl rfl }
  · rename_i live
    split at retire
    · cases retire
    obtain rfl := Except.ok.inj retire
    obtain ⟨retired, record, retires⟩ := bind_ok retires
    obtain ⟨revoking, revoke, retires⟩ := bind_ok retires
    obtain rfl := Except.ok.inj retires
    obtain ⟨grown, rfl⟩ := grown_recordLifecycle saw.known (fun stands _ => by
      refine .retire runner.runnerId ?_
      rw [retired_iff, saw.retired_eq stands]
      intro retired
      simp [RunnerRegistration.state, retired] at live) record
    obtain ⟨-, rfl⟩ := revokeToken_ok revoke
    exact {
      grown := grown.trans grown_aside
      version := by simp
      retired := by simp [isRetired]
      runnerTokens := ⟨stamp, rfl⟩
      hostTokens := rfl
      lifecycle := .inr ⟨_, rfl, rfl⟩ }

/-- The runner a reinstatement decides on was retired, and its host still took runners. -/
theorem decideReinstatement_ok {under : Option Host} {stamp : Stamp} {fact : LifecycleFact}
    (decided : decideReinstatement runner under stamp = .ok fact) :
    runner.retired = true ∧ fact.retired = false ∧ ∀ host ∈ under, host.retired = false := by
  rw [decideReinstatement] at decided
  obtain ⟨own, reinstate, decided⟩ := bind_ok decided
  obtain ⟨_, allowed, decided⟩ := bind_ok decided
  obtain rfl := Except.ok.inj decided
  rw [RunnerRegistration.reinstate] at reinstate
  split at reinstate
  · rename_i permits
    obtain rfl := Except.ok.inj reinstate
    refine ⟨?_, rfl, ?_⟩
    · cases retired : runner.retired with
      | true => rfl
      | false =>
        cases token : runner.tokenHash <;>
          simp [RunnerRegistration.permits, RunnerRegistration.state, retired, token, runnerVerbs]
            at permits
    · rintro host rfl
      replace allowed : host.refuseReinstatingRunner = .ok () := allowed
      rw [Host.refuseReinstatingRunner] at allowed
      split at allowed
      · rename_i permits
        cases retired : host.retired with
        | false => rfl
        | true => simp [Host.permits, Host.state, retired, hostVerbs] at permits
      · cases allowed
  · cases reinstate

/-- What a reinstatement was decided on, as the registry has come to stand since. -/
structure Reinstating (registry : Registry) (runner : RunnerRegistration) (under : Option Host) :
    Prop where
  saw : SawRunner registry runner
  retired : runner.retired = true
  host : ∀ host ∈ under, SawHost registry host ∧ host.retired = false
  under : under.map (·.hostId) = runner.hostId

theorem Reinstating.later {under : Option Host} (reinstating : Reinstating registry runner under)
    (grown : Grown registry after) : Reinstating after runner under where
  saw := reinstating.saw.later grown
  retired := reinstating.retired
  host host mem := by
    obtain ⟨saw, live⟩ := reinstating.host host mem
    exact ⟨saw.later grown, live⟩
  under := reinstating.under

theorem grown_recordReinstatement {under : Option Host} {fact : LifecycleFact}
    (founded : Founded registry) (reinstating : Reinstating registry runner under)
    (unretires : fact.retired = false)
    (recorded : recordReinstatement registry runner.runnerId runner.lifecycleVersion fact under =
      .ok after) :
    registry.runnerLifecycle.version runner.runnerId = runner.lifecycleVersion ∧
      Grown registry after ∧ after = { registry with
        runnerLifecycle := registry.runnerLifecycle.append runner.runnerId fact } := by
  rw [recordReinstatement] at recorded
  have recorded := asHostRetired_ok recorded
  have stands : registry.runnerLifecycle.version runner.runnerId = runner.lifecycleVersion := by
    rw [recordLifecycle] at recorded
    obtain ⟨_, required, -⟩ := bind_ok recorded
    exact requireRunners_single required
  refine ⟨stands, grown_recordLifecycle reinstating.saw.known (fun _ standsHost => ?_) recorded⟩
  rw [unretires]
  refine .reinstate runner.runnerId ?_ fun hostId under' closed => ?_
  · rw [retired_iff, reinstating.saw.retired_eq stands, reinstating.retired]
  · -- it stands under the host it was read under, whose version has not moved
    rcases reinstating.saw.under stands reinstating.retired with still | alone
    · rw [still, ← reinstating.under] at under'
      obtain ⟨host, own, rfl⟩ := Option.map_eq_some_iff.mp under'
      obtain ⟨saw, live⟩ := reinstating.host host own
      rw [closed_iff founded.kept, saw.retired_eq (standsHost _ (by rw [own]; rfl)), live] at closed
      cases closed
    · rw [alone] at under'
      cases under'

/-- A host's retirement closes it, once. -/
theorem grown_retireHost {holdings : List (RunnerId × List Route)} {force : Bool} {stamp : Stamp}
    (founded : Founded registry) (saw : SawHost registry host)
    (retired : FleetWrites.retireHost registry host holdings force stamp = .ok after) :
    Grown registry after ∧ isRetired after.hostLifecycle host.hostId = true := by
  rw [FleetWrites.retireHost] at retired
  obtain ⟨fact, decided, retired⟩ := bind_ok retired
  unfold recordRetirement at retired
  obtain ⟨_, required, retired⟩ := bind_ok retired
  have stands := requireHost_ok required
  obtain rfl := Except.ok.inj retired
  rw [Host.retire] at decided
  split at decided
  · rename_i already
    obtain rfl := Except.ok.inj decided
    have closed : host.retired = true := by
      rw [Host.state] at already
      split at already
      · assumption
      · split at already <;> cases already
    exact ⟨grown_aside, by rw [← closed, ← saw.retired_eq stands]⟩
  · rename_i live
    dsimp only at decided
    split at decided
    · cases decided
    obtain rfl := Except.ok.inj decided
    have open_ : ¬ (groups registry).Closed host.hostId := by
      rw [closed_iff founded.kept, saw.retired_eq stands]
      intro closed
      simp [Host.state, closed] at live
    refine ⟨?_, by simp [isRetired]⟩
    set closing : LifecycleFact := ⟨true, stamp.at_, stamp.by_⟩
    exact {
      runners := .refl _
      hosts := Log.extends_append _ _ _
      members := by
        have none_ : (registry.hostLifecycle.of host.hostId).map (·.value.retired) = [] := not_not.mp open_
        have closings : (groups { registry with
              hostLifecycle := registry.hostLifecycle.append host.hostId closing }).closings =
            Function.update (groups registry).closings host.hostId [true] := by
          funext other
          by_cases same : other = host.hostId
          · subst same
            simp only [groups, Function.update_self, Log.of_append_self, List.map_append, none_]
            rfl
          · rw [Function.update_of_ne same]
            simp only [groups, Log.of_append_other same]
        have same : groups { registry with
              hostLifecycle := registry.hostLifecycle.append host.hostId closing
              hostTokens := registry.hostTokens.revoke host.hostId stamp } =
            { groups registry with
              closings := Function.update (groups registry).closings host.hostId [true] } := by
          rw [← closings]
          rfl
        rw [same]
        exact Relation.ReflTransGen.single (.close host.hostId open_)
      runnerIds := fun row mem => ⟨row, mem, rfl⟩
      hostIds := fun row mem => ⟨row, mem, rfl⟩
      runnerFacts := fun _ mem => .inl mem
      hostFacts := fun new mem => by
        rcases List.mem_append.mp mem with old | own
        · exact .inl old
        · rw [List.mem_singleton.mp own]
          exact .inr saw.known }

end Blizzard.FleetRequests
