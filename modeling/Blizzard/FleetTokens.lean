import Blizzard.FleetProtocol

/-! # The tokens of the fleet

A bearer token names a runner by its hash. Every token is minted once, so over
any run it names the runner it was issued to and no other; and once another
token or a revocation has taken its place it is never admitted again. -/
namespace Blizzard.FleetTokens
open BearerTokens HubTables RouteLiveness UniqueRows VersionedFacts FleetRegistry FleetWrites
open FleetRequests FleetRuns FleetSafety FleetProtocol

/-! ## The gates -/

inductive TokenRefusal
  | missing
  | unknown
  | revoked (runnerId : RunnerId)
  | retired (runnerId : RunnerId)
  deriving DecidableEq, Repr

/-- The runner whose current token hashes to this. -/
def runnerForTokenHash (registry : Registry) (tokenHash : String) : Option Registration :=
  (registry.runners.rows.find? fun row =>
    decide (registry.runnerTokens.held row.runnerId = some tokenHash)).map registry.registration

/-- The runner a revoked token was issued to. -/
def revokedTokenRunner (registry : Registry) (tokenHash : String) : Option Registration :=
  (registry.runnerTokens.revokedHolder tokenHash).bind registry.getRunner

/-- Retirement outranks revocation, even of a current token. -/
def refuseRunnerToken (current revokedFor : Option Registration) : Except TokenRefusal Registration :=
  match current with
  | some runner => if runner.state = .retired then .error (.retired runner.runnerId) else .ok runner
  | none =>
    match revokedFor with
    | none => .error .unknown
    | some runner =>
      if runner.state = .retired then .error (.retired runner.runnerId)
      else .error (.revoked runner.runnerId)

/-- The runner a presented token names, or why it names none. -/
def identify (registry : Registry) (presented : Option String) : Except TokenRefusal Registration :=
  match presented with
  | none => .error .missing
  | some tokenHash =>
    let current := runnerForTokenHash registry tokenHash
    let revokedFor := if current.isNone then revokedTokenRunner registry tokenHash else none
    refuseRunnerToken current revokedFor

inductive DemandRefusal
  | required
  | unresolved
  | revoked
  | retired (refusal : FleetRefusal)
  deriving DecidableEq, Repr

/-- The principal of a fleet call; a retired runner's token resolves where it is asked for. -/
def demand (registry : Registry) (presented : Option String) (allowRetired : Bool) :
    Except DemandRefusal Registration :=
  match presented with
  | none => .error .required
  | some tokenHash =>
    match runnerForTokenHash registry tokenHash with
    | some runner =>
      if allowRetired then .ok runner
      else
        match runner.refuseIfRetired "fleet call" with
        | .error refusal => .error (.retired refusal)
        | .ok () => .ok runner
    | none =>
      if (registry.runnerTokens.revokedHolder tokenHash).isSome then .error .revoked
      else .error .unresolved

/-- The host whose current token hashes to this. -/
def hostForTokenHash (registry : Registry) (tokenHash : String) : Option Host :=
  (registry.hosts.rows.find? fun row =>
    decide (registry.hostTokens.held row.hostId = some tokenHash)).map registry.host

/-- The principal of a host call; there is none for a retired host. -/
def demandHost (registry : Registry) (presented : Option String) : Except DemandRefusal Host :=
  match presented with
  | none => .error .required
  | some tokenHash =>
    match hostForTokenHash registry tokenHash with
    | some host =>
      match host.refuseIfRetired "host call" with
      | .error refusal => .error (.retired refusal)
      | .ok () => .ok host
    | none =>
      if (registry.hostTokens.revokedHolder tokenHash).isSome then .error .revoked
      else .error .unresolved

/-! ## What is issued -/

/-- The token an event asks to issue, and to which runner. -/
def toRunner : FleetEvent → Option (String × RunnerId)
  | .request request => request.toRunner
  | _ => none

def toHost : FleetEvent → Option (String × String)
  | .request request => request.toHost
  | _ => none

variable {registry after : Registry} {fleet : Fleet} {runnerId : RunnerId}

/-- What one event does to the tokens. -/
structure TokenStep (event : FleetEvent) (registry after : Registry) : Prop where
  runners : Tokens.Step (toRunner event) registry.runnerTokens after.runnerTokens
  hosts : Tokens.Step (toHost event) registry.hostTokens after.hostTokens

theorem tokenStep_exec (sound : Sound fleet) (event : FleetEvent) :
    TokenStep event fleet.registry (fleet.exec event).registry := by
  have wrote := wrote_exec sound event
  generalize (fleet.exec event).registry = registry at wrote
  cases wrote with
  | nothing => exact ⟨.same, .same⟩
  | request request own done =>
    subst own
    exact ⟨(leaves_exec done).runnerTokens, (leaves_exec done).hostTokens⟩
  | @retired runner _ _ _ _ saw done =>
    have retires := retires_retireUnit saw done
    obtain ⟨stamp, revokes⟩ := retires.runnerTokens
    exact ⟨revokes ▸ .revoke runner.runnerId stamp, retires.hostTokens ▸ .same⟩
  | @hostRetired _ host _ _ stamp saw done =>
    obtain ⟨-, runners, hosts⟩ := retireHost_leaves done
    exact ⟨runners ▸ .same, hosts ▸ .revoke host.hostId stamp⟩
  | @reinstated i pass runner fact host _ own found done purpose recorded =>
    have kept := sound.passes pass (List.mem_of_getElem? found)
    obtain ⟨same, version, unretires, reinstating⟩ := kept.purpose runner fact host purpose
    rw [← same, ← version] at recorded
    obtain ⟨-, -, rfl⟩ := grown_recordReinstatement sound.founded reinstating unretires recorded
    exact ⟨.same, .same⟩

/-! ## Over runs -/

/-- The tokens the events asked to issue, the newest first. -/
def asked {K : Type} (ask : FleetEvent → Option (String × K)) (events : List FleetEvent) :
    List (String × K) := (events.filterMap ask).reverse

section Asked
variable {K : Type} {ask : FleetEvent → Option (String × K)} {events more : List FleetEvent}
  {event : FleetEvent}

theorem asked_append : asked ask (events ++ more) = asked ask more ++ asked ask events := by
  rw [asked, List.filterMap_append, List.reverse_append, asked, asked]

theorem asked_single : asked ask [event] = (ask event).toList := by
  cases own : ask event <;> simp [asked, own]

/-- Where every token is asked for once, the next one asked for is none of the earlier ones. -/
theorem asked_fresh (once : ((asked ask (events ++ event :: more)).map Prod.fst).Nodup) :
    ∀ entry ∈ ask event, entry.1 ∉ (asked ask events).map Prod.fst := by
  intro entry own mem
  have parts : asked ask (events ++ event :: more) =
      asked ask more ++ ((ask event).toList ++ asked ask events) := by
    rw [List.append_cons, asked_append, asked_append, asked_single]
  rw [parts, List.map_append, own] at once
  have later := List.Nodup.of_append_right once
  exact (List.nodup_cons.mp later).1 mem

theorem once_before (once : ((asked ask (events ++ more)).map Prod.fst).Nodup) :
    ((asked ask events).map Prod.fst).Nodup := by
  rw [asked_append, List.map_append] at once
  exact List.Nodup.of_append_right once

end Asked

section Kinds
variable {K : Type} [DecidableEq K] {ask : FleetEvent → Option (String × K)}
  {part : Registry → Tokens K String Stamp}
  (steps : ∀ (fleet : Fleet) (event : FleetEvent), Sound fleet →
    Tokens.Step (ask event) (part fleet.registry) (part (fleet.exec event).registry))
include steps

/-- From the start of a hub, every token is where it was issued to. -/
theorem issued_run (sound : Sound fleet) (start : Tokens.Sound [] (part fleet.registry))
    (events : List FleetEvent) (once : ((asked ask events).map Prod.fst).Nodup) :
    Tokens.Sound (asked ask events) (part (fleet.run events).registry) := by
  induction events using List.reverseRecOn with
  | nil => exact start
  | append_singleton events event ih =>
    rw [Fleet.run, List.foldl_append, asked_append, asked_single]
    exact (ih (once_before once)).step (steps _ event (sound_run sound events)) (asked_fresh once)

/-- A token nobody holds any more stays so. -/
theorem gone_run (sound : Sound fleet) {events more : List FleetEvent} {hash : String} {key : K}
    (once : ((asked ask (events ++ more)).map Prod.fst).Nodup) (mem : (hash, key) ∈ asked ask events)
    (gone : ∀ other, (part (fleet.run events).registry).held other ≠ some hash) (other : K) :
    (part (fleet.run (events ++ more)).registry).held other ≠ some hash := by
  induction more using List.reverseRecOn generalizing other with
  | nil =>
    rw [List.append_nil]
    exact gone other
  | append_singleton more event ih =>
    rw [← List.append_assoc] at once ⊢
    have step := steps _ event (sound_run sound (events ++ more))
    rw [Fleet.run, List.foldl_append]
    have issued : (hash, key) ∈ asked ask (events ++ more) := by
      rw [asked_append]
      exact List.mem_append_right _ mem
    exact step.gone (asked_fresh once) issued (ih (once_before once)) other

/-- A token its holder lost is held by nobody from then on. -/
theorem lost_run (sound : Sound fleet) (start : Tokens.Sound [] (part fleet.registry))
    {before middle after : List FleetEvent} {hash : String} {key : K}
    (once : ((asked ask (before ++ middle ++ after)).map Prod.fst).Nodup)
    (held : (part (fleet.run before).registry).held key = some hash)
    (lost : (part (fleet.run (before ++ middle)).registry).held key ≠ some hash) (other : K) :
    (part (fleet.run (before ++ middle ++ after)).registry).held other ≠ some hash := by
  have onceBefore := once_before (once_before once)
  have issued := ((issued_run steps sound start before onceBefore).held key hash held).1
  have mem : (hash, key) ∈ asked ask (before ++ middle) := by
    rw [asked_append]
    exact List.mem_append_right _ issued
  refine gone_run steps sound once mem (fun holder holds => ?_) other
  have kept := issued_run steps sound start (before ++ middle) (once_before once)
  exact lost (kept.eq_of_issued mem (kept.held holder hash holds).1 ▸ holds)

end Kinds

/-! ## What a token names -/

theorem state_retired {runner : Registration} : runner.state = .retired ↔ runner.retired = true := by
  rw [RunnerRegistration.state]
  split
  · rename_i retired
    simp [retired]
  · rename_i live
    split <;> simp [live]

theorem refuseIfRetired_live {runner : Registration} {action : String} (live : runner.retired = false) :
    runner.refuseIfRetired action = .ok () := by
  cases token : runner.tokenHash <;>
    simp [RunnerRegistration.refuseIfRetired, RunnerRegistration.permits, RunnerRegistration.state,
      live, token, runnerVerbs]

theorem refuseIfRetired_retired {runner : Registration} {action : String}
    (retired : runner.retired = true) :
    runner.refuseIfRetired action = .error (.runnerRetired runner.runnerId action) := by
  simp [RunnerRegistration.refuseIfRetired, RunnerRegistration.permits, RunnerRegistration.state, retired,
    runnerVerbs]

theorem runnerForTokenHash_some {tokenHash : String} {runner : Registration}
    (found : runnerForTokenHash registry tokenHash = some runner) :
    registry.runnerTokens.held runner.runnerId = some tokenHash ∧
      runner.retired = isRetired registry.runnerLifecycle runner.runnerId := by
  obtain ⟨row, listed, rfl⟩ := Option.map_eq_some_iff.mp found
  have held : registry.runnerTokens.held row.runnerId = some tokenHash := by
    simpa using List.find?_some listed
  exact ⟨held, rfl⟩

theorem hostForTokenHash_some {tokenHash : String} {host : Host}
    (found : hostForTokenHash registry tokenHash = some host) :
    registry.hostTokens.held host.hostId = some tokenHash ∧
      host.retired = isRetired registry.hostLifecycle host.hostId := by
  obtain ⟨row, listed, rfl⟩ := Option.map_eq_some_iff.mp found
  have held : registry.hostTokens.held row.hostId = some tokenHash := by
    simpa using List.find?_some listed
  exact ⟨held, rfl⟩

theorem identify_ok {presented : Option String} {runner : Registration} :
    identify registry presented = .ok runner ↔ ∃ tokenHash, presented = some tokenHash ∧
      runnerForTokenHash registry tokenHash = some runner ∧ runner.retired = false := by
  cases presented with
  | none => simp [identify]
  | some tokenHash =>
    simp only [identify, Option.some.injEq, exists_eq_left']
    cases current : runnerForTokenHash registry tokenHash with
    | none =>
      simp only [Option.isNone_none, if_true, reduceCtorEq, false_and, iff_false]
      cases revokedFor : revokedTokenRunner registry tokenHash with
      | none => simp [refuseRunnerToken]
      | some other =>
        simp only [refuseRunnerToken]
        split <;> simp
    | some other =>
      simp only [refuseRunnerToken, state_retired]
      cases retired : other.retired with
      | true =>
        simp only [if_true, reduceCtorEq, Option.some.injEq, false_iff, not_and]
        rintro rfl
        simp [retired]
      | false =>
        simp only [Bool.false_eq_true, if_false, Except.ok.injEq, Option.some.injEq]
        constructor
        · rintro rfl
          exact ⟨rfl, retired⟩
        · exact fun ⟨same, _⟩ => same

theorem demand_ok {presented : Option String} {runner : Registration} :
    demand registry presented false = .ok runner ↔ ∃ tokenHash, presented = some tokenHash ∧
      runnerForTokenHash registry tokenHash = some runner ∧ runner.retired = false := by
  cases presented with
  | none => simp [demand]
  | some tokenHash =>
    simp only [demand, Option.some.injEq, exists_eq_left']
    cases current : runnerForTokenHash registry tokenHash with
    | none =>
      simp only [reduceCtorEq, false_and, iff_false]
      split <;> simp
    | some other =>
      simp only [Bool.false_eq_true, if_false, Option.some.injEq]
      cases retired : other.retired with
      | true =>
        simp only [refuseIfRetired_retired retired, reduceCtorEq, false_iff, not_and]
        rintro rfl
        simp [retired]
      | false =>
        simp only [refuseIfRetired_live retired, Except.ok.injEq]
        constructor
        · rintro rfl
          exact ⟨rfl, retired⟩
        · exact fun ⟨same, _⟩ => same

/-- The rules of the tokens, after a run from a hub's start. -/
structure TokenRules (start : Fleet) (events : List FleetEvent) : Prop where
  /-- A token is admitted for the runner it was issued to, while that runner is live. -/
  named : ∀ tokenHash runner, identify (start.run events).registry (some tokenHash) = .ok runner →
    (tokenHash, runner.runnerId) ∈ asked toRunner events ∧
      isRetired (start.run events).registry.runnerLifecycle runner.runnerId = false
  /-- A refusal that names a runner names the one the token was issued to. -/
  told : ∀ tokenHash runnerId,
    identify (start.run events).registry (some tokenHash) = .error (.revoked runnerId) ∨
      identify (start.run events).registry (some tokenHash) = .error (.retired runnerId) →
    (tokenHash, runnerId) ∈ asked toRunner events
  /-- The identity read and the fleet's gate admit the same tokens. -/
  gates : ∀ presented runner, identify (start.run events).registry presented = .ok runner ↔
    demand (start.run events).registry presented false = .ok runner
  /-- A token its runner no longer holds is never admitted again, wherever it is presented. -/
  over_ : ∀ before middle after tokenHash runnerId, events = before ++ middle ++ after →
    (start.run before).registry.runnerTokens.held runnerId = some tokenHash →
    (start.run (before ++ middle)).registry.runnerTokens.held runnerId ≠ some tokenHash →
    ∀ allowRetired runner, demand (start.run events).registry (some tokenHash) allowRetired ≠ .ok runner
  /-- A host's token is admitted for the host it was issued to, until that host is retired. -/
  hosts : ∀ tokenHash host, demandHost (start.run events).registry (some tokenHash) = .ok host →
    (tokenHash, host.hostId) ∈ asked toHost events ∧
      isRetired (start.run events).registry.hostLifecycle host.hostId = false
  hostsOver : ∀ before middle after tokenHash hostId, events = before ++ middle ++ after →
    (start.run before).registry.hostTokens.held hostId = some tokenHash →
    (start.run (before ++ middle)).registry.hostTokens.held hostId ≠ some tokenHash →
    ∀ host, demandHost (start.run events).registry (some tokenHash) ≠ .ok host

theorem revokedTokenRunner_some {tokenHash : String} {runner : Registration}
    (found : revokedTokenRunner registry tokenHash = some runner) :
    ∃ row ∈ registry.runnerTokens.revoked, row.tokenHash = tokenHash ∧ row.holder = runner.runnerId := by
  obtain ⟨holder, named, listed⟩ := Option.bind_eq_some_iff.mp found
  obtain ⟨revocation, newest, rfl⟩ := Option.map_eq_some_iff.mp named
  obtain ⟨row, own, rfl⟩ := Option.map_eq_some_iff.mp listed
  have hash : revocation.tokenHash = tokenHash := by simpa using List.find?_some newest
  have same : row.runnerId = revocation.holder := by simpa using List.find?_some own
  exact ⟨revocation, List.mem_reverse.mp (List.mem_of_find?_eq_some newest), hash, same.symm⟩

/-- Whom a refusal names. -/
theorem identify_named {tokenHash : String} {runnerId : RunnerId}
    (refused : identify registry (some tokenHash) = .error (.revoked runnerId) ∨
      identify registry (some tokenHash) = .error (.retired runnerId)) :
    registry.runnerTokens.held runnerId = some tokenHash ∨
      ∃ row ∈ registry.runnerTokens.revoked, row.tokenHash = tokenHash ∧ row.holder = runnerId := by
  simp only [identify] at refused
  cases current : runnerForTokenHash registry tokenHash with
  | some runner =>
    left
    simp only [current, refuseRunnerToken] at refused
    split at refused
    · obtain rfl : runner.runnerId = runnerId := by simpa using refused
      exact (runnerForTokenHash_some current).1
    · simp at refused
  | none =>
    right
    simp only [current, Option.isNone_none, if_true] at refused
    cases revokedFor : revokedTokenRunner registry tokenHash with
    | none => simp [revokedFor, refuseRunnerToken] at refused
    | some runner =>
      obtain rfl : runner.runnerId = runnerId := by
        simp only [revokedFor, refuseRunnerToken] at refused
        split at refused <;> simpa using refused
      exact revokedTokenRunner_some revokedFor

theorem demand_held {tokenHash : String} {allowRetired : Bool} {runner : Registration}
    (admitted : demand registry (some tokenHash) allowRetired = .ok runner) :
    registry.runnerTokens.held runner.runnerId = some tokenHash := by
  simp only [demand] at admitted
  split at admitted
  · rename_i other current
    have same : other = runner := by
      split at admitted
      · exact Except.ok.inj admitted
      · split at admitted
        · cases admitted
        · exact Except.ok.inj admitted
    exact same ▸ (runnerForTokenHash_some current).1
  · split at admitted <;> cases admitted

theorem demandHost_held {tokenHash : String} {host : Host}
    (admitted : demandHost registry (some tokenHash) = .ok host) :
    registry.hostTokens.held host.hostId = some tokenHash ∧
      isRetired registry.hostLifecycle host.hostId = false := by
  simp only [demandHost] at admitted
  split at admitted
  · rename_i other current
    split at admitted
    · cases admitted
    · rename_i live
      obtain rfl := Except.ok.inj admitted
      obtain ⟨held, same⟩ := hostForTokenHash_some current
      refine ⟨held, ?_⟩
      rw [← same]
      cases retired : other.retired with
      | false => rfl
      | true =>
        simp [Host.refuseIfRetired, Host.permits, Host.state, retired, hostVerbs] at live
  · split at admitted <;> cases admitted

/-- Where every token asked for is a new one, the rules of the tokens hold after any events. -/
theorem tokens_name (now : HubTables.Instant) (chunks : ChunkTable) (graphNodes : List GraphNodeRow)
    (events : List FleetEvent) (runners : ((asked toRunner events).map Prod.fst).Nodup)
    (hosts : ((asked toHost events).map Prod.fst).Nodup) :
    TokenRules (Fleet.start now chunks graphNodes) events := by
  have sound := sound_start now chunks graphNodes
  have runnerSteps := fun (fleet : Fleet) (event : FleetEvent) (sound : Sound fleet) =>
    (tokenStep_exec sound event).runners
  have hostSteps := fun (fleet : Fleet) (event : FleetEvent) (sound : Sound fleet) =>
    (tokenStep_exec sound event).hosts
  have runnersSound := issued_run runnerSteps sound Tokens.sound_empty events runners
  have hostsSound := issued_run hostSteps sound Tokens.sound_empty events hosts
  exact {
    named := fun tokenHash runner admitted => by
      obtain ⟨_, own, current, live⟩ := identify_ok.mp admitted
      obtain rfl := Option.some.inj own
      obtain ⟨held, same⟩ := runnerForTokenHash_some current
      exact ⟨(runnersSound.held _ _ held).1, same ▸ live⟩
    told := fun tokenHash runnerId refused => by
      rcases identify_named refused with held | ⟨row, mem, rfl, rfl⟩
      · exact (runnersSound.held _ _ held).1
      · exact runnersSound.revoked row mem
    gates := fun presented runner => identify_ok.trans demand_ok.symm
    over_ := fun before middle after tokenHash runnerId parts held lost allowRetired runner admitted => by
      subst parts
      exact lost_run runnerSteps sound Tokens.sound_empty runners held lost _ (demand_held admitted)
    hosts := fun tokenHash host admitted => by
      obtain ⟨held, live⟩ := demandHost_held admitted
      exact ⟨(hostsSound.held _ _ held).1, live⟩
    hostsOver := fun before middle after tokenHash hostId parts held lost host admitted => by
      subst parts
      exact lost_run hostSteps sound Tokens.sound_empty hosts held lost _ (demandHost_held admitted).1 }

/-- A runner added, and enrolled afresh on a read taken before. -/
theorem tokens_name_enrolled :
    let row : RegistrationRow :=
      { runnerId := "runner", name := "north", addedAt := 0, addedBy := none, hostId := none }
    let runner : Registration :=
      { toRegistrationRow := row, hubPaused := false, tokenHash := some "first", retired := false
        retiredAt := none, retiredBy := none, lifecycleVersion := 0 }
    TokenRules (Fleet.start 0 .empty [])
      [.request (.addRunner row "first"), .readRunner "runner",
        .request (.enrollRunner runner "second" 1)] :=
  tokens_name 0 .empty [] _ (by decide) (by decide)

end Blizzard.FleetTokens
