import Blizzard.EnvironmentRooms
import Blizzard.TransitionRuns

/-! # Exclusive pools over every run

Stopped hosts whose checkers report nothing take any events. Each keeps its pools to one chunk an
environment, and an ingest is the one event that can break this: where its rename brings two of
the moving runner's own workspaces together. -/
namespace Blizzard.EnvironmentExclusivity
open HubTables FactSequence ExclusiveHolds EnvironmentBindings EnvironmentProviders
open EnvironmentCapacity EnvironmentHosts EnvironmentSafety EnvironmentRooms TransitionRuns

/-- A stopped host in order: the checker is clear, and its folders are told apart and within caps. -/
structure Fresh (host : Host) : Prop where
  stopped : host.running = false
  idle : ∀ runnerId, host.passes runnerId = none
  clear : uniqueEnvBinding host.store = []
  named : ∀ workspaceId, Named (host.directories workspaceId)
  within : ∀ workspaceId workspace, host.workspace workspaceId = some workspace →
    Within workspace (host.directories workspaceId)

/-- No host's checker reports a violation. -/
def Clear (fleet : Fleet) : Prop := ∀ i, uniqueEnvBinding (fleet i).store = []

/-- An ingest that goes ahead keeps the moving runner's own rows apart. -/
def KeptApart (fleet : Fleet) : FleetEvent → Prop
  | .on _ _ => True
  | .ingest source here runnerId rename =>
    ingests fleet source here runnerId rename = true →
      KeepsApart (fleet source).store runnerId rename

/-- The environment the phase's next step resets or removes. -/
def nextTouched : Phase → Option String
  | .preparing _ (act :: _) => some act.environmentId
  | .cleaning (name :: _) => some name
  | _ => none

/-- What a host's claims under way may do to its pools. -/
structure Guarded (host : Host) : Prop where
  /-- No held environment is reset or removed. -/
  unharmed : ∀ runnerId pass name, host.passes runnerId = some pass →
    nextTouched pass.phase = some name →
    ∀ binding ∈ heldWorkspaceBindings host.store pass.workspaceId, binding.environmentId ≠ name
  /-- A refused claim hands back no environment another chunk holds. -/
  handedBack : ∀ runnerId pass envs released env rest, host.passes runnerId = some pass →
    pass.phase = .handing true envs released env rest →
    ∀ binding ∈ heldWorkspaceBindings host.store pass.workspaceId,
      binding.environmentId = env.environmentId → binding.chunkId = pass.entry.chunkId
  /-- A basic workspace has no more folders than its cap, between any two steps. -/
  within : ∀ workspaceId workspace, host.workspace workspaceId = some workspace →
    Within workspace (host.directories workspaceId)

/-- What every state of the hosts keeps. -/
def Lawful (fleet : Fleet) : Prop := ∀ i, Sound (fleet i) ∧ Capped (fleet i)

variable {fleet : Fleet} {host : Host} {source here : ℕ} {runnerId : RunnerId}
variable {rename : Option (String × String)}

theorem Fresh.sound (fresh : Fresh host) : Sound host where
  idle _ := fresh.idle
  locked runnerId pass at_ := by
    rw [fresh.idle] at at_
    cases at_
  knows runnerId pass at_ := by
    rw [fresh.idle] at at_
    cases at_
  named := fresh.named

theorem Fresh.capped (fresh : Fresh host) : Capped host where
  within := fresh.within
  planned runnerId pass _ _ _ at_ := by
    rw [fresh.idle] at at_
    cases at_

theorem mem_touched {phase : Phase} {name : String} (next : nextTouched phase = some name) :
    name ∈ touched phase := by
  cases phase with
  | preparing acts todo =>
    cases todo with
    | nil => cases next
    | cons act todo =>
      cases next
      exact List.mem_map_of_mem (List.mem_append_right _ List.mem_cons_self)
  | cleaning todo =>
    cases todo with
    | nil => cases next
    | cons name todo =>
      cases next
      exact List.mem_cons_self
  | _ => cases next

theorem guarded_of_lawful (sound : Sound host) (capped : Capped host) : Guarded host where
  unharmed runnerId pass name at_ next := (sound.knows runnerId pass at_).free name (mem_touched next)
  handedBack runnerId pass envs released env rest at_ phase := by
    have knows := sound.knows runnerId pass at_
    rw [phase] at knows
    exact knows.own env.environmentId List.mem_cons_self
  within := capped.within

/-! ## One event -/

/-- What an ingest that goes ahead has passed. -/
theorem ingests_iff : ingests fleet source here runnerId rename = true ↔
    source ≠ here ∧ (fleet source).running = false ∧ (fleet here).running = false ∧
      absent (fleet here).store runnerId = true ∧
      (refuseBindingConflict ((heldOf (fleet source).store runnerId).map (·.values))
        (keptBindings (fleet here).store) rename).isOk = true := by
  simp [ingests, and_assoc]

/-- A stopped host whose rows alone are changed. -/
theorem lawful_stopped (sound : Sound host) (capped : Capped host) (stopped : host.running = false)
    (store : HostStore) : Sound { host with store } ∧ Capped { host with store } := by
  have idle := sound.idle stopped
  refine ⟨⟨sound.idle, ?_, ?_, sound.named⟩, ⟨capped.within, ?_⟩⟩
  · intro runnerId pass at_
    rw [idle] at at_
    cases at_
  · intro runnerId pass at_
    rw [idle] at at_
    cases at_
  · intro runnerId pass _ _ _ at_
    rw [idle] at at_
    cases at_

theorem lawful_update (lawful : Lawful fleet) {i : ℕ} (kept : Sound host ∧ Capped host) :
    Lawful (Function.update fleet i host) := by
  intro j
  by_cases same : j = i
  · subst same
    rwa [Function.update_self]
  · rw [Function.update_of_ne same]
    exact lawful j

theorem clear_update {i : ℕ} (clear : Clear fleet) :
    Clear (Function.update fleet i host) ↔ uniqueEnvBinding host.store = [] := by
  constructor
  · intro after
    simpa using after i
  · intro own j
    by_cases same : j = i
    · subst same
      rwa [Function.update_self]
    · rw [Function.update_of_ne same]
      exact clear j

/-- Any event leaves the hosts lawful. -/
theorem lawful_next (lawful : Lawful fleet) (event : FleetEvent) : Lawful (next fleet event) := by
  cases event with
  | on i event =>
    obtain ⟨sound, capped⟩ := lawful i
    exact lawful_update lawful ⟨(kept_exec sound event).sound, capped_exec capped sound event⟩
  | ingest source here runnerId rename =>
    rw [next]
    split
    · rename_i goes
      obtain ⟨-, -, stopped, -⟩ := ingests_iff.mp goes
      obtain ⟨sound, capped⟩ := lawful here
      exact lawful_update lawful (lawful_stopped sound capped stopped _)
    · exact lawful

/-- An event leaves every checker clear just where it keeps a moved runner's rows apart. -/
theorem clear_next (lawful : Lawful fleet) (clear : Clear fleet) (event : FleetEvent) :
    Clear (next fleet event) ↔ KeptApart fleet event := by
  have exclusive : ∀ i, Exclusive (holds (fleet i).store) := fun i => uniqueEnvBinding_eq_nil.mp (clear i)
  cases event with
  | on i event =>
    rw [next, clear_update clear, uniqueEnvBinding_eq_nil]
    exact iff_of_true ((kept_exec (lawful i).1 event).exclusive (exclusive i)) trivial
  | ingest source here runnerId rename =>
    rw [next]
    split
    · rename_i goes
      obtain ⟨-, -, -, gone, passed⟩ := ingests_iff.mp goes
      rw [clear_update clear, uniqueEnvBinding_eq_nil]
      exact (exclusive_copyRunner gone passed (exclusive source) (exclusive here)).trans
        ⟨fun apart _ => apart, fun apart => apart goes⟩
    · rename_i refused
      exact iff_of_true clear fun goes => absurd goes refused

/-- A rename to a workspace none of the runner's held rows names keeps them apart. -/
theorem keepsApart_of_unnamed {store : HostStore} {old new : String}
    (exclusive : Exclusive (holds store))
    (unnamed : ∀ row ∈ heldOf store runnerId, row.values.workspaceId ≠ some new) :
    KeepsApart store runnerId (some (old, new)) := by
  have owned : ∀ row ∈ heldOf store runnerId, hold row ∈ holds store := fun row mem =>
    mem_holds.mpr ⟨row, (List.mem_filter.mp mem).1, rfl⟩
  have sub : ∀ a ∈ (heldOf store runnerId).map hold, a ∈ holds store := by
    intro a mem
    obtain ⟨row, listed, rfl⟩ := List.mem_map.mp mem
    exact owned row listed
  have distinct : Set.InjOn (renamedWorkspace (some (old, new)))
      (places ((heldOf store runnerId).map hold)) := by
    rintro p ⟨a, mem, at_⟩ q ⟨b, mem', at_'⟩ same
    obtain ⟨row, listed, rfl⟩ := List.mem_map.mp mem
    obtain ⟨row', listed', rfl⟩ := List.mem_map.mp mem'
    have apart : p ≠ new := fun here => unnamed row listed (here ▸ at_)
    have apart' : q ≠ new := fun here => unnamed row' listed' (here ▸ at_')
    simp only [renamedWorkspace] at same
    split at same
    · split at same
      · rename_i first second
        exact first.trans second.symm
      · exact absurd same.symm apart'
    · split at same
      · exact absurd same apart
      · exact same
  have renamed := (exclusive.subset sub).rename distinct
  intro a mem b mem' same differ together
  have at_ : ∀ row ∈ heldOf store runnerId,
      ExclusiveHolds.renamed (renamedWorkspace (some (old, new))) (hold row) ∈
        ((heldOf store runnerId).map hold).map
          (ExclusiveHolds.renamed (renamedWorkspace (some (old, new)))) := fun row mem =>
    List.mem_map_of_mem (List.mem_map_of_mem mem)
  exact renamed _ (at_ a mem) _ (at_ b mem') ⟨same, differ, .inr (.inr together)⟩

/-! ## Every run -/

/-- Along a run the claims under way are guarded. -/
theorem guarded_run (lawful : Lawful fleet) (events : List FleetEvent) :
    Throughout (fun fleet => ∀ i, Guarded (fleet i)) next fleet events := by
  induction events generalizing fleet with
  | nil => exact fun i => guarded_of_lawful (lawful i).1 (lawful i).2
  | cons event events ih =>
    exact ⟨fun i => guarded_of_lawful (lawful i).1 (lawful i).2, ih (lawful_next lawful event)⟩

/-- Every checker stays clear just where each ingest that goes ahead keeps its runner's rows apart,
and whatever the ingests do the claims under way are guarded. -/
theorem pools_exclusive (fleet : Fleet) (start : ∀ i, Fresh (fleet i)) (events : List FleetEvent) :
    (Throughout Clear next fleet events ↔ Meeting KeptApart next fleet events) ∧
      Throughout (fun fleet => ∀ i, Guarded (fleet i)) next fleet events := by
  have lawful : Lawful fleet := fun i => ⟨(start i).sound, (start i).capped⟩
  have begin_ : Lawful fleet ∧ Clear fleet := ⟨lawful, fun i => (start i).clear⟩
  have kept : ∀ (fleet : Fleet) event, Lawful fleet ∧ Clear fleet → KeptApart fleet event →
      Lawful (next fleet event) ∧ Clear (next fleet event) := fun fleet event inv apart =>
    ⟨lawful_next inv.1 event, (clear_next inv.1 inv.2 event).mpr apart⟩
  refine ⟨⟨?_, ?_⟩, guarded_run lawful events⟩
  · exact Throughout.meeting (fun fleet event inv => (clear_next inv.1 inv.2 event).mp) kept begin_
  · exact Meeting.throughout (fun _ inv => inv.2) kept begin_

/-- Two runners race for a pool of one, and the winner's claim is moved to another host. -/
theorem pools_exclusive_race :
    let host : Host := { workspaces := [("base", ⟨"/base", .winter ["alpha"]⟩)] }
    let input : Input :=
      { now := 1, ready := true, changedAt := fun _ => 0, failed := none, outcome := none
        strict := false }
    let events : List FleetEvent :=
      [.on 0 .start, .on 0 (.tryLock "north" ⟨"one", none⟩ "base"),
        .on 0 (.tryLock "south" ⟨"two", none⟩ "base")] ++
      List.replicate 7 (.on 0 (.advance "north" input)) ++
      [.on 0 .crash, .ingest 0 1 "north" (some ("base", "other"))]
    (Throughout Clear next (fun _ => host) events ↔ Meeting KeptApart next (fun _ => host) events) ∧
      Throughout (fun fleet => ∀ i, Guarded (fleet i)) next (fun _ => host) events := by
  intro host input events
  have fresh : Fresh host := by
    refine ⟨rfl, fun _ => rfl, rfl, fun _ => List.nodup_nil, ?_⟩
    intro workspaceId workspace listed hasRepos maxEnvironments basic
    exact Nat.zero_le _
  exact pools_exclusive (fun _ => host) (fun _ => fresh) events

/-- A rename onto another workspace of the runner's own passes the refusals, which read only the
rows of the host it moves to. -/
example :
    let held (chunkId workspaceId : String) (seq : ℕ) : Sequenced EnvBinding :=
      ⟨"north", seq, ⟨chunkId, "alpha", "/alpha", 0, some workspaceId, none⟩⟩
    let store : HostStore := { envBindings := [held "one" "base" 1, held "two" "other" 2] }
    let fleet : Fleet := fun i => if i = 0 then { store } else {}
    ingests fleet 0 1 "north" (some ("base", "other")) = true ∧
      ¬ KeepsApart store "north" (some ("base", "other")) := by
  intro held store fleet
  refine ⟨by decide, fun apart => ?_⟩
  exact apart (held "one" "base" 1) (by decide) (held "two" "other" 2) (by decide) rfl (by decide) rfl

end Blizzard.EnvironmentExclusivity
