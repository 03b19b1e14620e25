import Blizzard.DeliveryPlans
import Blizzard.ExceptRules

/-! # What a passing validation says

Each check of a delivery, read back from its passing. -/
namespace Blizzard.DeliveryChecks
open HubTables SourceText FindingLiveness DictionaryRows DeliveryValidation DeliveryPlans ExceptRules

variable {run : RunContext} {live : List (String × String)} {exited : List String}
  {resolutions : CommitResolutions}

theorem checkKnownId_ok {id : String} {scope : Option String} {fault : GardenDeliveryFault}
    (passed : checkKnownId run live exited id scope fault = .ok ()) :
    id ∈ live.map (·.1) := by
  rw [checkKnownId] at passed
  split at passed
  · cases passed
  · split at passed
    next missing =>
      split at passed <;> cases passed
    next scope_ found => exact List.mem_map_of_mem (mem_of_get found)

theorem checkTransformation_ok {scope id : String} {seen : List String} {note : Option String}
    (passed : checkTransformation run live exited scope seen id note = .ok ()) :
    id ∈ live.map (·.1) ∧ id ∉ seen := by
  rw [checkTransformation] at passed
  obtain ⟨_, known, passed⟩ := bind_ok passed
  refine ⟨checkKnownId_ok known, ?_⟩
  split at passed
  next => cases passed
  next unseen => exact unseen

/-- A delta that passes names each finding once, all of them live. -/
theorem checkOps_ok {scope : String} {repo : Option String} (ops : List FindingOp) :
    ∀ {seen : List String} {answer : List ((String × String) × Option Instant)},
      checkOps run live exited resolutions scope repo seen ops = .ok answer →
      (ops.filterMap FindingOp.transforms).Nodup ∧
        ∀ id ∈ ops.filterMap FindingOp.transforms, id ∈ live.map (·.1) ∧ id ∉ seen := by
  induction ops with
  | nil => exact fun _ => ⟨List.nodup_nil, fun _ inside => nomatch inside⟩
  | cons op ops ih =>
    intro seen answer passed
    have named : ∀ {id : String} {note : Option String},
        checkTransformation run live exited scope seen id note = .ok () →
        checkOps run live exited resolutions scope repo (id :: seen) ops = .ok answer →
        (id :: ops.filterMap FindingOp.transforms).Nodup ∧
          ∀ other ∈ id :: ops.filterMap FindingOp.transforms,
            other ∈ live.map (·.1) ∧ other ∉ seen := by
      intro id note first rest
      obtain ⟨known, unseen⟩ := checkTransformation_ok first
      obtain ⟨once, all⟩ := ih rest
      refine ⟨List.nodup_cons.mpr ⟨fun again => ?_, once⟩, ?_⟩
      · exact (all id again).2 List.mem_cons_self
      · intro other inside
        rcases List.mem_cons.mp inside with rfl | inside
        · exact ⟨known, unseen⟩
        · obtain ⟨live, fresh⟩ := all other inside
          exact ⟨live, fun before => fresh (List.mem_cons_of_mem _ before)⟩
    cases op with
    | add op =>
      rw [checkOps] at passed
      obtain ⟨_, -, passed⟩ := bind_ok passed
      obtain ⟨_, rest, -⟩ := bind_ok passed
      exact ih rest
    | observed id =>
      rw [checkOps] at passed
      obtain ⟨_, first, rest⟩ := bind_ok passed
      exact named first rest
    | gone id note =>
      rw [checkOps] at passed
      obtain ⟨_, first, rest⟩ := bind_ok passed
      exact named first rest

theorem checkDelta_ok {delta : DeliveredDelta}
    {answer : List ((String × String) × Option Instant)}
    (passed : checkDelta run live exited resolutions delta = .ok answer) :
    delta.scope = run.scopeSlug ∧ (delta.findings.filterMap FindingOp.transforms).Nodup ∧
      ∀ id ∈ delta.findings.filterMap FindingOp.transforms, id ∈ live.map (·.1) := by
  rw [checkDelta] at passed
  split at passed
  next => cases passed
  next scope =>
    obtain ⟨_, -, passed⟩ := bind_ok passed
    obtain ⟨once, all⟩ := checkOps_ok _ passed
    exact ⟨not_not.mp scope, once, fun id inside => (all id inside).1⟩

/-- What a passing delivery hands on. -/
theorem validateDelivery_ok {parsed : ParsedArtifacts} {bucket : FindingBucket}
    {resolveExited : List String → List String} {validated : ValidatedDelivery}
    (passed : validateDelivery run parsed bucket resolutions resolveExited = .ok validated) :
    ∃ introducedAt, checkDelivery run parsed bucket resolutions resolveExited = .ok introducedAt ∧
      expectedStates parsed.deltas bucket = .ok validated.expect ∧
      validated.run = run ∧ validated.deltas = parsed.deltas ∧
      validated.proposals = parsed.proposals ∧
      validated.goneSettlements = bucket.goneSettlements := by
  rw [validateDelivery] at passed
  obtain ⟨introducedAt, checked, passed⟩ := bind_ok passed
  obtain ⟨expect, expected, passed⟩ := bind_ok passed
  cases passed
  refine ⟨introducedAt, ?_, expected, rfl, rfl, rfl, rfl⟩
  cases answer : checkDelivery run parsed bucket resolutions resolveExited with
  | error refusal =>
    rw [answer] at checked
    cases checked
  | ok value =>
    rw [answer] at checked
    cases checked
    rfl

/-- Each check of a passing delivery passed. -/
theorem checkDelivery_ok {parsed : ParsedArtifacts} {bucket : FindingBucket}
    {resolveExited : List String → List String}
    {introducedAt : List ((String × String) × Option Instant)}
    (passed : checkDelivery run parsed bucket resolutions resolveExited = .ok introducedAt) :
    ∃ exited knownRefs,
      (∀ entry ∈ parsed.candidatesByArtifact, checkProposalRefs entry.1 [] entry.2 = .ok ()) ∧
      (∀ delta ∈ parsed.deltas, ∃ answer,
        checkDelta run bucket.liveFindings exited resolutions delta = .ok answer) ∧
      checkAddRefs parsed.deltas = .ok knownRefs ∧
      ∀ proposal ∈ parsed.proposals,
        checkProposal run bucket.liveFindings exited knownRefs proposal = .ok () := by
  rw [checkDelivery] at passed
  obtain ⟨_, refs, passed⟩ := bind_ok passed
  obtain ⟨answers, deltas, passed⟩ := bind_ok passed
  obtain ⟨knownRefs, known, passed⟩ := bind_ok passed
  obtain ⟨_, proposals, -⟩ := bind_ok passed
  refine ⟨_, knownRefs, forM_ok refs, ?_, known, forM_ok proposals⟩
  intro delta inside
  obtain ⟨answer, -, passed⟩ := mapM_mem deltas delta inside
  exact ⟨answer, passed⟩

/-- Every finding a passing delivery transforms is one the run may cite, named once a delta. -/
theorem transforms_of_passed {parsed : ParsedArtifacts} {bucket : FindingBucket}
    {resolveExited : List String → List String}
    {introducedAt : List ((String × String) × Option Instant)}
    (passed : checkDelivery run parsed bucket resolutions resolveExited = .ok introducedAt) :
    ∀ delta ∈ parsed.deltas, (delta.findings.filterMap FindingOp.transforms).Nodup ∧
      ∀ id ∈ delta.findings.filterMap FindingOp.transforms,
        id ∈ bucket.citable.map (·.row.findingId) := by
  intro delta inside
  obtain ⟨exited, -, -, deltas, -, -⟩ := checkDelivery_ok passed
  obtain ⟨answer, checked⟩ := deltas delta inside
  obtain ⟨-, once, all⟩ := checkDelta_ok checked
  refine ⟨once, ?_⟩
  intro id named
  have listed := all id named
  rw [FindingBucket.liveFindings, List.map_map] at listed
  exact listed

end Blizzard.DeliveryChecks
