import Blizzard.DeliveryChecks

/-! # Facts a delivery contradicts itself with

A delta names a finding once, but a delivery carries any number of deltas of one scope, and the
facts of all of them land at one instant, where the last row decides a finding's state. -/
namespace Blizzard.DeliveryContradictions
open HubTables FindingLiveness FindingReads DictionaryRows DeliveryValidation DeliveryPlans
open DeliveryChecks ExceptRules

/-- No finding is named by the ops of two deltas. -/
def NamedByOneDelta (deltas : List DeliveredDelta) : Prop :=
  deltas.Pairwise fun a b => List.Disjoint (a.findings.filterMap FindingOp.transforms)
    (b.findings.filterMap FindingOp.transforms)

/-- The state a `gone` of the run leaves a finding of its bucket in. -/
def settledState (bucket : FindingBucket) (id : String) : FindingState :=
  ((get bucket.goneSettlements id).getD (.gone, none)).1.state

/-- The facts of a plan that transform a finding. -/
def transformingFacts (plan : DeliveryPlan) : List NewFindingFact :=
  plan.facts.filter fun fact => fact.kind ≠ .add

/-- A store's facts once a delivery whose deltas are all new has landed. -/
def afterDelivery (facts : List FactRow) (plan : DeliveryPlan) : List FactRow :=
  facts ++ plan.facts.map (·.row plan.at_)

/-- Each finding is transformed once, and each one reached by a `gone` reads so afterwards. -/
structure Uncontradicted (facts : List FactRow) (deltas : List DeliveredDelta)
    (bucket : FindingBucket) (plan : DeliveryPlan) : Prop where
  named : (transformedIds deltas).Nodup
  told : ((transformingFacts plan).map (·.findingId)).Nodup
  settled : ∀ delta ∈ deltas, ∀ id note, .gone id note ∈ delta.findings →
    (derived (afterDelivery facts plan) id).state = settledState bucket id

/-- A finding already carries a fact of another state dated after the delivery. -/
def Overtaken (facts : List FactRow) (bucket : FindingBucket) (plan : DeliveryPlan) (id : String) :
    Prop :=
  ∃ newest, newestFact (factsOf facts id) = some newest ∧ plan.at_ < newest.recordedAt ∧
    newest.kind.state ≠ settledState bucket id

variable {run : RunContext} {parsed : ParsedArtifacts} {bucket : FindingBucket}
  {resolutions : CommitResolutions} {resolveExited : List String → List String}
  {validated : ValidatedDelivery} {plan : DeliveryPlan} {mint : Mint}

/-- The facts of a plan, op by op. -/
theorem plan_facts {step : NodeStep} {deltaIds proposalIds : List String} {at_ : Instant}
    (built : buildDeliveryPlan validated step deltaIds proposalIds mint at_ = .ok plan) :
    plan.at_ = at_ ∧ plan.facts = validated.deltas.zipIdx.flatMap fun (delta, n) =>
      delta.findings.zipIdx.map fun (op, m) =>
        opFact validated.goneSettlements (mint.findingSet n) (mint.finding n m) op := by
  rw [buildDeliveryPlan] at built
  obtain ⟨deltas, zipped, built⟩ := bind_ok built
  obtain ⟨candidates, -, built⟩ := bind_ok built
  obtain ⟨proposals, -, built⟩ := bind_ok built
  cases built
  refine ⟨rfl, ?_⟩
  rw [zipStrict] at zipped
  split at zipped
  next same =>
    cases zipped
    have fronts : validated.deltas.zipIdx =
        (validated.deltas.zip deltaIds).zipIdx.map (Prod.map Prod.fst id) := by
      rw [← List.zipIdx_map, List.map_fst_zip same.le]
    rw [fronts, List.flatMap_map, DeliveryPlan.facts, List.flatMap_map]
    rfl
  next => cases zipped

theorem goneSettlements_ne_add {entry : String × FactKind × Option String}
    (inside : entry ∈ bucket.goneSettlements) : entry.2.1 ≠ .add := by
  obtain ⟨finding, -, rfl⟩ := List.mem_map.mp inside
  show (Finding.runGone _).1 ≠ .add
  rw [Finding.runGone]
  split <;> simp

theorem settledKind_ne_add (id : String) :
    ((get bucket.goneSettlements id).getD (.gone, none)).1 ≠ .add := by
  cases found : get bucket.goneSettlements id with
  | none => simp
  | some entry => exact goneSettlements_ne_add (mem_of_get found)

/-- The facts of one delta's ops that transform a finding are those of its named findings. -/
theorem delta_transforming (set : String) (minted : ℕ → String) (ops : List FindingOp) (k : ℕ) :
    (((ops.zipIdx k).map fun (op, m) => opFact bucket.goneSettlements set (minted m) op).filter
        fun fact => fact.kind ≠ .add).map (·.findingId) =
      ops.filterMap FindingOp.transforms := by
  induction ops generalizing k with
  | nil => rfl
  | cons op ops ih =>
    rw [List.zipIdx_cons, List.map_cons]
    cases op with
    | add op =>
      rw [List.filter_cons_of_neg (by simp [opFact]), ih]
      rfl
    | observed id =>
      rw [List.filter_cons_of_pos (by simp [opFact]), List.map_cons, ih]
      rfl
    | gone id note =>
      rw [List.filter_cons_of_pos, List.map_cons, ih]
      · rfl
      · exact decide_eq_true (settledKind_ne_add id)

theorem deltas_transforming (deltas : List DeliveredDelta) (k : ℕ) :
    (((deltas.zipIdx k).flatMap fun (delta, n) => delta.findings.zipIdx.map fun (op, m) =>
        opFact bucket.goneSettlements (mint.findingSet n) (mint.finding n m) op).filter
        fun fact => fact.kind ≠ .add).map (·.findingId) = transformedIds deltas := by
  induction deltas generalizing k with
  | nil => rfl
  | cons delta deltas ih =>
    rw [List.zipIdx_cons, List.flatMap_cons, List.filter_append, List.map_append, ih]
    exact congrArg (· ++ transformedIds deltas) (delta_transforming _ _ _ 0)

/-- An op's fact is among its delivery's. -/
theorem mem_delta_facts {deltas : List DeliveredDelta} {delta : DeliveredDelta} {op : FindingOp}
    (inside : delta ∈ deltas) (listed : op ∈ delta.findings) :
    ∃ n m, opFact bucket.goneSettlements (mint.findingSet n) (mint.finding n m) op ∈
      deltas.zipIdx.flatMap fun (delta, n) => delta.findings.zipIdx.map fun (op, m) =>
        opFact bucket.goneSettlements (mint.findingSet n) (mint.finding n m) op := by
  rw [← List.zipIdx_map_fst 0 deltas] at inside
  rw [← List.zipIdx_map_fst 0 delta.findings] at listed
  obtain ⟨⟨delta, n⟩, place, rfl⟩ := List.mem_map.mp inside
  obtain ⟨⟨op, m⟩, at_, rfl⟩ := List.mem_map.mp listed
  exact ⟨n, m, List.mem_flatMap.mpr ⟨_, place, List.mem_map_of_mem at_⟩⟩

section Built

variable {step : NodeStep} {deltaIds proposalIds : List String} {at_ : Instant}
  (passed : validateDelivery run parsed bucket resolutions resolveExited = .ok validated)
  (built : buildDeliveryPlan validated step deltaIds proposalIds mint at_ = .ok plan)
  (fresh : ∀ n m, mint.finding n m ∉ bucket.citable.map (·.row.findingId))

include passed built

theorem built_facts : plan.facts = parsed.deltas.zipIdx.flatMap fun (delta, n) =>
    delta.findings.zipIdx.map fun (op, m) =>
      opFact bucket.goneSettlements (mint.findingSet n) (mint.finding n m) op := by
  obtain ⟨-, -, -, -, deltas, -, settlements⟩ := validateDelivery_ok passed
  rw [(plan_facts built).2, deltas, settlements]

/-- A plan tells of exactly the findings its ops name. -/
theorem transformingFacts_ids :
    (transformingFacts plan).map (·.findingId) = transformedIds parsed.deltas := by
  rw [transformingFacts, built_facts passed built]
  exact deltas_transforming parsed.deltas 0

include fresh

/-- Where each finding is named once, what a plan tells of a finding is its one op's fact. -/
theorem facts_of_transformed (once : (transformedIds parsed.deltas).Nodup)
    {delta : DeliveredDelta} (inside : delta ∈ parsed.deltas) {id note : String}
    (listed : .gone id note ∈ delta.findings) :
    ∃ set minted, plan.facts.filter (fun fact => fact.findingId = id) =
      [opFact bucket.goneSettlements set minted (.gone id note)] := by
  obtain ⟨n, m, told⟩ := @mem_delta_facts bucket mint _ _ _ inside listed
  refine ⟨mint.findingSet n, mint.finding n m, ?_⟩
  rw [← built_facts passed built] at told
  have ids := transformingFacts_ids passed built
  have transforming : opFact bucket.goneSettlements (mint.findingSet n) (mint.finding n m)
      (.gone id note) ∈ transformingFacts plan :=
    List.mem_filter.mpr ⟨told, decide_eq_true (settledKind_ne_add id)⟩
  have alone := filter_key (ids ▸ once) transforming
  rw [← alone, transformingFacts, List.filter_filter]
  apply List.filter_congr
  intro fact written
  by_cases same : fact.findingId = id
  · -- a finding that exists is not one the plan mints
    have transforms : fact.kind ≠ .add := by
      rw [built_facts passed built] at written
      obtain ⟨⟨delta', n'⟩, -, written⟩ := List.mem_flatMap.mp written
      obtain ⟨⟨op, m'⟩, -, rfl⟩ := List.mem_map.mp written
      cases op with
      | add op =>
        obtain ⟨introducedAt, checked, -⟩ := validateDelivery_ok passed
        have known := (transforms_of_passed checked delta inside).2 id
          (List.mem_filterMap.mpr ⟨_, listed, rfl⟩)
        rw [← same] at known
        exact absurd known (fresh n' m')
      | observed other => simp [opFact]
      | gone other text => exact settledKind_ne_add other
    simp [same, transforms, opFact]
  · have other : fact.findingId ≠ (opFact bucket.goneSettlements (mint.findingSet n)
        (mint.finding n m) (.gone id note)).findingId := same
    simp [same, other]

/-- Where each finding is named once, one reached by a `gone` reads so unless a later-dated fact
leaves it in another state. -/
theorem settled_iff (once : (transformedIds parsed.deltas).Nodup) {facts : List FactRow}
    {delta : DeliveredDelta} (inside : delta ∈ parsed.deltas) {id note : String}
    (listed : .gone id note ∈ delta.findings) :
    (derived (afterDelivery facts plan) id).state = settledState bucket id ↔
      ¬Overtaken facts bucket plan id := by
  obtain ⟨set, minted, told⟩ := facts_of_transformed passed built fresh once inside listed
  have rows : factsOf (afterDelivery facts plan) id = factsOf facts id ++
      [(opFact bucket.goneSettlements set minted (.gone id note)).row plan.at_] := by
    rw [factsOf, afterDelivery, List.filter_append, List.filter_map]
    have same : (plan.facts.filter ((fun f => decide (f.findingId = id)) ∘
        fun fact => fact.row plan.at_)) =
        plan.facts.filter fun fact => fact.findingId = id := rfl
    rw [same, told]
    rfl
  rw [derived_state, rows, newestFact_append]
  cases newest : newestFact (factsOf facts id) with
  | none =>
    refine ⟨?_, fun _ => rfl⟩
    rintro - ⟨other, found, -⟩
    rw [newest] at found
    cases found
  | some last =>
    rw [Option.elim_some, Option.elim_some, newer]
    split
    next older =>
      refine ⟨?_, fun _ => rfl⟩
      rintro - ⟨other, found, later, -⟩
      rw [newest] at found
      cases found
      exact absurd later (not_lt.mpr older)
    next younger =>
      have later : plan.at_ < last.recordedAt := not_le.mp younger
      constructor
      · rintro same ⟨other, found, -, differs⟩
        rw [newest] at found
        cases found
        exact differs same
      · intro kept
        by_contra differs
        exact kept ⟨last, newest, later, differs⟩

end Built

/-- What a passing delivery tells of the findings it transforms is free of contradiction exactly
when no finding is named by two of its deltas and none it finds gone already carries a fact of
another state dated after it. -/
theorem uncontradicted_iff {step : NodeStep} {deltaIds proposalIds : List String} {at_ : Instant}
    (facts : List FactRow)
    (passed : validateDelivery run parsed bucket resolutions resolveExited = .ok validated)
    (built : buildDeliveryPlan validated step deltaIds proposalIds mint at_ = .ok plan)
    (fresh : ∀ n m, mint.finding n m ∉ bucket.citable.map (·.row.findingId)) :
    Uncontradicted facts parsed.deltas bucket plan ↔
      NamedByOneDelta parsed.deltas ∧ ∀ delta ∈ parsed.deltas, ∀ id note,
        .gone id note ∈ delta.findings → ¬Overtaken facts bucket plan id := by
  obtain ⟨introducedAt, checked, -⟩ := validateDelivery_ok passed
  have each : ∀ delta ∈ parsed.deltas, (delta.findings.filterMap FindingOp.transforms).Nodup :=
    fun delta inside => (transforms_of_passed checked delta inside).1
  have named : (transformedIds parsed.deltas).Nodup ↔ NamedByOneDelta parsed.deltas := by
    rw [transformedIds, List.nodup_flatMap]
    exact ⟨fun h => h.2, fun apart => ⟨each, apart⟩⟩
  constructor
  · intro sound
    refine ⟨named.mp sound.named, ?_⟩
    intro delta inside id note listed
    exact (settled_iff passed built fresh sound.named inside listed).mp
      (sound.settled delta inside id note listed)
  · rintro ⟨apart, current⟩
    have once := named.mpr apart
    refine ⟨once, transformingFacts_ids passed built ▸ once, ?_⟩
    intro delta inside id note listed
    exact (settled_iff passed built fresh once inside listed).mpr
      (current delta inside id note listed)

private def nightly : RunContext := ⟨"nightly", "blizzard", "proj_1"⟩

private def openFinding : FindingRow where
  findingId := "fin_01J9Z3M0P8QK7V2S4W6X8Y0A1B"
  routineName := some "nightly"
  scopeSlug := "blizzard"
  class_ := "stale-docstring"
  locus := "a.py:1"
  summary := "says what it did"
  introduced := none
  introducedAt := none
  source := "routine"
  severity := none
  raisedByChunkId := none
  projectId := "proj_1"

private def openFacts : List FactRow :=
  [{ findingId := "fin_01J9Z3M0P8QK7V2S4W6X8Y0A1B", kind := .add, recordedAt := 1 }]

private def openBucket : FindingBucket := ⟨[listed openFacts openFinding]⟩

private def goneDelta : DeliveredDelta where
  scope := "blizzard"
  findings := [.gone "fin_01J9Z3M0P8QK7V2S4W6X8Y0A1B" "the line is gone"]

private def observedDelta : DeliveredDelta where
  scope := "blizzard"
  findings := [.observed "fin_01J9Z3M0P8QK7V2S4W6X8Y0A1B"]

private def survey : NodeStep := ⟨"ch_1", "nd_1", "garden-survey", 1⟩

private def surveyMint : Mint where
  findingSet := fun n => if n = 0 then "fins_a" else "fins_b"
  finding := fun _ _ => "fin_new"
  proposal := fun _ => "gprop_new"

private def delivered (deltas : List DeliveredDelta) : ParsedArtifacts := ⟨deltas, [], [], []⟩

/-- A delivery of two deltas, one finding gone what the other observed, passes, and the finding
reads live after it. -/
theorem gone_and_observed_pass :
    ∃ validated plan,
      validateDelivery nightly (delivered [goneDelta, observedDelta]) openBucket
        (fun _ _ => none) (fun _ => []) = .ok validated ∧
      buildDeliveryPlan validated survey ["art_a", "art_b"] [] surveyMint 2 = .ok plan ∧
      (derived (afterDelivery openFacts plan) openFinding.findingId).state = .live ∧
      ¬Uncontradicted openFacts [goneDelta, observedDelta] openBucket plan := by
  refine ⟨_, _, rfl, rfl, by decide +kernel, ?_⟩
  intro sound
  exact absurd sound.named (by decide +kernel)

theorem uncontradicted_gone_alone :
    ∃ validated plan,
      validateDelivery nightly (delivered [goneDelta]) openBucket
        (fun _ _ => none) (fun _ => []) = .ok validated ∧
      buildDeliveryPlan validated survey ["art_a"] [] surveyMint 2 = .ok plan ∧
      Uncontradicted openFacts [goneDelta] openBucket plan := by
  have fresh : ∀ n m, surveyMint.finding n m ∉ openBucket.citable.map (·.row.findingId) := by
    intro n m
    show "fin_new" ∉ ["fin_01J9Z3M0P8QK7V2S4W6X8Y0A1B"]
    decide
  refine ⟨_, _, rfl, rfl, ?_⟩
  refine (@uncontradicted_iff nightly (delivered [goneDelta]) openBucket (fun _ _ => none)
    (fun _ => []) _ _ surveyMint survey ["art_a"] [] 2 openFacts rfl rfl fresh).mpr
    ⟨List.pairwise_singleton _ _, ?_⟩
  intro delta inside id note listed
  obtain rfl := List.mem_singleton.mp inside
  cases List.mem_singleton.mp listed
  rintro ⟨newest, found, later, -⟩
  cases found
  exact absurd later (by decide +kernel)

end Blizzard.DeliveryContradictions
