import Blizzard.DerivationHalves

/-! # What a derivation pass records

Whatever raises and whatever changes under a pass, its reads are of corpora the run
went through, and each entry of the memory is that of a convergence recorded at a
signature read before the reads it used. -/
namespace Blizzard.DerivationSweeps
open DerivationCorpus

/-! ## Reads of the run -/

/-- The snapshot is what the run's tenants held at its step. -/
def Taken (seen : List World) (snapshot : Snapshot) : Prop :=
  seen[snapshot.step]? = some snapshot.world

theorem Taken.step_lt {seen : List World} {snapshot : Snapshot} (h : Taken seen snapshot) :
    snapshot.step < seen.length :=
  (List.getElem?_eq_some_iff.mp h).1

theorem Taken.append {seen : List World} {snapshot : Snapshot} (h : Taken seen snapshot)
    (world : World) : Taken (seen ++ [world]) snapshot := by
  have bound := h.step_lt
  simpa [Taken, List.getElem?_append_left bound] using h

theorem State.snapshot_taken (s : State) : Taken (s.seen ++ [s.world]) s.snapshot := by
  simp [Taken, State.snapshot]

/-- A probe of the run comes before a read the pass makes now. -/
theorem Taken.before_snapshot {s : State} {probe : Snapshot} (h : Taken s.seen probe) :
    probe.step < s.snapshot.step :=
  h.step_lt

/-! ## Passes and records of the run -/

/-- A read of the run made after the probe. -/
structure ReadAfter (seen : List World) (probe read : Snapshot) : Prop where
  taken : Taken seen read
  later : probe.step < read.step

/-- A recorded convergence: its signature is its probe's, read before the two reads it used; no
derived row is left for a segment these showed not visible, and every candidate was answered. -/
structure Sound (extractorVersion : String) (seen : List World) (c : Convergence) : Prop where
  probed : Taken seen c.probe
  judged : ReadAfter seen c.probe c.candidacy
  read : ReadAfter seen c.probe c.derived
  signature : c.signature = (c.probe.world c.tenant).derivationSignature.getD gone
  cleared : ∀ id ∈ (c.derived.world c.tenant).derivedSegmentIds,
    id ∉ (c.candidacy.world c.tenant).visibleSegmentIds → id ∉ c.left
  answered : c.outcomes.map (·.1) =
    (c.candidacy.world c.tenant).candidateSegmentIds extractorVersion

/-- The due tenants were chosen, once each, by a sweep that is no longer the process's first. -/
structure Chosen (r : Reconciler) (memory : Memory) (due : List TenantId) : Prop where
  swept : memory.swept
  held : due ⊆ r.tenants
  nodup : due.Nodup

/-- No tenant gone from the probe is held as converged while gone. -/
def Memory.Pruned (memory : Memory) (probe : World) : Prop :=
  ∀ tenant, ∀ entry ∈ memory.converged tenant,
    (probe tenant).derivationSignature.isSome ∨ entry.1 ≠ gone

def StageStanding (r : Reconciler) (seen : List World) (world : World) (memory : Memory)
    (probe : Snapshot) : SweepStage → Prop
  | .probed => memory.Pruned probe.world
  | .chosen due derived => Chosen r memory due ∧ ∀ read ∈ derived, ReadAfter seen probe read
  | .judged due candidacy => Chosen r memory due ∧ ReadAfter seen probe candidacy
  | .converging share => Chosen r memory share.due ∧ ReadAfter seen probe share.candidacy ∧
      ReadAfter seen probe share.derived ∧ ShareStanding r.extractorVersion world share

def TenantStageStanding (r : Reconciler) (seen : List World) (tenant : TenantId)
    (probe : Snapshot) : TenantStage → Prop
  | .probed => True
  | .judged candidacy => ReadAfter seen probe candidacy
  | .converging candidacy derived half => ReadAfter seen probe candidacy ∧
      ReadAfter seen probe derived ∧ ∀ h ∈ half, HalfStanding r.extractorVersion
        (candidacy.world tenant) (staleIds (candidacy.world tenant) (derived.world tenant)) h

/-- What holds of a state whose reads were made along `seen`. -/
structure StandingAt (r : Reconciler) (seen : List World) (s : State) : Prop where
  alone : s.sweep.isSome → ∀ tenant, s.passes tenant = none
  held : ∀ tenant, (s.passes tenant).isSome → tenant ∈ r.tenants
  sweeping : ∀ sweep ∈ s.sweep, Taken seen sweep.probe ∧
    StageStanding r seen s.world s.memory sweep.probe sweep.stage
  passing : ∀ tenant, ∀ pass ∈ s.passes tenant, Taken seen pass.probe ∧
    TenantStageStanding r seen tenant pass.probe pass.stage
  recalled : ∀ tenant, ∀ entry ∈ s.memory.converged tenant, ∃ c ∈ s.log,
    c.tenant = tenant ∧ c.signature = entry.1 ∧ c.convergedAt = entry.2
  sound : ∀ c ∈ s.log, Sound r.extractorVersion seen c

def Standing (r : Reconciler) (s : State) : Prop := StandingAt r s.seen s

variable {r : Reconciler} {s : State} {seen : List World} {extractorVersion : String}
  {corpus : Corpus}

theorem ReadAfter.append {probe read : Snapshot} (h : ReadAfter seen probe read) (world : World) :
    ReadAfter (seen ++ [world]) probe read :=
  ⟨h.taken.append world, h.later⟩

theorem Sound.append {c : Convergence} (h : Sound extractorVersion seen c) (world : World) :
    Sound extractorVersion (seen ++ [world]) c :=
  { h with
    probed := h.probed.append world
    judged := h.judged.append world
    read := h.read.append world }

/-- The reads made so far stay reads of the run. -/
theorem StandingAt.append (h : StandingAt r seen s) (world : World) :
    StandingAt r (seen ++ [world]) s := by
  refine { h with sweeping := ?_, passing := ?_, sound := fun c mem => (h.sound c mem).append world }
  · intro sweep mem
    obtain ⟨probed, stage⟩ := h.sweeping sweep mem
    refine ⟨probed.append world, ?_⟩
    cases at_ : sweep.stage with
    | probed => rwa [at_] at stage
    | chosen due derived =>
      rw [at_] at stage
      exact ⟨stage.1, fun read mem => (stage.2 read mem).append world⟩
    | judged due candidacy =>
      rw [at_] at stage
      exact ⟨stage.1, stage.2.append world⟩
    | converging share =>
      rw [at_] at stage
      obtain ⟨chosen, candidacy, derived, shared⟩ := stage
      exact ⟨chosen, candidacy.append world, derived.append world, shared⟩
  · intro tenant pass mem
    obtain ⟨probed, stage⟩ := h.passing tenant pass mem
    refine ⟨probed.append world, ?_⟩
    cases at_ : pass.stage with
    | probed => trivial
    | judged candidacy =>
      rw [at_] at stage
      exact stage.append world
    | converging candidacy derived half =>
      rw [at_] at stage
      obtain ⟨judged, read, half⟩ := stage
      exact ⟨judged.append world, read.append world, half⟩

theorem State.fresh_standing (world : World) : Standing r (.fresh world) := by
  constructor
  · intro sweeping
    cases sweeping
  · intro tenant passing
    cases passing
  · intro sweep mem
    cases mem
  · intro tenant pass mem
    cases mem
  · intro tenant entry mem
    cases mem
  · intro c mem
    cases mem

/-! ## Steps of a sweep -/

/-- The sweep has ended. -/
theorem StandingAt.resting (h : StandingAt r seen s) : StandingAt r seen { s with sweep := none } := by
  refine { h with alone := ?_, sweeping := ?_ }
  · intro sweeping
    cases sweeping
  · intro sweep mem
    cases mem

/-- The sweep under way stands at a stage that holds up. -/
theorem StandingAt.moved (h : StandingAt r seen s) {sweep : Sweep} {stage : SweepStage}
    (sweeping : sweep ∈ s.sweep)
    (standing : StageStanding r seen s.world s.memory sweep.probe stage) :
    StandingAt r seen (s.sweeping sweep stage) := by
  refine { h with alone := ?_, sweeping := ?_ }
  · intro _
    exact h.alone (Option.isSome_of_mem sweeping)
  · intro next mem
    obtain rfl := Option.some.inj mem
    exact ⟨(h.sweeping sweep sweeping).1, standing⟩

theorem Memory.due_chosen (r : Reconciler) (memory : Memory) (probe : World)
    (derived : Option World) (now : Instant) :
    Chosen r { memory with swept := true } (memory.due r.tenants probe derived now) :=
  ⟨rfl, List.filter_subset_self _, r.nodup.filter _⟩

theorem StandingAt.choose (h : StandingAt r seen s) {sweep : Sweep} {derived : Option Snapshot}
    (sweeping : sweep ∈ s.sweep) (reads : ∀ read ∈ derived, ReadAfter seen sweep.probe read) :
    StandingAt r seen (s.choose r sweep derived) := by
  simp only [State.choose]
  split
  · exact h.resting
  · refine { h with alone := ?_, sweeping := ?_ }
    · intro _
      exact h.alone (Option.isSome_of_mem sweeping)
    · intro next mem
      obtain rfl := Option.some.inj mem
      exact ⟨(h.sweeping sweep sweeping).1, Memory.due_chosen r s.memory _ _ _, reads⟩

/-- What the sweep records is sound. -/
theorem StandingAt.recorded (h : StandingAt r seen s) {sweep : Sweep} {share : Share}
    (sweeping : sweep ∈ s.sweep) (at_ : sweep.stage = .converging share)
    {converged : TenantId × Outcomes} (mem : converged ∈ share.converged) :
    Sound r.extractorVersion seen
      (recordOf s sweep.probe share.candidacy share.derived sweep.now converged) := by
  obtain ⟨probed, stage⟩ := h.sweeping sweep sweeping
  rw [at_] at stage
  obtain ⟨-, candidacy, derived, shared⟩ := stage
  refine ⟨probed, candidacy, derived, rfl, ?_, shared.answered converged mem⟩
  intro id read unseen
  exact shared.cleared converged mem id (mem_staleIds.mpr ⟨read, unseen⟩)

theorem StandingAt.finishSweep (h : StandingAt r seen s) {sweep : Sweep} {share : Share}
    (sweeping : sweep ∈ s.sweep) (at_ : sweep.stage = .converging share) :
    StandingAt r seen (s.finishSweep sweep share) := by
  refine ⟨?_, h.held, ?_, h.passing, ?_, ?_⟩
  · intro sweeping
    cases sweeping
  · intro sweep mem
    cases mem
  · intro tenant entry mem
    simp only [State.finishSweep] at mem ⊢
    split at mem
    case isTrue ended =>
      obtain ⟨converged, listed, rfl⟩ := List.mem_map.mp ended
      obtain rfl := Option.some.inj mem
      refine ⟨_, List.mem_append_right _ (List.mem_map.mpr ⟨converged, listed, rfl⟩), rfl, rfl, rfl⟩
    case isFalse =>
      obtain ⟨c, logged, same⟩ := h.recalled tenant entry mem
      exact ⟨c, List.mem_append_left _ logged, same⟩
  · intro c mem
    rcases List.mem_append.mp mem with old | new
    · exact h.sound c old
    · obtain ⟨converged, listed, rfl⟩ := List.mem_map.mp new
      exact h.recorded sweeping at_ listed

/-- A tenant that closed under its half is dropped from the unconverged ones alone. -/
def Memory.released (memory : Memory) (tenant : TenantId) (progress : Progress) : Memory :=
  if progress = .closed then memory.discard tenant else memory

@[simp] theorem Memory.released_converged (memory : Memory) (tenant : TenantId)
    (progress : Progress) : (memory.released tenant progress).converged = memory.converged := by
  simp only [Memory.released]
  split <;> rfl

@[simp] theorem Memory.released_swept (memory : Memory) (tenant : TenantId)
    (progress : Progress) : (memory.released tenant progress).swept = memory.swept := by
  simp only [Memory.released]
  split <;> rfl

theorem StandingAt.advanceShare (h : StandingAt r seen s) {sweep : Sweep} {share : Share}
    (sweeping : sweep ∈ s.sweep) (at_ : sweep.stage = .converging share) (answer : Answer) :
    StandingAt r seen (s.advanceShare r sweep share answer) := by
  unfold State.advanceShare
  split
  case h_1 => exact h.finishSweep sweeping at_
  case h_2 tenant rest head =>
    obtain ⟨probed, stage⟩ := h.sweeping sweep sweeping
    rw [at_] at stage
    obtain ⟨chosen, candidacy, derived, shared⟩ := stage
    have step := converge_step (s.world tenant) answer
      (shared.half tenant (by rw [head]; rfl))
    have later := shared.mono (fun other => (step.update other).1) fun other id mem => by
      rcases (step.update other).2 id mem with old | ⟨rfl, candidate⟩
      · exact .inl old
      · exact .inr candidate
    refine ⟨?_, h.held, ?_, h.passing, ?_, h.sound⟩
    · intro _
      exact h.alone (Option.isSome_of_mem sweeping)
    · intro next mem
      obtain rfl := Option.some.inj mem
      refine ⟨probed, ⟨?_, ?_, ?_⟩, ?_, ?_, later.take head step (Function.update_self ..)⟩
      · exact (Memory.released_swept ..).trans chosen.swept
      · simpa using chosen.held
      · simpa using chosen.nodup
      · simpa using candidacy
      · simpa using derived
    · intro other entry mem
      change entry ∈ (s.memory.released tenant _).converged other at mem
      rw [Memory.released_converged] at mem
      exact h.recalled other entry mem

/-- A read made now comes after the probe of any pass under way. -/
theorem State.snapshot_after {probe : Snapshot} (probed : Taken s.seen probe) :
    ReadAfter (s.seen ++ [s.world]) probe s.snapshot :=
  ⟨s.snapshot_taken, probed.before_snapshot⟩

theorem Standing.stepSweep (h : Standing r s) {sweep : Sweep} (sweeping : sweep ∈ s.sweep)
    (answer : Answer) : StandingAt r (s.seen ++ [s.world]) (s.stepSweep r sweep answer) := by
  have grown := h.append s.world
  have now := State.snapshot_after (h.sweeping sweep sweeping).1
  have stage := (grown.sweeping sweep sweeping).2
  unfold State.stepSweep
  split
  case h_1 =>
    split
    · exact grown.choose sweeping fun read mem => by cases mem
    · split
      · exact grown.resting
      · refine grown.choose sweeping fun read mem => ?_
        obtain rfl := Option.some.inj mem
        exact now
  case h_2 due derived at_ =>
    rw [at_] at stage
    split
    · exact grown.resting
    · split
      case h_1 => exact grown.moved sweeping ⟨stage.1, now⟩
      case h_2 read =>
        exact grown.moved sweeping ⟨stage.1, now, stage.2 read rfl,
          Share.opened_standing stage.1.nodup _ _ _⟩
  case h_3 due candidacy at_ =>
    rw [at_] at stage
    split
    · exact grown.resting
    · exact grown.moved sweeping ⟨stage.1, stage.2, now, Share.opened_standing stage.1.nodup _ _ _⟩
  case h_4 share at_ => exact grown.advanceShare sweeping at_ answer

/-! ## Steps of one tenant's pass -/

/-- Where a tenant's pass is under way no sweep is. -/
theorem StandingAt.no_sweep (h : StandingAt r seen s) {tenant : TenantId} {pass : TenantPass}
    (passing : pass ∈ s.passes tenant) : s.sweep = none := by
  cases sweeping : s.sweep with
  | none => rfl
  | some sweep =>
    have none_ := h.alone (by simp [sweeping]) tenant
    simp [none_] at passing

theorem StandingAt.passing_to (h : StandingAt r seen s) {tenant : TenantId}
    (pass : Option TenantPass) (resting : s.sweep = none) (held : tenant ∈ r.tenants)
    (standing : ∀ next ∈ pass, Taken seen next.probe ∧
      TenantStageStanding r seen tenant next.probe next.stage) :
    StandingAt r seen (s.passing tenant pass) := by
  refine ⟨?_, ?_, ?_, ?_, h.recalled, h.sound⟩
  · intro sweeping
    simp [State.passing, resting] at sweeping
  · intro other passing
    by_cases same : other = tenant
    · rwa [same]
    · simp only [State.passing, Function.update_of_ne same] at passing
      exact h.held other passing
  · exact h.sweeping
  · intro other next mem
    by_cases same : other = tenant
    · subst same
      simp only [State.passing, Function.update_self] at mem
      exact standing next mem
    · simp only [State.passing, Function.update_of_ne same] at mem
      exact h.passing other next mem

/-- With no sweep under way, what the tenants hold is in no pass's standing. -/
theorem StandingAt.world (h : StandingAt r seen s) (resting : s.sweep = none) (world : World) :
    StandingAt r seen { s with world := world } := by
  refine { h with sweeping := ?_ }
  intro sweep mem
  change sweep ∈ s.sweep at mem
  simp [resting] at mem

/-- With no sweep under way, forgetting or adding unconverged tenants keeps every record. -/
theorem StandingAt.remember (h : StandingAt r seen s) (resting : s.sweep = none)
    (unconverged : Finset TenantId) :
    StandingAt r seen { s with memory := { s.memory with unconverged := unconverged } } := by
  refine { h with sweeping := ?_ }
  intro sweep mem
  change sweep ∈ s.sweep at mem
  simp [resting] at mem

/-- A convergence recorded with its entry of the memory. -/
theorem StandingAt.record (h : StandingAt r seen s) (resting : s.sweep = none)
    {c : Convergence} (sound : Sound r.extractorVersion seen c) :
    StandingAt r seen { s with
      memory := { s.memory with
        converged := Function.update s.memory.converged c.tenant (some (c.signature, c.convergedAt)) }
      log := s.log ++ [c] } := by
  refine { h with sweeping := ?_, recalled := ?_, sound := ?_ }
  · intro sweep mem
    change sweep ∈ s.sweep at mem
    simp [resting] at mem
  · intro other entry mem
    by_cases same : other = c.tenant
    · subst same
      simp only [Function.update_self] at mem
      obtain rfl := Option.some.inj mem
      exact ⟨c, List.mem_append_right _ List.mem_cons_self, rfl, rfl, rfl⟩
    · simp only [Function.update_of_ne same] at mem
      obtain ⟨old, logged, same⟩ := h.recalled other entry mem
      exact ⟨old, List.mem_append_left _ logged, same⟩
  · intro other mem
    rcases List.mem_append.mp mem with old | new
    · exact h.sound other old
    · obtain rfl := List.mem_singleton.mp new
      exact sound

theorem StandingAt.settleTenant (h : StandingAt r seen s) {tenant : TenantId} {pass : TenantPass}
    {candidacy derived : Snapshot} {moved : Corpus × Progress} (resting : s.sweep = none)
    (held : tenant ∈ r.tenants) (probed : Taken seen pass.probe)
    (judged : ReadAfter seen pass.probe candidacy) (read : ReadAfter seen pass.probe derived)
    (step : ConvergeStep r.extractorVersion (candidacy.world tenant)
      (staleIds (candidacy.world tenant) (derived.world tenant)) corpus moved)
    (now : s.world tenant = moved.1) :
    StandingAt r seen (s.settleTenant tenant pass candidacy derived moved.2) := by
  have ended := h.passing_to none resting held fun next mem => by cases mem
  cases ends : moved.2 with
  | running half =>
    refine h.passing_to _ resting held fun next mem => ?_
    obtain rfl := Option.some.inj mem
    refine ⟨probed, judged, read, fun other mem => ?_⟩
    obtain rfl := Option.some.inj mem
    exact step.running half ends
  | converged outcomes =>
    obtain ⟨answered, cleared⟩ := step.converged outcomes ends
    have sound : Sound r.extractorVersion seen
        (recordOf s pass.probe candidacy derived pass.now (tenant, outcomes)) := by
      refine ⟨probed, judged, read, rfl, ?_, answered⟩
      intro id marked unseen
      change id ∉ (s.world tenant).markedIds
      rw [now]
      exact cleared id (mem_staleIds.mpr ⟨marked, unseen⟩)
    exact (ended.remember resting (s.memory.unconverged.erase tenant)).record resting sound
  | unconverged => exact ended.remember resting _
  | closed => exact ended.remember resting _

theorem Standing.stepTenant (h : Standing r s) {tenant : TenantId} {pass : TenantPass}
    (passing : pass ∈ s.passes tenant) (answer : Answer) :
    StandingAt r (s.seen ++ [s.world]) (s.stepTenant r tenant pass answer) := by
  have grown := h.append s.world
  have resting := h.no_sweep passing
  have held := h.held tenant (Option.isSome_of_mem passing)
  have now := State.snapshot_after (h.passing tenant pass passing).1
  obtain ⟨probed, stage⟩ := grown.passing tenant pass passing
  have ended := grown.passing_to none resting held fun next mem => by cases mem
  unfold State.stepTenant
  split
  case h_1 =>
    split
    · exact ended
    · refine grown.passing_to _ resting held fun next mem => ?_
      obtain rfl := Option.some.inj mem
      exact ⟨probed, now⟩
  case h_2 candidacy at_ =>
    rw [at_] at stage
    split
    · exact ended
    · refine grown.passing_to _ resting held fun next mem => ?_
      obtain rfl := Option.some.inj mem
      exact ⟨probed, stage, now, fun half mem => by cases mem⟩
  case h_3 candidacy derived half at_ =>
    rw [at_] at stage
    obtain ⟨judged, read, halves⟩ := stage
    have step := converge_step (s.world tenant) answer halves
    exact (grown.world resting _).settleTenant resting held probed judged read step
      (Function.update_self ..)

/-! ## Every step -/

theorem permits_update {world : World} {tenant : TenantId} {corpus : Corpus}
    (permitted : (world tenant).Permits corpus) (other : TenantId) :
    (world other).Permits (Function.update world tenant corpus other) := by
  by_cases same : other = tenant
  · subst same
    rwa [Function.update_self]
  · rw [Function.update_of_ne same]
    exact ⟨fun _ mem => mem, id⟩

theorem StandingAt.change (h : StandingAt r seen s) {tenant : TenantId} {corpus : Corpus}
    (permitted : (s.world tenant).Permits corpus) :
    StandingAt r seen { s with world := Function.update s.world tenant corpus } := by
  refine { h with sweeping := ?_ }
  intro sweep mem
  obtain ⟨probed, stage⟩ := h.sweeping sweep mem
  refine ⟨probed, ?_⟩
  cases at_ : sweep.stage with
  | probed => rwa [at_] at stage
  | chosen due derived => rwa [at_] at stage
  | judged due candidacy => rwa [at_] at stage
  | converging share =>
    rw [at_] at stage
    obtain ⟨chosen, candidacy, derived, shared⟩ := stage
    have later : ShareStanding r.extractorVersion (Function.update s.world tenant corpus) share :=
      shared.mono (fun other => (permits_update permitted other).2)
        fun other id marked => .inl ((permits_update permitted other).marked marked)
    exact ⟨chosen, candidacy, derived, later⟩

/-- A sweep begins only where no pass is under way. -/
theorem StandingAt.idle (h : StandingAt r seen s) (idle : s.idle r) :
    s.sweep = none ∧ ∀ tenant, s.passes tenant = none := by
  simp only [State.idle, Bool.and_eq_true, Option.isNone_iff_eq_none, List.all_eq_true] at idle
  refine ⟨idle.1, fun tenant => ?_⟩
  cases passing : s.passes tenant with
  | none => rfl
  | some pass =>
    have held := h.held tenant (by simp [passing])
    rw [← passing]
    exact idle.2 tenant held

theorem Memory.prune_pruned (memory : Memory) (probe : World) :
    (memory.prune probe).Pruned probe := by
  intro tenant entry mem
  obtain ⟨-, kept⟩ := Option.filter_eq_some_iff.mp mem
  simpa using kept

theorem Standing.act (h : Standing r s) (event : Event) :
    StandingAt r (s.seen ++ [s.world]) (s.act r event) := by
  have grown := h.append s.world
  cases event with
  | change tenant corpus =>
    simp only [State.act]
    split
    case isTrue permitted => exact grown.change permitted
    case isFalse => exact grown
  | beginSweep now =>
    simp only [State.act]
    split
    case isTrue idle =>
      refine ⟨?_, grown.held, ?_, grown.passing, ?_, grown.sound⟩
      · intro _
        exact (grown.idle idle).2
      · intro sweep mem
        obtain rfl := Option.some.inj mem
        exact ⟨s.snapshot_taken, s.memory.prune_pruned s.world⟩
      · intro tenant entry mem
        exact grown.recalled tenant entry (Option.filter_eq_some_iff.mp mem).1
    case isFalse => exact grown
  | beginTenant tenant now =>
    simp only [State.act]
    split
    case isTrue begun =>
      obtain ⟨held, resting, -⟩ := begun
      refine grown.passing_to _ (Option.isNone_iff_eq_none.mp resting) held fun next mem => ?_
      obtain rfl := Option.some.inj mem
      exact ⟨s.snapshot_taken, trivial⟩
    case isFalse => exact grown
  | advanceSweep answer =>
    simp only [State.act]
    split
    case h_1 sweep sweeping => exact h.stepSweep sweeping answer
    case h_2 => exact grown
  | advanceTenant tenant answer =>
    simp only [State.act]
    split
    case h_1 pass passing => exact h.stepTenant passing answer
    case h_2 => exact grown

/-- Whatever happens, the reads of the passes and the records they leave hold up. -/
theorem Standing.after (h : Standing r s) (event : Event) : Standing r (s.after r event) :=
  { h.act event with }

end Blizzard.DerivationSweeps
