import Blizzard.DerivationRecords
import Blizzard.TransitionRuns

/-! # Which tenants the derivation sweep can lose

A tenant gone from the probe is known to the next sweep by memory alone. The sweep
loses one exactly where a pass leaves it, still holding derived rows, behind a memory
that does not name it: by a corpus read that raises after the first-sweep flag is set,
or by a convergence recorded at a probe the tenant has outlived. -/
namespace Blizzard.DerivationSweeps
open DerivationCorpus TransitionRuns

/-- An open tenant with derived rows and neither segment nor chunk. -/
def orphaned (corpus : Corpus) : Bool :=
  corpus.isOpen && corpus.derivationSignature.isNone && decide (corpus.markers ≠ [])

namespace Memory

/-- The tenant is unconverged or converged at a signature of its own. -/
def remembers (memory : Memory) (tenant : TenantId) : Bool :=
  decide (tenant ∈ memory.unconverged) ||
    (memory.converged tenant).any fun entry => decide (entry.1 ≠ gone)

/-- Past the process's first sweep, the memory does not name the tenant. -/
def forgets (memory : Memory) (tenant : TenantId) : Bool :=
  memory.swept && !memory.remembers tenant

end Memory

def SweepStage.takes (probe : World) (tenant : TenantId) : SweepStage → Bool
  | .probed => (probe tenant).derivationSignature.isSome
  | .chosen due _ => decide (tenant ∈ due)
  | .judged due _ => decide (tenant ∈ due)
  | .converging share => decide (tenant ∈ share.due)

namespace State

/-- A pass under way takes the tenant up. -/
def inHand (s : State) (tenant : TenantId) : Bool :=
  (s.sweep.any fun sweep => sweep.stage.takes sweep.probe.world tenant) ||
    (s.passes tenant).isSome

/-- The tenant is orphaned, out of hand and forgotten. -/
def loses (s : State) (tenant : TenantId) : Bool :=
  !s.inHand tenant && s.memory.forgets tenant && orphaned (s.world tenant)

/-- What a fresh process's derived read would find now. -/
def derivedRead (s : State) : Option World := if s.memory.swept then none else some s.world

/-- A sweep beginning now considers the tenant. -/
def considers (s : State) (tenant : TenantId) : Bool :=
  (s.memory.prune s.world).knows s.world s.derivedRead tenant

/-- The tenants a sweep beginning now takes up. -/
def takesUp (r : Reconciler) (s : State) (now : Instant) : List TenantId :=
  (s.memory.prune s.world).due r.tenants s.world s.derivedRead now

end State

/-- A tenant that no pass has in hand and that holds a derived row for a segment not visible is
one the next sweep considers, and finds due once the floor has elapsed since it last converged;
what the memory holds converged was so recorded; and every record is sound. -/
structure Lawful (r : Reconciler) (s : State) : Prop where
  considered : ∀ tenant ∈ r.tenants, s.inHand tenant = false →
    ∀ id ∈ (s.world tenant).derivedSegmentIds, id ∉ (s.world tenant).visibleSegmentIds →
      s.considers tenant ∧ ∀ now, (∀ entry ∈ s.memory.converged tenant,
        forcedFullPassFloor ≤ now - entry.2) → tenant ∈ s.takesUp r now
  recalled : ∀ tenant, ∀ entry ∈ s.memory.converged tenant, ∃ c ∈ s.log,
    c.tenant = tenant ∧ c.signature = entry.1 ∧ c.convergedAt = entry.2
  sound : ∀ c ∈ s.log, Sound r.extractorVersion s.seen c

/-! ## What a step must spare -/

/-- The tenant's half ends converged in this step. -/
def convergesNow (extractorVersion : String) (read : Corpus) (stale : List String)
    (half : Option Half) (answer : Answer) : Bool :=
  match half with
  | none => (read.candidacy extractorVersion).isNone && decide (stale = [])
  | some half => decide (half.candidates = []) && !answer.raises

/-- A corpus read of the sweep raises only where each due tenant is spared, and no tenant the
probe saw gone is recorded converged while orphaned. -/
def SweepStage.Clear (s : State) (probe : World) (answer : Answer) : SweepStage → Prop
  | .probed => True
  | .chosen due _ => answer.raises → ∀ tenant ∈ due, s.memory.forgets tenant →
      orphaned (s.world tenant) = false
  | .judged due _ => answer.raises → ∀ tenant ∈ due, s.memory.forgets tenant →
      orphaned (s.world tenant) = false
  | .converging share => share.todo = [] → ∀ tenant ∈ share.converged.map (·.1),
      (probe tenant).derivationSignature = none → orphaned (s.world tenant) = false

/-- The same of a tenant's own pass; what its half is about to drop is not counted. -/
def TenantStage.Clear (r : Reconciler) (s : State) (tenant : TenantId) (probe : World)
    (answer : Answer) : TenantStage → Prop
  | .probed => answer.raises → s.memory.forgets tenant → orphaned (s.world tenant) = false
  | .judged _ => answer.raises → s.memory.forgets tenant → orphaned (s.world tenant) = false
  | .converging candidacy derived half =>
      let stale := staleIds (candidacy.world tenant) (derived.world tenant)
      convergesNow r.extractorVersion (candidacy.world tenant) stale half answer →
        s.memory.swept → (probe tenant).derivationSignature = none →
          orphaned ((s.world tenant).dropSegments stale) = false

/-- A tenant that is out of hand and forgotten keeps a segment or chunk as long as it holds derived
rows, and no pass lets go of one that does not. -/
def Clear (r : Reconciler) (s : State) : Event → Prop
  | .change tenant corpus => tenant ∈ r.tenants → (s.world tenant).Permits corpus →
      s.inHand tenant = false → s.memory.forgets tenant → orphaned corpus = false
  | .beginSweep _ => True
  | .beginTenant _ _ => True
  | .advanceSweep answer => ∀ sweep ∈ s.sweep, sweep.stage.Clear s sweep.probe.world answer
  | .advanceTenant tenant answer => ∀ pass ∈ s.passes tenant,
      pass.stage.Clear r s tenant pass.probe.world answer

/-- No tenant the hub holds is lost. -/
def Kept (r : Reconciler) (s : State) : Prop := ∀ tenant ∈ r.tenants, s.loses tenant = false

variable {r : Reconciler} {s t : State} {memory : Memory} {probe : World} {tenant : TenantId}

/-! ## Tenants the memory names -/

theorem State.loses_iff : s.loses tenant ↔
    s.inHand tenant = false ∧ s.memory.forgets tenant ∧ orphaned (s.world tenant) := by
  simp [State.loses, and_assoc]

theorem orphaned_iff {corpus : Corpus} : orphaned corpus ↔
    corpus.isOpen ∧ corpus.derivationSignature = none ∧ corpus.markers ≠ [] := by
  simp [orphaned, and_assoc]

/-- An orphaned tenant's derived rows are of segments not visible. -/
theorem orphaned_derived {corpus : Corpus} (h : orphaned corpus) :
    ∃ id ∈ corpus.derivedSegmentIds, id ∉ corpus.visibleSegmentIds := by
  obtain ⟨isOpen, none_, marked⟩ := orphaned_iff.mp h
  obtain ⟨marker, mem⟩ := List.exists_mem_of_ne_nil _ marked
  refine ⟨marker.segmentId, Corpus.mem_derivedSegmentIds.mpr ⟨isOpen, ?_⟩, ?_⟩
  · exact List.mem_map.mpr ⟨marker, mem, rfl⟩
  · simp [Corpus.visibleSegmentIds_of_gone none_]

namespace Memory

theorem remembers_iff : memory.remembers tenant ↔
    tenant ∈ memory.unconverged ∨ ∃ entry ∈ memory.converged tenant, entry.1 ≠ gone := by
  simp [remembers, Option.any_eq_true]

/-- Pruning forgets only tenants held as converged while gone. -/
@[simp] theorem prune_remembers : (memory.prune probe).remembers tenant = memory.remembers tenant := by
  rw [Bool.eq_iff_iff, remembers_iff, remembers_iff]
  refine or_congr_right ?_
  constructor
  · rintro ⟨entry, mem, own⟩
    exact ⟨entry, (Option.filter_eq_some_iff.mp mem).1, own⟩
  · rintro ⟨entry, mem, own⟩
    exact ⟨entry, Option.filter_eq_some_iff.mpr ⟨mem, by simp [own]⟩, own⟩

@[simp] theorem prune_forgets : (memory.prune probe).forgets tenant = memory.forgets tenant := by
  simp only [forgets, prune_remembers]
  rfl

/-- A sweep considers exactly the tenants in the probe, those the memory names, and those a fresh
process's derived read finds. -/
theorem Pruned.knows_iff (pruned : memory.Pruned probe) (derived : Option World) :
    memory.knows probe derived tenant ↔ (probe tenant).derivationSignature.isSome ∨
      memory.remembers tenant ∨ ∃ read ∈ derived, (read tenant).derivedSegmentIds ≠ [] := by
  simp only [knows, remembers_iff, Bool.or_eq_true, decide_eq_true_eq, Option.any_eq_true]
  constructor
  · rintro (((present | converged) | unconverged) | found)
    · exact .inl present
    · obtain ⟨entry, mem⟩ := Option.isSome_iff_exists.mp converged
      rcases pruned tenant entry mem with present | own
      · exact .inl present
      · exact .inr (.inl (.inr ⟨entry, mem, own⟩))
    · exact .inr (.inl (.inl unconverged))
    · exact .inr (.inr found)
  · rintro (present | (unconverged | ⟨entry, mem, -⟩) | found)
    · exact .inl (.inl (.inl present))
    · exact .inl (.inr unconverged)
    · exact .inl (.inl (.inr (Option.isSome_of_mem mem)))
    · exact .inr found

/-- A tenant the memory does not name is due at any time. -/
theorem Pruned.isDue (pruned : memory.Pruned probe) (unnamed : memory.remembers tenant = false)
    (now : Instant) :
    memory.isDue tenant ((probe tenant).derivationSignature.getD gone) now := by
  cases held : memory.converged tenant with
  | none => simp [Memory.isDue, held, derivationDue_none]
  | some entry =>
    have own : entry.1 = gone := by
      by_contra own
      have named : memory.remembers tenant := remembers_iff.mpr (.inr ⟨entry, held, own⟩)
      simp [named] at unnamed
    cases present : (probe tenant).derivationSignature with
    | none =>
      rcases pruned tenant entry held with some_ | other
      · simp [present] at some_
      · exact absurd own other
    | some signature =>
      have changed := Corpus.derivationSignature_ne_gone present
      refine derivationDue_of_ne ?_ _ now
      simp [held, own, changed]

/-- Where the floor has elapsed since it last converged, any tenant is due. -/
theorem isDue_of_floor (memory : Memory) {now : Instant} (elapsed : ∀ entry ∈ memory.converged tenant,
    forcedFullPassFloor ≤ now - entry.2) (signature : DerivationSignature) :
    memory.isDue tenant signature now := by
  cases held : memory.converged tenant with
  | none => simp [isDue, held, derivationDue_none]
  | some entry =>
    simp only [isDue, held, Option.map_some]
    exact derivationDue_of_floor _ signature (elapsed entry held)

/-- A sweep takes up every tenant it considers that the memory does not name. -/
theorem Pruned.mem_due (pruned : memory.Pruned probe) (held : tenant ∈ r.tenants)
    (unnamed : memory.remembers tenant = false) {derived : Option World}
    (found : (probe tenant).derivationSignature.isSome ∨
      ∃ read ∈ derived, (read tenant).derivedSegmentIds ≠ []) (now : Instant) :
    tenant ∈ memory.due r.tenants probe derived now := by
  have known : memory.knows probe derived tenant := by
    rw [pruned.knows_iff derived]
    rcases found with present | read
    · exact .inl present
    · exact .inr (.inr read)
  simp only [due, List.mem_filter, Bool.and_eq_true]
  exact ⟨held, known, pruned.isDue unnamed now⟩

end Memory

/-- A lawful state has lost no tenant. -/
theorem Lawful.kept (lawful : Lawful r s) : Kept r s := by
  have pruned := s.memory.prune_pruned s.world
  intro tenant held
  by_contra lost
  obtain ⟨loose, forgotten, orphan⟩ := State.loses_iff.mp (by simpa using lost)
  obtain ⟨id, derived, unseen⟩ := orphaned_derived orphan
  obtain ⟨considered, -⟩ := lawful.considered tenant held loose id derived unseen
  simp only [Memory.forgets, Bool.and_eq_true, Bool.not_eq_true'] at forgotten
  obtain ⟨swept, unnamed⟩ := forgotten
  rcases (pruned.knows_iff s.derivedRead).mp considered with present | named | ⟨read, mem, -⟩
  · simp [(orphaned_iff.mp orphan).2.1] at present
  · simp [unnamed] at named
  · simp [State.derivedRead, swept] at mem

/-- A state whose records are sound and that has lost no tenant is lawful. -/
theorem Standing.lawful (standing : Standing r s) (kept : Kept r s) : Lawful r s := by
  have pruned := s.memory.prune_pruned s.world
  refine ⟨?_, standing.recalled, standing.sound⟩
  intro tenant held loose id derived unseen
  obtain ⟨isOpen, marked⟩ := Corpus.mem_derivedSegmentIds.mp derived
  have known : s.considers tenant := by
    rw [State.considers, pruned.knows_iff s.derivedRead, Memory.prune_remembers]
    by_contra unknown
    obtain ⟨absent, unnamed, unread⟩ := not_or.mp unknown |>.imp_right not_or.mp
    have swept : s.memory.swept := by
      by_contra first
      refine unread ⟨s.world, by simp [State.derivedRead, first], ?_⟩
      exact List.ne_nil_of_mem derived
    have orphan : orphaned (s.world tenant) := by
      refine orphaned_iff.mpr ⟨isOpen, by simpa using absent, ?_⟩
      rintro none_
      simp [Corpus.markedIds, none_] at marked
    have lost : s.loses tenant :=
      State.loses_iff.mpr ⟨loose, by simp [Memory.forgets, swept, unnamed], orphan⟩
    simp [kept tenant held] at lost
  refine ⟨known, fun now elapsed => ?_⟩
  have due := (s.memory.prune s.world).isDue_of_floor
    (fun entry mem => elapsed entry (Option.filter_eq_some_iff.mp mem).1)
    ((s.world tenant).derivationSignature.getD gone)
  simp only [State.takesUp, Memory.due, List.mem_filter, Bool.and_eq_true]
  exact ⟨held, known, due⟩

/-! ## What each step keeps -/

/-- A step that loses none of the other tenants is judged by those it touches. -/
theorem Kept.among (kept : Kept r s) (touched : TenantId → Prop)
    (others : ∀ other, ¬ touched other → t.loses other → s.loses other) :
    Kept r t ↔ ∀ tenant ∈ r.tenants, touched tenant → t.loses tenant = false := by
  constructor
  · intro kept tenant held _
    exact kept tenant held
  · intro spared tenant held
    by_cases touch : touched tenant
    · exact spared tenant held touch
    · by_contra lost
      have before := others tenant touch (by simpa using lost)
      simp [kept tenant held] at before

/-- A step after which no tenant is newly lost keeps all. -/
theorem Kept.of_loses (kept : Kept r s) (others : ∀ other, t.loses other → s.loses other) :
    Kept r t :=
  (kept.among (fun _ => False) fun other _ => others other).mpr fun _ _ none_ => none_.elim

/-- While a sweep runs it alone has tenants in hand. -/
theorem State.inHand_of_sweep {sweep : Sweep} (sweeping : sweep ∈ s.sweep)
    (alone : ∀ tenant, s.passes tenant = none) (tenant : TenantId) :
    s.inHand tenant = sweep.stage.takes sweep.probe.world tenant := by
  simp [State.inHand, Option.mem_def.mp sweeping, alone tenant]

theorem State.loses_resting (alone : ∀ tenant, s.passes tenant = none) :
    { s with sweep := none }.loses tenant ↔
      s.memory.forgets tenant ∧ orphaned (s.world tenant) := by
  rw [State.loses_iff]
  simp [State.inHand, alone tenant]

/-! ### The sweep -/

/-- A pass that lets go of its due tenants loses those forgotten and orphaned. -/
theorem Kept.raised (kept : Kept r s) {sweep : Sweep} {due : List TenantId}
    (sweeping : sweep ∈ s.sweep) (alone : ∀ tenant, s.passes tenant = none)
    (takes : ∀ tenant, sweep.stage.takes sweep.probe.world tenant = decide (tenant ∈ due))
    (held : due ⊆ r.tenants) :
    Kept r { s with sweep := none } ↔
      ∀ tenant ∈ due, s.memory.forgets tenant → orphaned (s.world tenant) = false := by
  have spared : ∀ tenant, { s with sweep := none }.loses tenant = false ↔
      (s.memory.forgets tenant → orphaned (s.world tenant) = false) := by
    intro tenant
    rw [← Bool.not_eq_true, State.loses_resting alone]
    simp
  rw [kept.among (· ∈ due)]
  · constructor
    · intro rest tenant mem
      exact (spared tenant).mp (rest tenant (held mem) mem)
    · intro rest tenant _ mem
      exact (spared tenant).mpr (rest tenant mem)
  · intro other untouched lost
    rw [State.loses_resting alone] at lost
    rw [State.loses_iff, State.inHand_of_sweep sweeping alone, takes]
    exact ⟨by simp [untouched], lost⟩

/-- A sweep that goes on with the same due tenants loses none. -/
theorem Kept.sweeping (kept : Kept r s) {sweep : Sweep} {stage : SweepStage}
    (sweeping : sweep ∈ s.sweep)
    (takes : ∀ tenant, stage.takes sweep.probe.world tenant =
      sweep.stage.takes sweep.probe.world tenant) :
    Kept r (s.sweeping sweep stage) := by
  refine kept.of_loses fun other lost => ?_
  have same : (s.sweeping sweep stage).loses other = s.loses other := by
    simp [State.loses, State.inHand, State.sweeping, Option.mem_def.mp sweeping, takes]
  rwa [← same]

/-- The sweep chooses every tenant the memory does not name and that its probe, or the fresh
process's derived read, found. -/
theorem Kept.choose (kept : Kept r s) {sweep : Sweep} {derived : Option Snapshot}
    (sweeping : sweep ∈ s.sweep) (alone : ∀ tenant, s.passes tenant = none)
    (at_ : sweep.stage = .probed) (pruned : s.memory.Pruned sweep.probe.world)
    (found : s.memory.swept = false → ∀ tenant, orphaned (s.world tenant) →
      ∃ read ∈ derived.map (·.world), (read tenant).derivedSegmentIds ≠ []) :
    Kept r (s.choose r sweep derived) := by
  have taken : ∀ tenant ∈ r.tenants, s.memory.remembers tenant = false →
      orphaned (s.world tenant) →
        tenant ∈ s.memory.due r.tenants sweep.probe.world (derived.map (·.world)) sweep.now := by
    intro tenant held unnamed orphan
    refine pruned.mem_due held unnamed ?_ sweep.now
    cases swept : s.memory.swept with
    | false => exact .inr (found swept tenant orphan)
    | true =>
      left
      by_contra absent
      have lost : s.loses tenant := by
        rw [State.loses_iff, State.inHand_of_sweep sweeping alone, at_]
        exact ⟨by simpa [SweepStage.takes] using absent,
          by simp [Memory.forgets, swept, unnamed], orphan⟩
      simp [kept tenant held] at lost
  intro tenant held
  by_contra lost
  obtain ⟨loose, forgotten, orphan⟩ := State.loses_iff.mp (by simpa using lost)
  simp only [State.choose] at loose forgotten orphan
  split at loose
  case isTrue none_ =>
    simp only [none_, ↓reduceIte] at forgotten orphan
    simp only [Memory.forgets, Bool.and_eq_true, Bool.not_eq_true'] at forgotten
    have mem := taken tenant held forgotten.2 orphan
    simp [none_] at mem
  case isFalse some_ =>
    simp only [if_neg some_] at forgotten orphan
    simp only [Memory.forgets, Bool.and_eq_true, Bool.not_eq_true'] at forgotten
    have mem := taken tenant held forgotten.2 orphan
    simp [State.inHand, SweepStage.takes, mem] at loose

/-- What the finished sweep remembers of a due tenant. -/
theorem ShareStanding.remembers_finished {world : World} {extractorVersion : String}
    {sweep : Sweep} {share : Share} (shared : ShareStanding extractorVersion world share)
    (done : share.todo = []) (mem : tenant ∈ share.accounted) :
    (s.finishSweep sweep share).memory.remembers tenant ↔
      (tenant ∈ share.converged.map (·.1) →
        (sweep.probe.world tenant).derivationSignature ≠ none) := by
  have nodup := shared.nodup
  have within := shared.within mem
  simp only [Share.accounted, done, List.nil_append] at nodup mem
  have apart := List.disjoint_of_nodup_append nodup
  rw [Memory.remembers_iff]
  simp only [State.finishSweep, Finset.mem_union, Finset.mem_sdiff, List.mem_toFinset, within,
    not_true_eq_false, and_false, false_or]
  by_cases converged : tenant ∈ share.converged.map (·.1)
  · have other : tenant ∉ share.unconverged := fun unconverged => apart unconverged converged
    simp only [other, false_or, if_pos converged, Option.mem_some_iff, exists_eq_left']
    cases present : (sweep.probe.world tenant).derivationSignature with
    | none => exact iff_of_false (fun own => own rfl) fun absent => absent converged rfl
    | some signature =>
      exact iff_of_true (Corpus.derivationSignature_ne_gone present) fun _ => Option.some_ne_none _
  · have unconverged : tenant ∈ share.unconverged :=
      (List.mem_append.mp mem).resolve_right converged
    simp [unconverged, converged]

/-- A finishing sweep loses the tenants it records converged while gone and orphaned. -/
theorem Kept.finishSweep (standing : Standing r s) (kept : Kept r s) {sweep : Sweep} {share : Share}
    (sweeping : sweep ∈ s.sweep) (at_ : sweep.stage = .converging share) (done : share.todo = []) :
    Kept r (s.finishSweep sweep share) ↔
      ∀ tenant ∈ share.converged.map (·.1),
        (sweep.probe.world tenant).derivationSignature = none →
          orphaned (s.world tenant) = false := by
  have alone := standing.alone (Option.isSome_of_mem sweeping)
  obtain ⟨-, stage⟩ := standing.sweeping sweep sweeping
  rw [at_] at stage
  obtain ⟨chosen, -, -, shared⟩ := stage
  have loose : ∀ tenant, (s.finishSweep sweep share).inHand tenant = false := by
    intro tenant
    simp [State.inHand, State.finishSweep, alone tenant]
  rw [kept.among (· ∈ share.due)]
  · constructor
    · intro rest tenant converged absent
      have mem : tenant ∈ share.accounted := List.mem_append_right _ converged
      have within := shared.within mem
      have spared := rest tenant (chosen.held within) within
      by_contra kept_
      have orphan : orphaned (s.world tenant) := by simpa using kept_
      have unnamed : ¬ (s.finishSweep sweep share).memory.remembers tenant := by
        rw [shared.remembers_finished done mem]
        exact fun present => present converged absent
      have lost : (s.finishSweep sweep share).loses tenant := by
        refine State.loses_iff.mpr ⟨loose tenant, ?_, orphan⟩
        simp only [Memory.forgets, Bool.and_eq_true, Bool.not_eq_true']
        exact ⟨chosen.swept, by simpa using unnamed⟩
      simp [spared] at lost
    · intro spared tenant held within
      by_contra lost
      obtain ⟨-, forgotten, orphan⟩ := State.loses_iff.mp (by simpa using lost)
      have mem := shared.covers tenant within (orphaned_iff.mp orphan).1
      have unnamed : ¬ (s.finishSweep sweep share).memory.remembers tenant := by
        simp only [Memory.forgets, Bool.and_eq_true, Bool.not_eq_true'] at forgotten
        simp [forgotten.2]
      rw [shared.remembers_finished done mem] at unnamed
      obtain ⟨converged, absent⟩ := Classical.not_imp.mp unnamed
      have safe := spared tenant converged (by simpa using absent)
      exact absurd orphan (by simpa [State.finishSweep] using safe)
  · intro other outside lost
    obtain ⟨-, forgotten, orphan⟩ := State.loses_iff.mp lost
    have unaccounted : other ∉ share.accounted := fun mem => outside (shared.within mem)
    simp only [Share.accounted, List.mem_append, not_or] at unaccounted
    have same : (s.finishSweep sweep share).memory.remembers other = s.memory.remembers other := by
      simp [Memory.remembers, State.finishSweep, outside, unaccounted.1.2,
        if_neg unaccounted.2]
    rw [State.loses_iff, State.inHand_of_sweep sweeping alone, at_]
    refine ⟨by simpa [SweepStage.takes] using outside, ?_, orphan⟩
    rw [Memory.forgets, same] at forgotten
    exact forgotten

/-- A due tenant's step changes only that tenant, which stays in hand. -/
theorem Kept.advanceShare (standing : Standing r s) (kept : Kept r s) {sweep : Sweep}
    {share : Share} (sweeping : sweep ∈ s.sweep) (at_ : sweep.stage = .converging share)
    (answer : Answer) :
    Kept r (s.advanceShare r sweep share answer) ↔
      sweep.stage.Clear s sweep.probe.world answer := by
  have alone := standing.alone (Option.isSome_of_mem sweeping)
  obtain ⟨-, stage⟩ := standing.sweeping sweep sweeping
  rw [at_] at stage ⊢
  obtain ⟨-, -, -, shared⟩ := stage
  cases head : share.todo with
  | nil =>
    simp only [State.advanceShare, head, SweepStage.Clear, true_implies]
    exact kept.finishSweep standing sweeping at_ head
  | cons tenant rest =>
    refine iff_of_true ?_ (by simp [SweepStage.Clear, head])
    have due : tenant ∈ share.due := shared.within (by simp [Share.accounted, head])
    refine kept.of_loses fun other lost => ?_
    obtain ⟨loose, forgotten, orphan⟩ := State.loses_iff.mp lost
    simp only [State.advanceShare, head] at loose forgotten orphan
    have outside : other ∉ share.due := by
      simpa [State.inHand, SweepStage.takes, alone other] using loose
    have apart : other ≠ tenant := fun same => outside (same ▸ due)
    rw [Function.update_of_ne apart] at orphan
    rw [State.loses_iff, State.inHand_of_sweep sweeping alone, at_]
    refine ⟨by simpa [SweepStage.takes] using outside, ?_, orphan⟩
    split at forgotten
    · simpa [Memory.forgets, Memory.remembers, Memory.discard, apart] using forgotten
    · exact forgotten

/-- A statement of the sweep loses a tenant exactly where it is not clear. -/
theorem Kept.stepSweep (standing : Standing r s) (kept : Kept r s) {sweep : Sweep}
    (sweeping : sweep ∈ s.sweep) (answer : Answer) :
    Kept r (s.stepSweep r sweep answer) ↔ sweep.stage.Clear s sweep.probe.world answer := by
  have alone := standing.alone (Option.isSome_of_mem sweeping)
  obtain ⟨-, stage⟩ := standing.sweeping sweep sweeping
  cases at_ : sweep.stage with
  | probed =>
    rw [at_] at stage
    simp only [State.stepSweep, at_, SweepStage.Clear, iff_true]
    split
    case isTrue swept =>
      exact kept.choose sweeping alone at_ stage fun first => by simp [swept] at first
    case isFalse first =>
      split
      · intro tenant _
        simp [State.loses, Memory.forgets, first]
      · refine kept.choose sweeping alone at_ stage fun _ tenant orphan => ?_
        obtain ⟨id, derived, -⟩ := orphaned_derived orphan
        exact ⟨s.world, rfl, List.ne_nil_of_mem derived⟩
  | chosen due derived =>
    rw [at_] at stage
    simp only [State.stepSweep, at_, SweepStage.Clear]
    split
    case isTrue raised =>
      simp only [raised, true_implies]
      exact kept.raised sweeping alone (by simp [at_, SweepStage.takes]) stage.1.held
    case isFalse answered =>
      refine iff_of_true ?_ fun raised => absurd raised answered
      split
      · exact kept.sweeping sweeping fun tenant => by rw [at_]; rfl
      · exact kept.sweeping sweeping fun tenant => by rw [at_]; rfl
  | judged due candidacy =>
    rw [at_] at stage
    simp only [State.stepSweep, at_, SweepStage.Clear]
    split
    case isTrue raised =>
      simp only [raised, true_implies]
      exact kept.raised sweeping alone (by simp [at_, SweepStage.takes]) stage.1.held
    case isFalse answered =>
      refine iff_of_true ?_ fun raised => absurd raised answered
      exact kept.sweeping sweeping fun tenant => by rw [at_]; rfl
  | converging share =>
    have advanced := kept.advanceShare standing sweeping at_ answer
    rw [at_] at advanced
    simpa only [State.stepSweep, at_] using advanced

/-! ### One tenant's pass -/

section Tenant
variable {other : TenantId} {pass : TenantPass}

/-- A step that touches one tenant is judged by that tenant. -/
theorem Kept.touching (kept : Kept r s) (held : tenant ∈ r.tenants)
    (others : ∀ other, other ≠ tenant → t.loses other = s.loses other) :
    Kept r t ↔ t.loses tenant = false := by
  rw [kept.among (· = tenant)]
  · constructor
    · intro rest
      exact rest tenant held rfl
    · rintro spared _ _ rfl
      exact spared
  · intro other apart lost
    rwa [← others other apart]

theorem State.passing_loses_other (apart : other ≠ tenant) (pass : Option TenantPass) :
    (s.passing tenant pass).loses other = s.loses other := by
  simp [State.loses, State.inHand, State.passing, apart]

theorem State.world_loses_other (apart : other ≠ tenant) (corpus : Corpus) :
    { s with world := Function.update s.world tenant corpus }.loses other = s.loses other := by
  simp [State.loses, State.inHand, apart]

theorem State.settleTenant_loses_other (apart : other ≠ tenant) (candidacy derived : Snapshot)
    (progress : Progress) :
    (s.settleTenant tenant pass candidacy derived progress).loses other = s.loses other := by
  cases progress with
  | running half => exact State.passing_loses_other apart _
  | _ =>
    simp [State.settleTenant, State.loses, State.inHand, State.passing, Memory.forgets,
      Memory.remembers, Memory.discard, apart]

/-- A tenant with a pass under way is not lost. -/
theorem State.loses_passing (pass : TenantPass) :
    (s.passing tenant (some pass)).loses tenant = false := by
  simp [State.loses, State.inHand, State.passing]

theorem State.loses_ended (resting : s.sweep = none) :
    (s.passing tenant none).loses tenant =
      (s.memory.forgets tenant && orphaned (s.world tenant)) := by
  simp [State.loses, State.inHand, State.passing, resting]

/-- A tenant recorded converged while gone from the probe is forgotten by a process that swept. -/
theorem State.loses_converged (resting : s.sweep = none) (world : World)
    (candidacy derived : Snapshot) (outcomes : Outcomes) :
    ({ s with world := world }.settleTenant tenant pass candidacy derived
        (.converged outcomes)).loses tenant =
      (s.memory.swept && (pass.probe.world tenant).derivationSignature.isNone &&
        orphaned (world tenant)) := by
  cases present : (pass.probe.world tenant).derivationSignature with
  | none =>
    simp [State.settleTenant, State.loses, State.inHand, State.passing, Memory.forgets,
      Memory.remembers, Memory.discard, resting, present]
  | some signature =>
    have own := Corpus.derivationSignature_ne_gone present
    simp [State.settleTenant, State.loses, State.inHand, State.passing, Memory.forgets,
      Memory.remembers, Memory.discard, resting, present, own]

/-- A pass whose corpus read raises loses its tenant where that is forgotten and orphaned. -/
theorem Kept.endTenant (kept : Kept r s) (held : tenant ∈ r.tenants) (resting : s.sweep = none) :
    Kept r (s.passing tenant none) ↔
      (s.memory.forgets tenant → orphaned (s.world tenant) = false) := by
  rw [kept.touching held fun other apart => State.passing_loses_other apart none,
    State.loses_ended resting, Bool.and_eq_false_imp]

/-- A half that converges left the tenant with all but its stale rows. -/
theorem converge_converged {extractorVersion : String} {read : Corpus} {stale : List String}
    {half : Option Half} {answer : Answer} (corpus : Corpus)
    (standing : ∀ h ∈ half, HalfStanding extractorVersion read stale h)
    (ends : convergesNow extractorVersion read stale half answer) :
    ∃ outcomes, converge extractorVersion read stale half corpus answer =
      (corpus.dropSegments stale, .converged outcomes) := by
  cases half with
  | none =>
    simp only [convergesNow, Bool.and_eq_true, decide_eq_true_eq] at ends
    have kept : corpus.dropSegments [] = corpus := by simp [Corpus.dropSegments]
    exact ⟨[], by simp [converge, openHalf, ends, kept]⟩
  | some half =>
    simp only [convergesNow, Bool.and_eq_true, decide_eq_true_eq, Bool.not_eq_true'] at ends
    refine ⟨half.outcomes, ?_⟩
    simp [converge, advanceHalf, ends, (standing half rfl).stale_eq]

theorem refusal_not_converged (corpus : Corpus) (answer : Answer) (outcomes : Outcomes) :
    refusal corpus answer ≠ .converged outcomes := by
  rcases refusal_cases corpus answer with ends | ⟨ends, -⟩ <;> simp [ends]

theorem convergesNow_of_converged {extractorVersion : String} {read corpus : Corpus}
    {stale : List String} {half : Option Half} {answer : Answer} {outcomes : Outcomes}
    (ends : (converge extractorVersion read stale half corpus answer).2 = .converged outcomes) :
    convergesNow extractorVersion read stale half answer := by
  cases half with
  | none =>
    simp only [converge, openHalf] at ends
    split at ends
    case isTrue nothing_ => simpa [convergesNow] using nothing_
    case isFalse =>
      split at ends
      · exact absurd ends (refusal_not_converged _ _ _)
      · cases ends
  | some half =>
    cases head : half.candidates with
    | cons segmentId rest => cases answer <;> simp [converge, advanceHalf, head] at ends
    | nil =>
      simp only [converge, advanceHalf, head] at ends
      split at ends
      case isTrue => exact absurd ends (refusal_not_converged _ _ _)
      case isFalse answered => simpa [convergesNow, head] using answered

/-- A half's step loses its tenant where that is recorded converged while gone and orphaned. -/
theorem Kept.convergeTenant (kept : Kept r s) (held : tenant ∈ r.tenants) (resting : s.sweep = none)
    {candidacy derived : Snapshot} {half : Option Half} (answer : Answer)
    (standing : ∀ h ∈ half, HalfStanding r.extractorVersion (candidacy.world tenant)
      (staleIds (candidacy.world tenant) (derived.world tenant)) h)
    (at_ : pass.stage = .converging candidacy derived half) :
    Kept r (s.stepTenant r tenant pass answer) ↔
      pass.stage.Clear r s tenant pass.probe.world answer := by
  have step := converge_step (s.world tenant) answer standing
  simp only [State.stepTenant, at_, TenantStage.Clear]
  rw [kept.touching held fun other apart => by
    rw [State.settleTenant_loses_other apart, State.world_loses_other apart]]
  cases ends : (converge r.extractorVersion (candidacy.world tenant)
      (staleIds (candidacy.world tenant) (derived.world tenant)) half (s.world tenant)
      answer).2 with
  | running next =>
    refine iff_of_true (State.loses_passing _) fun now => ?_
    obtain ⟨outcomes, same⟩ := converge_converged (s.world tenant) standing now
    simp [same] at ends
  | converged outcomes =>
    have now := convergesNow_of_converged ends
    obtain ⟨_, same⟩ := converge_converged (s.world tenant) standing now
    rw [same, State.loses_converged resting]
    simp only [now, true_implies, Bool.and_eq_false_imp, Option.isNone_iff_eq_none,
      Bool.and_eq_true, and_imp, Function.update_self]
  | unconverged =>
    refine iff_of_true ?_ fun now => ?_
    · simp [State.settleTenant, State.loses, Memory.forgets, Memory.remembers]
    · obtain ⟨outcomes, same⟩ := converge_converged (s.world tenant) standing now
      simp [same] at ends
  | closed =>
    refine iff_of_true ?_ fun now => ?_
    · have notOpen := step.closed ends
      rw [← step.isOpen] at notOpen
      simp [State.settleTenant, State.loses, State.passing, orphaned, notOpen]
    · obtain ⟨outcomes, same⟩ := converge_converged (s.world tenant) standing now
      simp [same] at ends

/-- A statement of a tenant's pass loses the tenant exactly where it is not clear. -/
theorem Kept.stepTenant (standing : Standing r s) (kept : Kept r s)
    (passing : pass ∈ s.passes tenant) (answer : Answer) :
    Kept r (s.stepTenant r tenant pass answer) ↔
      pass.stage.Clear r s tenant pass.probe.world answer := by
  have resting := standing.no_sweep passing
  have held := standing.held tenant (Option.isSome_of_mem passing)
  have goes_on : ∀ next : TenantPass, Kept r (s.passing tenant (some next)) := by
    intro next
    rw [kept.touching held fun other apart => State.passing_loses_other apart _]
    exact State.loses_passing next
  cases at_ : pass.stage with
  | probed =>
    simp only [State.stepTenant, at_, TenantStage.Clear]
    split
    case isTrue raised => simpa only [raised, true_implies] using kept.endTenant held resting
    case isFalse answered => exact iff_of_true (goes_on _) fun raised => absurd raised answered
  | judged candidacy =>
    simp only [State.stepTenant, at_, TenantStage.Clear]
    split
    case isTrue raised => simpa only [raised, true_implies] using kept.endTenant held resting
    case isFalse answered => exact iff_of_true (goes_on _) fun raised => absurd raised answered
  | converging candidacy derived half =>
    obtain ⟨-, stage⟩ := standing.passing tenant pass passing
    rw [at_] at stage
    rw [← at_]
    exact kept.convergeTenant held resting answer stage.2.2 at_

end Tenant

/-! ### Every step -/

/-- A step loses a tenant exactly where it is not clear. -/
theorem Kept.act_iff (standing : Standing r s) (kept : Kept r s) (event : Event) :
    Kept r (s.act r event) ↔ Clear r s event := by
  cases event with
  | change tenant corpus =>
    simp only [State.act, Clear]
    split
    case isTrue permitted =>
      by_cases held : tenant ∈ r.tenants
      · rw [kept.touching held fun other apart => State.world_loses_other apart corpus]
        simp [held, permitted, State.loses, State.inHand]
      · refine iff_of_true ?_ fun member => absurd member held
        refine (kept.among (· = tenant) fun other apart lost => ?_).mpr ?_
        · rwa [← State.world_loses_other apart corpus]
        · rintro _ member rfl
          exact absurd member held
    case isFalse refused => exact iff_of_true kept fun _ permitted => absurd permitted refused
  | beginSweep now =>
    simp only [State.act, Clear, iff_true]
    split
    case isTrue idle =>
      refine kept.of_loses fun other lost => ?_
      obtain ⟨-, forgotten, orphan⟩ := State.loses_iff.mp lost
      obtain ⟨resting, alone⟩ := standing.idle idle
      refine State.loses_iff.mpr ⟨by simp [State.inHand, resting, alone other], ?_, orphan⟩
      simpa using forgotten
    case isFalse => exact kept
  | beginTenant tenant now =>
    simp only [State.act, Clear, iff_true]
    split
    case isTrue begun =>
      rw [kept.touching begun.1 fun other apart => State.passing_loses_other apart _]
      exact State.loses_passing _
    case isFalse => exact kept
  | advanceSweep answer =>
    simp only [State.act, Clear]
    split
    case h_1 sweep sweeping =>
      rw [kept.stepSweep standing sweeping answer]
      simp [sweeping]
    case h_2 resting => simp [resting, kept]
  | advanceTenant tenant answer =>
    simp only [State.act, Clear]
    split
    case h_1 pass passing =>
      rw [kept.stepTenant standing passing answer]
      simp [passing]
    case h_2 resting => simp [resting, kept]

/-! ## Runs -/

/-- The run of one process loses no tenant, and records only sound convergences, exactly where
every step is clear. -/
theorem derivation_lawful_iff (r : Reconciler) (world : World) (events : List Event) :
    Throughout (Lawful r) (State.after r) (.fresh world) events ↔
      Meeting (Clear r) (State.after r) (.fresh world) events := by
  have start : Standing r (.fresh world) ∧ Kept r (.fresh world) :=
    ⟨State.fresh_standing world, fun tenant _ => by simp [State.loses, State.fresh, Memory.fresh,
      Memory.forgets]⟩
  have next : ∀ s event, Standing r s ∧ Kept r s → Clear r s event →
      Standing r (s.after r event) ∧ Kept r (s.after r event) := by
    rintro s event ⟨standing, kept⟩ clear
    exact ⟨standing.after event, (kept.act_iff standing event).mpr clear⟩
  constructor
  · refine Throughout.meeting ?_ next start
    rintro s event ⟨standing, kept⟩ lawful
    exact (kept.act_iff standing event).mp lawful.kept
  · exact Meeting.throughout (fun s h => h.1.lawful h.2) next start

/-- What an earlier process left of a tenant whose segments and chunks are gone: one marker. -/
def leftBehind : Corpus := ⟨[], [], [⟨"sg_1", "1", []⟩], true⟩

/-- A tenant with a visible segment of its one chunk. -/
def arrived : Corpus := ⟨[⟨1, "sg_1", "ch_1", 0, true, none, "d", none, 0⟩], ["ch_1"], [], true⟩

/-- The first sweep's candidacy read raises behind its flag, and the tenant that only the fresh
process's derived read found is lost. So is one that a pass probes while gone, derives once its
segment has arrived, and records at the signature it had while gone. -/
theorem gone_tenants_lost :
    ¬ Throughout (Lawful ⟨["tn_1"], "1", by decide⟩) (State.after ⟨["tn_1"], "1", by decide⟩)
      (.fresh fun _ => leftBehind)
      [.beginSweep 0, .advanceSweep .nothing, .advanceSweep .raised] ∧
    ¬ Throughout (Lawful ⟨["tn_1", "tn_2"], "1", by decide⟩)
      (State.after ⟨["tn_1", "tn_2"], "1", by decide⟩)
      (.fresh fun tenant => ⟨[], if tenant = "tn_2" then ["ch_2"] else [], [], true⟩)
      [.beginSweep 0, .advanceSweep .nothing, .advanceSweep .nothing, .advanceSweep .nothing,
        .advanceSweep .nothing, .beginTenant "tn_1" 1, .change "tn_1" arrived,
        .advanceTenant "tn_1" .nothing, .advanceTenant "tn_1" .nothing,
        .advanceTenant "tn_1" .nothing, .advanceTenant "tn_1" (.served [("d", none)]),
        .advanceTenant "tn_1" .nothing,
        .change "tn_1" ⟨[], [], [⟨"sg_1", "1", [("d", none)]⟩], true⟩] := by
  constructor
  · intro lawful
    have kept := lawful.last.kept "tn_1" (by decide)
    exact absurd kept (by decide)
  · intro lawful
    have kept := lawful.last.kept "tn_1" (by decide)
    exact absurd kept (by decide)

end Blizzard.DerivationSweeps
