import Mathlib.Data.Finset.Basic
import Mathlib.Data.Finset.SDiff
import Mathlib.Data.List.Dedup
import Blizzard.DerivationCorpus

/-! # The standing derivation sweep

One reconciler's passes over the tenants' corpora, statement by statement: the
probe, the reads, each tenant's half and what is remembered of it. Between any
two of these the rest of the hub may change a tenant, and each may raise. -/
namespace Blizzard.DerivationSweeps
open DerivationCorpus

abbrev TenantId := String

abbrev World := TenantId → Corpus

/-- A corpus read: the step it ran at and what every tenant held then. -/
structure Snapshot where
  step : ℕ
  world : World

/-- How a read, a tenant's half or a segment answered. A segment's replacement answers the
fingerprint it stored; `nothing` is a segment gone by now or without a graph pin. -/
inductive Answer
  | served (fingerprint : Fingerprint)
  | nothing
  | raised
  | closed
  deriving DecidableEq, Repr

def Answer.raises : Answer → Bool
  | .served _ => false
  | .nothing => false
  | .raised => true
  | .closed => true

/-- What became of one candidate. -/
inductive Outcome
  | derived
  | skipped
  | failed
  deriving DecidableEq, Repr

abbrev Outcomes := List (String × Outcome)

/-! ## One tenant's half -/

/-- A tenant's half under way, its graph pins resolved and these candidates still to derive. -/
structure Half where
  candidates : List String
  stale : List String
  outcomes : Outcomes
  deriving DecidableEq, Repr

/-- How far a tenant's half got. -/
inductive Progress
  | running (half : Half)
  | converged (outcomes : Outcomes)
  | unconverged
  | closed
  deriving DecidableEq, Repr

/-- A raise of the tenant's half. Only a tenant that is not open refuses as closed. -/
def refusal (corpus : Corpus) : Answer → Progress
  | .closed => if corpus.isOpen then .unconverged else .closed
  | _ => .unconverged

/-- The half opens: a tenant with neither read nor stale segments has converged, any other has
its graph pins resolved. -/
def openHalf (extractorVersion : String) (read : Corpus) (stale : List String) (corpus : Corpus)
    (answer : Answer) : Progress :=
  if (read.candidacy extractorVersion).isNone ∧ stale = [] then .converged []
  else if answer.raises then refusal corpus answer
  else .running ⟨read.candidateSegmentIds extractorVersion, stale, []⟩

/-- One candidate derived, or after the last the stale segments dropped. A segment that raises
costs only that segment. -/
def advanceHalf (extractorVersion : String) (half : Half) (corpus : Corpus) (answer : Answer) :
    Corpus × Progress :=
  match half.candidates with
  | segmentId :: rest =>
    match answer with
    | .served fingerprint =>
      (corpus.replaceSegmentEvents segmentId extractorVersion fingerprint,
        .running ⟨rest, half.stale, half.outcomes ++ [(segmentId, .derived)]⟩)
    | .nothing => (corpus, .running ⟨rest, half.stale, half.outcomes ++ [(segmentId, .skipped)]⟩)
    | .raised => (corpus, .running ⟨rest, half.stale, half.outcomes ++ [(segmentId, .failed)]⟩)
    | .closed => (corpus, .running ⟨rest, half.stale, half.outcomes ++ [(segmentId, .failed)]⟩)
  | [] =>
    if answer.raises then (corpus, refusal corpus answer)
    else (corpus.dropSegments half.stale, .converged half.outcomes)

/-- The tenant's next step on the candidates of `read` and the stale segments. -/
def converge (extractorVersion : String) (read : Corpus) (stale : List String)
    (half : Option Half) (corpus : Corpus) (answer : Answer) : Corpus × Progress :=
  match half with
  | none => (corpus, openHalf extractorVersion read stale corpus answer)
  | some half => advanceHalf extractorVersion half corpus answer

/-- The derived segments less the visible ones. -/
def staleIds (candidacy derived : Corpus) : List String :=
  derived.derivedSegmentIds.filter fun id => !candidacy.visibleSegmentIds.contains id

/-! ## What the reconciler remembers -/

structure Memory where
  converged : TenantId → Option (DerivationSignature × Instant)
  swept : Bool
  unconverged : Finset TenantId

namespace Memory

/-- The memory of a fresh process. -/
def fresh : Memory := ⟨fun _ => none, false, ∅⟩

/-- A tenant converged while gone and not in the probe is forgotten. -/
def prune (memory : Memory) (probe : World) : Memory :=
  { memory with converged := fun tenant => (memory.converged tenant).filter fun entry =>
      (probe tenant).derivationSignature.isSome || decide (entry.1 ≠ gone) }

/-- The tenants a sweep considers: in the probe, converged, unconverged, or found by the fresh
process's derived read. -/
def knows (memory : Memory) (probe : World) (derived : Option World) (tenant : TenantId) : Bool :=
  (probe tenant).derivationSignature.isSome || (memory.converged tenant).isSome ||
    decide (tenant ∈ memory.unconverged) ||
    derived.any fun read => decide ((read tenant).derivedSegmentIds ≠ [])

def isDue (memory : Memory) (tenant : TenantId) (signature : DerivationSignature)
    (now : Instant) : Bool :=
  derivationDue ((memory.converged tenant).map (·.1)) signature
    ((memory.converged tenant).map (·.2)) now

/-- The tenants a sweep of this probe takes up, of those the hub holds. -/
def due (memory : Memory) (tenants : List TenantId) (probe : World) (derived : Option World)
    (now : Instant) : List TenantId :=
  tenants.filter fun tenant => memory.knows probe derived tenant &&
    memory.isDue tenant ((probe tenant).derivationSignature.getD gone) now

def discard (memory : Memory) (tenant : TenantId) : Memory :=
  { memory with unconverged := memory.unconverged.erase tenant }

end Memory

/-! ## Passes under way -/

/-- The part of a sweep in which its due tenants converge, one after the other. -/
structure Share where
  due : List TenantId
  candidacy : Snapshot
  derived : Snapshot
  todo : List TenantId
  half : Option Half
  converged : List (TenantId × Outcomes)
  unconverged : List TenantId

def Share.opened (due : List TenantId) (candidacy derived : Snapshot) : Share :=
  ⟨due, candidacy, derived, due, none, [], []⟩

/-- The share after the tenant's step; `rest` is what is still to do behind the tenant. -/
def Share.take (share : Share) (tenant : TenantId) (rest : List TenantId) : Progress → Share
  | .running half => { share with half := some half }
  | .converged outcomes =>
    { share with todo := rest, half := none, converged := share.converged ++ [(tenant, outcomes)] }
  | .unconverged =>
    { share with todo := rest, half := none, unconverged := share.unconverged ++ [tenant] }
  | .closed => { share with todo := rest, half := none }

/-- Where a sweep stands: its probe read, its due tenants known, its candidacy read, or its
tenants converging. A fresh process's derived read comes before its due tenants are known. -/
inductive SweepStage
  | probed
  | chosen (due : List TenantId) (derived : Option Snapshot)
  | judged (due : List TenantId) (candidacy : Snapshot)
  | converging (share : Share)

structure Sweep where
  probe : Snapshot
  now : Instant
  stage : SweepStage

inductive TenantStage
  | probed
  | judged (candidacy : Snapshot)
  | converging (candidacy derived : Snapshot) (half : Option Half)

structure TenantPass where
  probe : Snapshot
  now : Instant
  stage : TenantStage

/-- A convergence as it was recorded, with the reads it used and the segments it left marked. -/
structure Convergence where
  tenant : TenantId
  signature : DerivationSignature
  convergedAt : Instant
  probe : Snapshot
  candidacy : Snapshot
  derived : Snapshot
  outcomes : Outcomes
  left : List String

/-- `seen` keeps what the tenants held before each step, `log` every convergence recorded. -/
structure State where
  seen : List World
  world : World
  memory : Memory
  sweep : Option Sweep
  passes : TenantId → Option TenantPass
  log : List Convergence

def State.fresh (world : World) : State :=
  ⟨[], world, .fresh, none, fun _ => none, []⟩

def State.snapshot (s : State) : Snapshot := ⟨s.seen.length, s.world⟩

/-! ## Steps -/

/-- The tenants the hub holds and the version segments are derived at. -/
structure Reconciler where
  tenants : List TenantId
  extractorVersion : String
  nodup : tenants.Nodup

inductive Event
  | change (tenant : TenantId) (corpus : Corpus)
  | beginSweep (now : Instant)
  | beginTenant (tenant : TenantId) (now : Instant)
  | advanceSweep (answer : Answer)
  | advanceTenant (tenant : TenantId) (answer : Answer)

def recordOf (s : State) (probe candidacy derived : Snapshot) (now : Instant)
    (converged : TenantId × Outcomes) : Convergence where
  tenant := converged.1
  signature := (probe.world converged.1).derivationSignature.getD gone
  convergedAt := now
  probe := probe
  candidacy := candidacy
  derived := derived
  outcomes := converged.2
  left := (s.world converged.1).markedIds

/-- The sweep moves on to `stage`. -/
def State.sweeping (s : State) (sweep : Sweep) (stage : SweepStage) : State :=
  { s with sweep := some { sweep with stage := stage } }

/-- The due tenants are chosen and the sweep is no longer the process's first; where none is due
the sweep ends. -/
def State.choose (r : Reconciler) (s : State) (sweep : Sweep) (derived : Option Snapshot) : State :=
  let due := s.memory.due r.tenants sweep.probe.world (derived.map (·.world)) sweep.now
  if due = [] then { s with sweep := none }
  else { s with
    memory := { s.memory with swept := true }
    sweep := some { sweep with stage := .chosen due derived } }

/-- What the sweep converged is recorded at its probe's signatures. -/
def State.finishSweep (s : State) (sweep : Sweep) (share : Share) : State :=
  { s with
    memory := { s.memory with
      unconverged := (s.memory.unconverged \ share.due.toFinset) ∪ share.unconverged.toFinset
      converged := fun tenant =>
        if tenant ∈ share.converged.map (·.1) then
          some ((sweep.probe.world tenant).derivationSignature.getD gone, sweep.now)
        else s.memory.converged tenant }
    sweep := none
    log := s.log ++
      share.converged.map (recordOf s sweep.probe share.candidacy share.derived sweep.now) }

/-- The next due tenant takes its step; a closed one is discarded. -/
def State.advanceShare (r : Reconciler) (s : State) (sweep : Sweep) (share : Share)
    (answer : Answer) : State :=
  match share.todo with
  | [] => s.finishSweep sweep share
  | tenant :: rest =>
    let moved := converge r.extractorVersion (share.candidacy.world tenant)
      (staleIds (share.candidacy.world tenant) (share.derived.world tenant)) share.half
      (s.world tenant) answer
    { s with
      world := Function.update s.world tenant moved.1
      memory := if moved.2 = .closed then s.memory.discard tenant else s.memory
      sweep := some { sweep with stage := .converging (share.take tenant rest moved.2) } }

/-- The sweep's next statement. A corpus read that raises ends the pass. -/
def State.stepSweep (r : Reconciler) (s : State) (sweep : Sweep) (answer : Answer) : State :=
  match sweep.stage with
  | .probed =>
    if s.memory.swept then s.choose r sweep none
    else if answer.raises then { s with sweep := none }
    else s.choose r sweep (some s.snapshot)
  | .chosen due derived =>
    if answer.raises then { s with sweep := none }
    else
      match derived with
      | none => s.sweeping sweep (.judged due s.snapshot)
      | some derived => s.sweeping sweep (.converging (.opened due s.snapshot derived))
  | .judged due candidacy =>
    if answer.raises then { s with sweep := none }
    else s.sweeping sweep (.converging (.opened due candidacy s.snapshot))
  | .converging share => s.advanceShare r sweep share answer

/-- The tenant's pass moves on to `stage`, or ends. -/
def State.passing (s : State) (tenant : TenantId) (pass : Option TenantPass) : State :=
  { s with passes := Function.update s.passes tenant pass }

/-- The tenant's half took a step and the pass records what came of it. -/
def State.settleTenant (s : State) (tenant : TenantId) (pass : TenantPass)
    (candidacy derived : Snapshot) : Progress → State
  | .running half =>
    s.passing tenant (some { pass with stage := .converging candidacy derived (some half) })
  | .converged outcomes =>
    let signature := (pass.probe.world tenant).derivationSignature.getD gone
    { s.passing tenant none with
      memory := { s.memory.discard tenant with
        converged := Function.update s.memory.converged tenant (some (signature, pass.now)) }
      log := s.log ++ [recordOf s pass.probe candidacy derived pass.now (tenant, outcomes)] }
  | .unconverged =>
    { s.passing tenant none with
      memory := { s.memory with unconverged := insert tenant s.memory.unconverged } }
  | .closed => { s.passing tenant none with memory := s.memory.discard tenant }

/-- The tenant's pass takes its next statement. -/
def State.stepTenant (r : Reconciler) (s : State) (tenant : TenantId) (pass : TenantPass)
    (answer : Answer) : State :=
  match pass.stage with
  | .probed =>
    if answer.raises then s.passing tenant none
    else s.passing tenant (some { pass with stage := .judged s.snapshot })
  | .judged candidacy =>
    if answer.raises then s.passing tenant none
    else s.passing tenant (some { pass with stage := .converging candidacy s.snapshot none })
  | .converging candidacy derived half =>
    let moved := converge r.extractorVersion (candidacy.world tenant)
      (staleIds (candidacy.world tenant) (derived.world tenant)) half (s.world tenant) answer
    { s with world := Function.update s.world tenant moved.1 }.settleTenant tenant pass
      candidacy derived moved.2

/-- Whether no pass is under way. -/
def State.idle (r : Reconciler) (s : State) : Bool :=
  s.sweep.isNone && r.tenants.all fun tenant => (s.passes tenant).isNone

/-- One event. The sweep of all tenants runs alone and a tenant's own passes exclude each other;
passes of different tenants overlap. An event out of turn changes nothing, as does a probe that
raises. -/
def State.act (r : Reconciler) (s : State) : Event → State
  | .change tenant corpus =>
    if (s.world tenant).Permits corpus then
      { s with world := Function.update s.world tenant corpus }
    else s
  | .beginSweep now =>
    if s.idle r then
      { s with
        memory := s.memory.prune s.world
        sweep := some ⟨s.snapshot, now, .probed⟩ }
    else s
  | .beginTenant tenant now =>
    if tenant ∈ r.tenants ∧ s.sweep.isNone ∧ (s.passes tenant).isNone ∧
        s.memory.isDue tenant ((s.world tenant).derivationSignature.getD gone) now then
      s.passing tenant (some ⟨s.snapshot, now, .probed⟩)
    else s
  | .advanceSweep answer =>
    match s.sweep with
    | some sweep => s.stepSweep r sweep answer
    | none => s
  | .advanceTenant tenant answer =>
    match s.passes tenant with
    | some pass => s.stepTenant r tenant pass answer
    | none => s

def State.after (r : Reconciler) (s : State) (event : Event) : State :=
  { s.act r event with seen := s.seen ++ [s.world] }

end Blizzard.DerivationSweeps
