import Blizzard.HubTables
import Mathlib.Algebra.Ring.Nat
import Mathlib.Tactic.Common

/-! # Provider-overload backoff rows of a runner

The overload facts, resets and lease closures of one runner store, the two
reads over them, and the recording of a classified exit. A streak is counted
above the newest reset, an open fact is judged by rows that do not exist. -/
namespace Blizzard.OverloadStore
open HubTables

inductive InvocationKind | worker | judge
  deriving DecidableEq, Repr

def backoffBaseSeconds : ℕ := 60
def backoffCapSeconds : ℕ := 15 * 60

/-- The streak ordinal that falls through instead of backing off again. -/
def backoffLimit : ℕ := 5

def seconds (n : ℕ) : Instant := (n : ℤ) * 1000000 * microsecond

/-- The wait before a streak position's own resume; the first position is `1`. -/
def backoffDelay (streakOrdinal : ℕ) : Instant :=
  seconds (min (backoffBaseSeconds * 2 ^ (streakOrdinal - 1)) backoffCapSeconds)

/-- A row of `overload_facts`; `resumeAfter` is `none` for a fall-through. -/
structure OverloadExit where
  leaseId : String
  chunkId : String
  epoch : ℤ
  generation : ℕ
  invocationKind : InvocationKind
  invocationIdentity : String
  streakOrdinal : ℕ
  observedAt : Instant
  resumeAfter : Option Instant
  deriving DecidableEq, Repr

def OverloadExit.backingOff (fact : OverloadExit) : Bool := fact.resumeAfter.isSome

/-- The fact that stands once this one is recorded. -/
def OverloadExit.settled (fact : OverloadExit) (standing : Option OverloadExit) : OverloadExit :=
  standing.getD fact

/-- A row of `overload_resets`. -/
structure ResetRow where
  leaseId : String
  epoch : ℤ
  resetAt : Instant
  deriving DecidableEq, Repr

structure OverloadStreak where
  count : ℕ

def OverloadStreak.isOpen (streak : OverloadStreak) : Bool := decide (0 < streak.count)

/-- What the store reads of a lease when it records one of its exits. -/
structure LeaseKey where
  leaseId : String
  chunkId : String
  epoch : ℤ

def OverloadStreak.nextFact (streak : OverloadStreak) (lease : LeaseKey) (generation : ℕ)
    (kind : InvocationKind) (identity : String) (at_ : Instant) : OverloadExit :=
  let ordinal := streak.count + 1
  { leaseId := lease.leaseId, chunkId := lease.chunkId, epoch := lease.epoch,
    generation := generation, invocationKind := kind, invocationIdentity := identity,
    streakOrdinal := ordinal, observedAt := at_,
    resumeAfter := if ordinal < backoffLimit then some (at_ + backoffDelay ordinal) else none }

/-- One runner's rows, in insertion order. -/
structure Rows where
  overloadFacts : List OverloadExit := []
  overloadResets : List ResetRow := []
  leaseClosures : List String := []

variable (rows : Rows) (leaseId : String) (epoch : ℤ)

def factsOf : List OverloadExit :=
  rows.overloadFacts.filter fun f => decide (f.leaseId = leaseId ∧ f.epoch = epoch)

def resetsOf : List ResetRow :=
  rows.overloadResets.filter fun r => decide (r.leaseId = leaseId ∧ r.epoch = epoch)

/-- `max(reset_at)`, `none` for no rows. -/
def latestReset : Option Instant := ((resetsOf rows leaseId epoch).map (·.resetAt)).max?

/-- The row condition of the streak's count. -/
def countsInStreak (fact : OverloadExit) : Bool :=
  (latestReset rows leaseId epoch).all fun since => decide (since < fact.observedAt)

def overloadStreak : ℕ :=
  ((factsOf rows leaseId epoch).filter (countsInStreak rows leaseId epoch)).length

def notSupersededByLaterOverload (fact : OverloadExit) : Bool :=
  !rows.overloadFacts.any fun later => decide (later.leaseId = fact.leaseId ∧
    later.epoch = fact.epoch ∧ fact.observedAt < later.observedAt)

def notSupersededByReset (fact : OverloadExit) : Bool :=
  !rows.overloadResets.any fun reset => decide (reset.leaseId = fact.leaseId ∧
    reset.epoch = fact.epoch ∧ fact.observedAt < reset.resetAt)

def notSupersededByLeaseClosure (fact : OverloadExit) : Bool :=
  !rows.leaseClosures.contains fact.leaseId

def openOverloadFacts : List OverloadExit :=
  rows.overloadFacts.filter fun fact => fact.backingOff &&
    (notSupersededByLaterOverload rows fact && notSupersededByReset rows fact &&
      notSupersededByLeaseClosure rows fact)

inductive StoreError | multipleResultsFound
  deriving DecidableEq, Repr

/-- The rows recorded for one invocation of a lease. -/
def recordedFor (kind : InvocationKind) (identity : String) : List OverloadExit :=
  (factsOf rows leaseId epoch).filter fun f =>
    decide (f.invocationKind = kind ∧ f.invocationIdentity = identity)

/-- Insert unless the invocation is recorded; the standing exit is answered, `none` on an insert. -/
def recordOverload (fact : OverloadExit) : Except StoreError (Rows × Option OverloadExit) :=
  match recordedFor rows fact.leaseId fact.epoch fact.invocationKind fact.invocationIdentity with
  | [] => .ok ({ rows with overloadFacts := rows.overloadFacts ++ [fact] }, none)
  | [existing] => .ok (rows, some existing)
  | _ :: _ :: _ => .error .multipleResultsFound

def recordReset (at_ : Instant) : Rows :=
  { rows with overloadResets := rows.overloadResets ++ [⟨leaseId, epoch, at_⟩] }

/-- The fact an exit would be, counted from the streak it is read in. -/
def candidate (lease : LeaseKey) (generation : ℕ) (kind : InvocationKind) (identity : String)
    (at_ : Instant) : OverloadExit :=
  (OverloadStreak.mk (overloadStreak rows lease.leaseId lease.epoch)).nextFact lease generation
    kind identity at_

/-- Classify one overloaded exit: the rows after it and the fact that stands for it. -/
def record (lease : LeaseKey) (generation : ℕ) (kind : InvocationKind) (identity : String)
    (at_ : Instant) : Except StoreError (Rows × OverloadExit) := do
  let fact := candidate rows lease generation kind identity at_
  let (rows', standing) ← recordOverload rows fact
  return (rows', fact.settled standing)

def recordWorkerOverload (lease : LeaseKey) (generation : ℕ) (at_ : Instant) :
    Except StoreError (Rows × OverloadExit) :=
  record rows lease generation .worker (toString generation) at_

def recordJudgeOverload (lease : LeaseKey) (generation : ℕ) (identity : String) (at_ : Instant) :
    Except StoreError (Rows × OverloadExit) :=
  record rows lease generation .judge identity at_

/-- A clean exit writes a reset only where a streak is open. -/
def resetIfStreakOpen (lease : LeaseKey) (at_ : Instant) : Rows :=
  if (OverloadStreak.mk (overloadStreak rows lease.leaseId lease.epoch)).isOpen
    then recordReset rows lease.leaseId lease.epoch at_ else rows

variable {rows leaseId epoch} {fact : OverloadExit}

@[simp] theorem mem_factsOf : fact ∈ factsOf rows leaseId epoch ↔
    fact ∈ rows.overloadFacts ∧ fact.leaseId = leaseId ∧ fact.epoch = epoch := by
  simp [factsOf]

@[simp] theorem mem_resetsOf {reset : ResetRow} : reset ∈ resetsOf rows leaseId epoch ↔
    reset ∈ rows.overloadResets ∧ reset.leaseId = leaseId ∧ reset.epoch = epoch := by
  simp [resetsOf]

/-- A fact counts exactly when every reset of its lease is older than it. -/
theorem countsInStreak_iff : countsInStreak rows leaseId epoch fact = true ↔
    ∀ reset ∈ resetsOf rows leaseId epoch, reset.resetAt < fact.observedAt := by
  unfold countsInStreak latestReset
  cases found : ((resetsOf rows leaseId epoch).map (·.resetAt)).max? with
  | none =>
    have none_ : resetsOf rows leaseId epoch = [] := by
      simpa [List.max?_eq_none_iff] using found
    simp [none_]
  | some since =>
    obtain ⟨mem, bound⟩ := List.max?_eq_some_iff.mp found
    simp only [Option.all_some, decide_eq_true_eq]
    constructor
    · intro later reset hreset
      have older : reset.resetAt ≤ since := bound _ (List.mem_map_of_mem hreset)
      exact lt_of_le_of_lt older later
    · intro older
      obtain ⟨reset, hreset, rfl⟩ := List.mem_map.mp mem
      exact older reset hreset

theorem notSupersededByReset_iff (hlease : fact.leaseId = leaseId) (hepoch : fact.epoch = epoch) :
    notSupersededByReset rows fact = true ↔
      ∀ reset ∈ resetsOf rows leaseId epoch, reset.resetAt ≤ fact.observedAt := by
  subst hlease hepoch
  simp only [notSupersededByReset, Bool.not_eq_true', List.any_eq_false, decide_eq_true_eq,
    not_and, not_lt, mem_resetsOf]
  constructor
  · intro h reset hreset
    exact h reset hreset.1 hreset.2.1 hreset.2.2
  · intro h reset hreset sameLease sameEpoch
    exact h reset ⟨hreset, sameLease, sameEpoch⟩

/-- An open fact of a lease: a backing-off row with no newer overload and no newer reset. -/
theorem mem_openOverloadFacts (hlease : fact.leaseId = leaseId) (hepoch : fact.epoch = epoch) :
    fact ∈ openOverloadFacts rows ↔ fact ∈ factsOf rows leaseId epoch ∧ fact.backingOff = true ∧
      (∀ later ∈ factsOf rows leaseId epoch, later.observedAt ≤ fact.observedAt) ∧
      notSupersededByReset rows fact = true ∧ leaseId ∉ rows.leaseClosures := by
  subst hlease hepoch
  simp only [openOverloadFacts, List.mem_filter, Bool.and_eq_true, notSupersededByLaterOverload,
    notSupersededByLeaseClosure, Bool.not_eq_true', List.any_eq_false, decide_eq_true_eq, not_and,
    not_lt, List.contains_eq_mem, decide_eq_false_iff_not, mem_factsOf]
  constructor
  · rintro ⟨mem, backing, ⟨later, reset⟩, unclosed⟩
    exact ⟨⟨mem, trivial, trivial⟩, backing, fun f hf => later f hf.1 hf.2.1 hf.2.2, reset, unclosed⟩
  · rintro ⟨⟨mem, -, -⟩, backing, later, reset, unclosed⟩
    exact ⟨mem, backing, ⟨fun f hf hl he => later f ⟨hf, hl, he⟩, reset⟩, unclosed⟩

end Blizzard.OverloadStore
