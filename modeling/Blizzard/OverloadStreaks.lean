import Blizzard.DictionaryRows
import Blizzard.ExceptRules
import Blizzard.OverloadStore
import Blizzard.TransitionRuns
import Mathlib.Data.List.Perm.Subperm

/-! # Backoff streaks over a lease's exits

The exits of one lease, overloaded ones classified any number of times, clean
ones closing the streak. A desk keeps beside the rows the exits recorded since
the last clean one. The streak's count and the open facts agree in every state
of a run exactly when no exit shares its instant with a row that decides it. -/
namespace Blizzard.OverloadStreaks
open HubTables OverloadStore TransitionRuns

/-- One exit of the lease, the clock having moved on by `elapsed`, possibly by nothing. -/
inductive Exit
  | overloaded (generation : ℕ) (kind : InvocationKind) (identity : String) (elapsed : ℕ)
  | clean (elapsed : ℕ)

/-- `since` lists the exits recorded since the last clean exit. -/
structure Desk where
  rows : Rows
  clock : Instant
  since : List OverloadExit := []

variable (lease : LeaseKey)

def Desk.exits (desk : Desk) : List OverloadExit := factsOf desk.rows lease.leaseId lease.epoch

def Desk.resets (desk : Desk) : List ResetRow := resetsOf desk.rows lease.leaseId lease.epoch

def Desk.counts (desk : Desk) (fact : OverloadExit) : Bool :=
  countsInStreak desk.rows lease.leaseId lease.epoch fact

/-- The clock at the next exit. -/
def Desk.now (desk : Desk) (elapsed : ℕ) : Instant := desk.clock + elapsed

def step (desk : Desk) : Exit → Desk
  | .overloaded generation kind identity elapsed =>
    let now := desk.now elapsed
    match record desk.rows lease generation kind identity now with
    | .error _ => { desk with clock := now }
    | .ok (rows, fact) =>
      { rows := rows, clock := now,
        since := if recordedFor desk.rows lease.leaseId lease.epoch kind identity = []
          then desk.since ++ [fact] else desk.since }
  | .clean elapsed =>
    let now := desk.now elapsed
    { rows := resetIfStreakOpen desk.rows lease now, clock := now, since := [] }

/-- What the backoff policy says of the rows, at one state of a run. -/
structure Lawful (desk : Desk) : Prop where
  ordinals : desk.since.map (·.streakOrdinal) = List.range' 1 desk.since.length
  decided : ∀ f ∈ desk.since, f.resumeAfter = if f.streakOrdinal < backoffLimit
    then some (f.observedAt + backoffDelay f.streakOrdinal) else none
  backedOff : (desk.since.filter (·.backingOff)).length ≤ backoffLimit - 1
  reclassified : ∀ f ∈ desk.exits lease, ∀ generation at_, record desk.rows lease generation
    f.invocationKind f.invocationIdentity at_ = .ok (desk.rows, f)
  recorded : ∀ generation kind identity at_,
    recordedFor desk.rows lease.leaseId lease.epoch kind identity = [] →
    ∃ fact, record desk.rows lease generation kind identity at_ =
        .ok ({ desk.rows with overloadFacts := desk.rows.overloadFacts ++ [fact] }, fact) ∧
      fact.streakOrdinal = desk.since.length + 1
  agree : ∀ f ∈ desk.exits lease, f.backingOff = true →
    notSupersededByReset desk.rows f = desk.counts lease f
  opens : ∀ f ∈ openOverloadFacts desk.rows, f.leaseId = lease.leaseId → f.epoch = lease.epoch →
    (desk.exits lease).getLast? = some f ∧ desk.counts lease f = true

/-- No row that decides this exit was stamped at the same instant. -/
def Apart (desk : Desk) : Exit → Prop
  | .overloaded _ kind identity elapsed =>
    recordedFor desk.rows lease.leaseId lease.epoch kind identity = [] →
      (∀ reset ∈ desk.resets lease, reset.resetAt ≠ desk.now elapsed) ∧
      ∀ f ∈ desk.exits lease, f.backingOff = true → f.observedAt ≠ desk.now elapsed
  | .clean elapsed =>
    ∀ f ∈ desk.exits lease, f.backingOff = true → f.observedAt ≠ desk.now elapsed

instance decidableApart (desk : Desk) : (exit : Exit) → Decidable (Apart lease desk exit)
  | .overloaded _ _ _ _ => inferInstanceAs (Decidable (_ → _ ∧ _))
  | .clean _ => inferInstanceAs (Decidable (∀ f ∈ desk.exits lease, _))

variable {lease} {desk : Desk}

/-! ## One recording -/

def invocation (f : OverloadExit) : InvocationKind × String :=
  (f.invocationKind, f.invocationIdentity)

theorem recordedFor_invocation (f : OverloadExit) :
    recordedFor desk.rows lease.leaseId lease.epoch f.invocationKind f.invocationIdentity =
      (desk.exits lease).filter fun other => invocation other = invocation f := by
  simp only [recordedFor, Desk.exits, invocation, Prod.mk.injEq]

theorem record_fresh {generation : ℕ} {kind : InvocationKind} {identity : String} {at_ : Instant}
    (fresh : recordedFor desk.rows lease.leaseId lease.epoch kind identity = []) :
    record desk.rows lease generation kind identity at_ =
      .ok ({ desk.rows with overloadFacts := desk.rows.overloadFacts ++
          [candidate desk.rows lease generation kind identity at_] },
        candidate desk.rows lease generation kind identity at_) := by
  have inserted : recordOverload desk.rows (candidate desk.rows lease generation kind identity at_) =
      .ok ({ desk.rows with overloadFacts := desk.rows.overloadFacts ++
        [candidate desk.rows lease generation kind identity at_] }, none) := by
    simp only [recordOverload, candidate, OverloadStreak.nextFact, fresh]
  simp [record, inserted, bind, Except.bind, pure, Except.pure, OverloadExit.settled]

theorem record_standing {generation : ℕ} {kind : InvocationKind} {identity : String} {at_ : Instant}
    {f : OverloadExit}
    (standing : recordedFor desk.rows lease.leaseId lease.epoch kind identity = [f]) :
    record desk.rows lease generation kind identity at_ = .ok (desk.rows, f) := by
  have kept : recordOverload desk.rows (candidate desk.rows lease generation kind identity at_) =
      .ok (desk.rows, some f) := by
    simp only [recordOverload, candidate, OverloadStreak.nextFact, standing]
  simp [record, kept, bind, Except.bind, pure, Except.pure, OverloadExit.settled]

/-- The desk after `fact` was recorded as a new exit. -/
def Desk.recording (desk : Desk) (fact : OverloadExit) : Desk :=
  { rows := { desk.rows with overloadFacts := desk.rows.overloadFacts ++ [fact] },
    clock := fact.observedAt, since := desk.since ++ [fact] }

/-- The desk after a clean exit that closed a streak. -/
def Desk.closing (lease : LeaseKey) (desk : Desk) (at_ : Instant) : Desk :=
  { rows := recordReset desk.rows lease.leaseId lease.epoch at_, clock := at_ }

theorem exits_recording {fact : OverloadExit} (hlease : fact.leaseId = lease.leaseId)
    (hepoch : fact.epoch = lease.epoch) :
    (desk.recording fact).exits lease = desk.exits lease ++ [fact] := by
  simp [Desk.exits, Desk.recording, factsOf, hlease, hepoch]

theorem resets_recording {fact : OverloadExit} :
    (desk.recording fact).resets lease = desk.resets lease := rfl

theorem resets_closing {at_ : Instant} :
    (desk.closing lease at_).resets lease =
      desk.resets lease ++ [⟨lease.leaseId, lease.epoch, at_⟩] := by
  simp [Desk.resets, Desk.closing, resetsOf, recordReset]

theorem exits_closing {at_ : Instant} :
    (desk.closing lease at_).exits lease = desk.exits lease := rfl

theorem clock_le_now (elapsed : ℕ) : desk.clock ≤ desk.now elapsed :=
  Int.le_add_of_nonneg_right (Int.natCast_nonneg elapsed)

theorem counts_iff {f : OverloadExit} :
    desk.counts lease f = true ↔ ∀ reset ∈ desk.resets lease, reset.resetAt < f.observedAt :=
  countsInStreak_iff

/-! ## The invariant -/

/-- What every step that keeps apart preserves. -/
structure Kept (lease : LeaseKey) (desk : Desk) : Prop where
  exitsPast : ∀ f ∈ desk.exits lease, f.observedAt ≤ desk.clock
  resetsPast : ∀ reset ∈ desk.resets lease, reset.resetAt ≤ desk.clock
  invocations : ((desk.exits lease).map invocation).Nodup
  since : (desk.exits lease).filter (desk.counts lease) = desk.since
  ordinals : desk.since.map (·.streakOrdinal) = List.range' 1 desk.since.length
  decided : ∀ f ∈ desk.exits lease, f.resumeAfter = if f.streakOrdinal < backoffLimit
    then some (f.observedAt + backoffDelay f.streakOrdinal) else none
  apart : ∀ f ∈ desk.exits lease, f.backingOff = true →
    ∀ reset ∈ desk.resets lease, reset.resetAt ≠ f.observedAt
  rising : (desk.exits lease).Pairwise fun f g => f.backingOff = true → f.observedAt < g.observedAt

theorem Kept.streak (h : Kept lease desk) :
    overloadStreak desk.rows lease.leaseId lease.epoch = desk.since.length := by
  rw [← h.since]
  rfl

theorem Kept.since_mem (h : Kept lease desk) {f : OverloadExit} (mem : f ∈ desk.since) :
    f ∈ desk.exits lease := by
  rw [← h.since] at mem
  exact (List.mem_filter.mp mem).1

/-- The exits of a streak that back off are those below the limit. -/
theorem Kept.backingOff_iff (h : Kept lease desk) {f : OverloadExit} (mem : f ∈ desk.exits lease) :
    f.backingOff = true ↔ f.streakOrdinal < backoffLimit := by
  rw [OverloadExit.backingOff, h.decided f mem]
  split <;> simp [*]

theorem range'_below_length (limit count : ℕ) :
    ((List.range' 1 count).filter fun n => decide (n < limit)).length ≤ limit - 1 := by
  have nodup : ((List.range' 1 count).filter fun n => decide (n < limit)).Nodup :=
    List.Nodup.filter _ List.nodup_range'
  have inside : ((List.range' 1 count).filter fun n => decide (n < limit)) ⊆
      List.range' 1 (limit - 1) := by
    intro n hn
    have split_ := List.mem_filter.mp hn
    have low := List.mem_range'_1.mp split_.1
    have high := of_decide_eq_true split_.2
    rw [List.mem_range'_1]
    omega
  simpa using (List.Nodup.subperm nodup inside).length_le

theorem Kept.backedOff (h : Kept lease desk) :
    (desk.since.filter (·.backingOff)).length ≤ backoffLimit - 1 := by
  have same : desk.since.filter (·.backingOff) =
      desk.since.filter fun f => decide (f.streakOrdinal < backoffLimit) := by
    apply List.filter_congr
    intro f mem
    rw [Bool.eq_iff_iff, decide_eq_true_eq]
    exact h.backingOff_iff (h.since_mem mem)
  have ordinals : (desk.since.filter fun f => decide (f.streakOrdinal < backoffLimit)).map
      (·.streakOrdinal) = (List.range' 1 desk.since.length).filter fun n => decide (n < backoffLimit) := by
    rw [← h.ordinals, List.filter_map]
    rfl
  rw [same, ← List.length_map (f := (·.streakOrdinal)), ordinals]
  exact range'_below_length _ _

/-- Where rows keep apart, a reset closes for the open facts what it closes for the streak. -/
theorem Kept.agree (h : Kept lease desk) {f : OverloadExit} (mem : f ∈ desk.exits lease)
    (backing : f.backingOff = true) : notSupersededByReset desk.rows f = desk.counts lease f := by
  have owner := mem_factsOf.mp mem
  rw [Bool.eq_iff_iff, notSupersededByReset_iff owner.2.1 owner.2.2, counts_iff]
  constructor
  · intro older reset hreset
    exact lt_of_le_of_ne (older reset hreset) (h.apart f mem backing reset hreset)
  · intro older reset hreset
    exact le_of_lt (older reset hreset)

theorem Kept.opens (h : Kept lease desk) {f : OverloadExit}
    (mem : f ∈ openOverloadFacts desk.rows) (hlease : f.leaseId = lease.leaseId)
    (hepoch : f.epoch = lease.epoch) :
    (desk.exits lease).getLast? = some f ∧ desk.counts lease f = true := by
  obtain ⟨inside, backing, newest, unreset, -⟩ := (mem_openOverloadFacts hlease hepoch).mp mem
  refine ⟨?_, (h.agree inside backing).symm.trans unreset⟩
  -- an exit recorded after a backing-off one is strictly newer, so nothing follows an open fact
  obtain ⟨before, after_, exits⟩ := List.append_of_mem inside
  have exits' : desk.exits lease = before ++ f :: after_ := exits
  have rising := h.rising
  rw [exits', List.pairwise_append, List.pairwise_cons] at rising
  cases after_ with
  | nil => rw [exits', List.getLast?_append_cons, List.getLast?_singleton]
  | cons later rest =>
    have newer := rising.2.1.1 later (by simp) backing
    have older := newest later (by rw [exits]; simp)
    exact absurd newer (not_lt.mpr older)

theorem Kept.lawful (h : Kept lease desk) : Lawful lease desk where
  ordinals := h.ordinals
  decided f mem := h.decided f (h.since_mem mem)
  backedOff := h.backedOff
  reclassified f mem generation at_ := by
    apply record_standing
    rw [recordedFor_invocation]
    exact DictionaryRows.filter_key h.invocations mem
  recorded generation kind identity at_ fresh := by
    refine ⟨_, record_fresh fresh, ?_⟩
    simp only [candidate, OverloadStreak.nextFact, h.streak]
  agree f mem backing := h.agree mem backing
  opens f mem hlease hepoch := h.opens mem hlease hepoch

/-! ## One step -/

theorem step_fresh {generation elapsed : ℕ} {kind : InvocationKind} {identity : String}
    (fresh : recordedFor desk.rows lease.leaseId lease.epoch kind identity = []) :
    step lease desk (.overloaded generation kind identity elapsed) = desk.recording
      (candidate desk.rows lease generation kind identity (desk.now elapsed)) := by
  simp only [step, record_fresh fresh, fresh, if_true]
  rfl

theorem step_standing {generation elapsed : ℕ} {kind : InvocationKind} {identity : String}
    {f : OverloadExit}
    (standing : recordedFor desk.rows lease.leaseId lease.epoch kind identity = [f]) :
    step lease desk (.overloaded generation kind identity elapsed) =
      { desk with clock := desk.now elapsed } := by
  have held : recordedFor desk.rows lease.leaseId lease.epoch kind identity ≠ [] := by
    rw [standing]
    simp
  simp only [step, record_standing standing, if_neg held]

theorem Kept.step_clean_open (h : Kept lease desk) (some_ : desk.since ≠ []) (elapsed : ℕ) :
    step lease desk (.clean elapsed) = desk.closing lease (desk.now elapsed) := by
  have positive : 0 < desk.since.length := List.length_pos_iff.mpr some_
  simp [step, resetIfStreakOpen, OverloadStreak.isOpen, h.streak, positive, Desk.closing]

theorem Kept.step_clean_closed (h : Kept lease desk) (none_ : desk.since = []) (elapsed : ℕ) :
    step lease desk (.clean elapsed) = { desk with clock := desk.now elapsed } := by
  simp [step, resetIfStreakOpen, OverloadStreak.isOpen, h.streak, none_]

/-- An invocation is recorded once or not at all. -/
theorem Kept.recordedFor_cases (h : Kept lease desk) (kind : InvocationKind) (identity : String) :
    recordedFor desk.rows lease.leaseId lease.epoch kind identity = [] ∨
      ∃ f, recordedFor desk.rows lease.leaseId lease.epoch kind identity = [f] := by
  cases found : recordedFor desk.rows lease.leaseId lease.epoch kind identity with
  | nil => exact .inl rfl
  | cons f rest =>
    have mem : f ∈ recordedFor desk.rows lease.leaseId lease.epoch kind identity := by
      rw [found]
      exact List.mem_cons_self
    have inside := List.mem_filter.mp mem
    obtain ⟨rfl, rfl⟩ := of_decide_eq_true inside.2
    rw [recordedFor_invocation, DictionaryRows.filter_key h.invocations inside.1] at found
    exact .inr ⟨f, found.symm⟩

theorem Kept.later (h : Kept lease desk) (elapsed : ℕ) :
    Kept lease { desk with clock := desk.now elapsed } where
  exitsPast f mem := le_trans (h.exitsPast f mem) (clock_le_now elapsed)
  resetsPast reset mem := le_trans (h.resetsPast reset mem) (clock_le_now elapsed)
  invocations := h.invocations
  since := h.since
  ordinals := h.ordinals
  decided := h.decided
  apart := h.apart
  rising := h.rising

theorem not_recorded {kind : InvocationKind} {identity : String}
    (fresh : recordedFor desk.rows lease.leaseId lease.epoch kind identity = [])
    {f : OverloadExit} (mem : f ∈ desk.exits lease) : invocation f ≠ (kind, identity) := by
  intro same
  obtain ⟨rfl, rfl⟩ := Prod.mk.inj same
  have inside : f ∈ recordedFor desk.rows lease.leaseId lease.epoch f.invocationKind
      f.invocationIdentity := List.mem_filter.mpr ⟨mem, by simp⟩
  rw [fresh] at inside
  cases inside

/-- Recording a new exit at an instant no reset and no backing-off exit has. -/
theorem Kept.recorded (h : Kept lease desk) {generation elapsed : ℕ} {kind : InvocationKind}
    {identity : String}
    (fresh : recordedFor desk.rows lease.leaseId lease.epoch kind identity = [])
    (resets : ∀ reset ∈ desk.resets lease, reset.resetAt ≠ desk.now elapsed)
    (exits : ∀ f ∈ desk.exits lease, f.backingOff = true → f.observedAt ≠ desk.now elapsed) :
    Kept lease (desk.recording
      (candidate desk.rows lease generation kind identity (desk.now elapsed))) := by
  have ordinal : (candidate desk.rows lease generation kind identity
      (desk.now elapsed)).streakOrdinal = desk.since.length + 1 := by
    simp only [candidate, OverloadStreak.nextFact, h.streak]
  have appended : (desk.recording
      (candidate desk.rows lease generation kind identity (desk.now elapsed))).exits lease =
      desk.exits lease ++ [candidate desk.rows lease generation kind identity (desk.now elapsed)] :=
    exits_recording rfl rfl
  have passed : desk.clock ≤ desk.now elapsed := clock_le_now elapsed
  constructor
  case exitsPast =>
    rw [appended]
    intro f mem
    rcases List.mem_append.mp mem with old | new
    · exact le_trans (h.exitsPast f old) passed
    · exact le_of_eq (congrArg (·.observedAt) (List.mem_singleton.mp new))
  case resetsPast =>
    intro reset mem
    exact le_trans (h.resetsPast reset mem) passed
  case invocations =>
    rw [appended, List.map_append, List.nodup_append]
    refine ⟨h.invocations, by simp, ?_⟩
    intro key old other new same
    obtain ⟨f, mem, rfl⟩ := List.mem_map.mp old
    rw [List.map_singleton, List.mem_singleton] at new
    exact not_recorded fresh mem (same.trans new)
  case since =>
    rw [appended, List.filter_append]
    congr 1
    · exact h.since
    · rw [List.filter_cons_of_pos, List.filter_nil]
      refine counts_iff.mpr ?_
      intro reset mem
      exact lt_of_le_of_ne (le_trans (h.resetsPast reset mem) passed) (resets reset mem)
  case ordinals =>
    rw [Desk.recording, List.map_append, h.ordinals, List.map_singleton, ordinal,
      List.length_append, List.length_singleton, List.range'_concat]
    simp [Nat.add_comm]
  case decided =>
    rw [appended]
    intro f mem
    rcases List.mem_append.mp mem with old | new
    · exact h.decided f old
    · rw [List.mem_singleton.mp new]
      rfl
  case apart =>
    rw [appended]
    intro f mem backing reset hreset
    rcases List.mem_append.mp mem with old | new
    · exact h.apart f old backing reset hreset
    · rw [List.mem_singleton.mp new]
      exact resets reset hreset
  case rising =>
    rw [appended, List.pairwise_append]
    refine ⟨h.rising, List.pairwise_singleton _ _, ?_⟩
    intro f old g new backing
    rw [List.mem_singleton.mp new]
    exact lt_of_le_of_ne (le_trans (h.exitsPast f old) passed) (exits f old backing)

/-- Closing a streak at an instant no backing-off exit has. -/
theorem Kept.closed (h : Kept lease desk) {elapsed : ℕ}
    (exits : ∀ f ∈ desk.exits lease, f.backingOff = true → f.observedAt ≠ desk.now elapsed) :
    Kept lease (desk.closing lease (desk.now elapsed)) := by
  have passed : desk.clock ≤ desk.now elapsed := clock_le_now elapsed
  constructor
  case exitsPast =>
    intro f mem
    exact le_trans (h.exitsPast f mem) passed
  case resetsPast =>
    rw [resets_closing]
    intro reset mem
    rcases List.mem_append.mp mem with old | new
    · exact le_trans (h.resetsPast reset old) passed
    · exact le_of_eq (congrArg (·.resetAt) (List.mem_singleton.mp new))
  case invocations => exact h.invocations
  case since =>
    apply List.filter_eq_nil_iff.mpr
    intro f mem counted
    rw [counts_iff, resets_closing] at counted
    have newer := counted ⟨lease.leaseId, lease.epoch, desk.now elapsed⟩ (by simp)
    exact absurd newer (not_lt.mpr (le_trans (h.exitsPast f mem) passed))
  case ordinals => rfl
  case decided => exact h.decided
  case apart =>
    rw [resets_closing]
    intro f mem backing reset hreset
    rcases List.mem_append.mp hreset with old | new
    · exact h.apart f mem backing reset old
    · rw [List.mem_singleton.mp new]
      exact (exits f mem backing).symm
  case rising => exact h.rising

theorem Kept.stepped (h : Kept lease desk) {exit : Exit} (apart : Apart lease desk exit) :
    Kept lease (step lease desk exit) := by
  cases exit with
  | overloaded generation kind identity elapsed =>
    rcases h.recordedFor_cases kind identity with fresh | ⟨f, standing⟩
    · obtain ⟨resets, exits⟩ := apart fresh
      rw [step_fresh fresh]
      exact h.recorded fresh resets exits
    · rw [step_standing standing]
      exact h.later elapsed
  | clean elapsed =>
    by_cases none_ : desk.since = []
    · rw [h.step_clean_closed none_]
      exact h.later elapsed
    · rw [h.step_clean_open none_]
      exact h.closed apart

/-! ## What a lawful step needs -/

/-- A new exit stamped with a reset's instant opens a streak the reset hides. -/
theorem Kept.resets_apart (h : Kept lease desk) {generation elapsed : ℕ} {kind : InvocationKind}
    {identity : String}
    (lawful : Lawful lease (desk.recording
      (candidate desk.rows lease generation kind identity (desk.now elapsed)))) :
    ∀ reset ∈ desk.resets lease, reset.resetAt ≠ desk.now elapsed := by
  intro reset hreset same
  have passed : desk.clock ≤ desk.now elapsed := clock_le_now elapsed
  have hidden : desk.since = [] := by
    rw [← h.since]
    apply List.filter_eq_nil_iff.mpr
    intro f mem counted
    have newer := counts_iff.mp counted reset hreset
    rw [same] at newer
    exact absurd newer (not_lt.mpr (le_trans (h.exitsPast f mem) passed))
  have first : (candidate desk.rows lease generation kind identity (desk.now elapsed)).backingOff =
      true := by
    simp [candidate, OverloadStreak.nextFact, OverloadExit.backingOff, h.streak, hidden,
      backoffLimit]
  have inside : candidate desk.rows lease generation kind identity (desk.now elapsed) ∈
      (desk.recording (candidate desk.rows lease generation kind identity
        (desk.now elapsed))).exits lease := by
    rw [exits_recording rfl rfl]
    simp
  have agreed := lawful.agree _ inside first
  have stands : notSupersededByReset (desk.recording (candidate desk.rows lease generation kind
      identity (desk.now elapsed))).rows
      (candidate desk.rows lease generation kind identity (desk.now elapsed)) = true := by
    refine (notSupersededByReset_iff rfl rfl).mpr ?_
    intro other hother
    exact le_trans (h.resetsPast other hother) passed
  rw [stands] at agreed
  have newer := counts_iff.mp agreed.symm reset hreset
  rw [same] at newer
  exact absurd newer (lt_irrefl _)

/-- A new exit stamped with a backing-off exit's instant leaves that one open beside it. -/
theorem Kept.exits_apart (h : Kept lease desk) {generation elapsed : ℕ} {kind : InvocationKind}
    {identity : String} (active : lease.leaseId ∉ desk.rows.leaseClosures)
    (fresh : recordedFor desk.rows lease.leaseId lease.epoch kind identity = [])
    (lawful : Lawful lease (desk.recording
      (candidate desk.rows lease generation kind identity (desk.now elapsed)))) :
    ∀ f ∈ desk.exits lease, f.backingOff = true → f.observedAt ≠ desk.now elapsed := by
  intro f mem backing same
  have passed : desk.clock ≤ desk.now elapsed := clock_le_now elapsed
  have appended : (desk.recording
      (candidate desk.rows lease generation kind identity (desk.now elapsed))).exits lease =
      desk.exits lease ++ [candidate desk.rows lease generation kind identity (desk.now elapsed)] :=
    exits_recording rfl rfl
  obtain ⟨-, hlease, hepoch⟩ := mem_factsOf.mp mem
  have stillOpen : f ∈ openOverloadFacts (desk.recording
      (candidate desk.rows lease generation kind identity (desk.now elapsed))).rows := by
    refine (mem_openOverloadFacts hlease hepoch).mpr ⟨?_, backing, ?_, ?_, active⟩
    · have old : f ∈ desk.exits lease ++
          [candidate desk.rows lease generation kind identity (desk.now elapsed)] :=
        List.mem_append_left _ mem
      rw [← appended] at old
      exact old
    · intro later hlater
      have hlater' : later ∈ (desk.recording (candidate desk.rows lease generation kind identity
        (desk.now elapsed))).exits lease := hlater
      rw [appended] at hlater'
      rw [same]
      rcases List.mem_append.mp hlater' with old | new
      · exact le_trans (h.exitsPast later old) passed
      · exact le_of_eq (congrArg (·.observedAt) (List.mem_singleton.mp new))
    · refine (notSupersededByReset_iff hlease hepoch).mpr ?_
      intro reset hreset
      rw [same]
      exact le_trans (h.resetsPast reset hreset) passed
  have newest := (lawful.opens f stillOpen hlease hepoch).1
  rw [appended, List.getLast?_concat] at newest
  obtain rfl := Option.some.inj newest
  exact not_recorded fresh mem rfl

/-- A clean exit stamped with a backing-off exit's instant closes it for the streak alone. -/
theorem Kept.close_apart (h : Kept lease desk) {elapsed : ℕ}
    (lawful : Lawful lease (step lease desk (.clean elapsed))) :
    ∀ f ∈ desk.exits lease, f.backingOff = true → f.observedAt ≠ desk.now elapsed := by
  intro f mem backing same
  have passed : desk.clock ≤ desk.now elapsed := clock_le_now elapsed
  by_cases none_ : desk.since = []
  · have counted : desk.counts lease f = true := by
      refine counts_iff.mpr ?_
      intro reset hreset
      have older : reset.resetAt ≤ f.observedAt := by
        rw [same]
        exact le_trans (h.resetsPast reset hreset) passed
      exact lt_of_le_of_ne older (h.apart f mem backing reset hreset)
    have inside : f ∈ desk.since := by
      rw [← h.since]
      exact List.mem_filter.mpr ⟨mem, counted⟩
    rw [none_] at inside
    cases inside
  · rw [h.step_clean_open none_] at lawful
    obtain ⟨-, hlease, hepoch⟩ := mem_factsOf.mp mem
    have agreed := lawful.agree f mem backing
    have stands : notSupersededByReset (desk.closing lease (desk.now elapsed)).rows f = true := by
      refine (notSupersededByReset_iff hlease hepoch).mpr ?_
      intro reset hreset
      have hreset' : reset ∈ (desk.closing lease (desk.now elapsed)).resets lease := hreset
      rw [resets_closing] at hreset'
      rw [same]
      rcases List.mem_append.mp hreset' with old | new
      · exact le_trans (h.resetsPast reset old) passed
      · exact le_of_eq (congrArg (·.resetAt) (List.mem_singleton.mp new))
    rw [stands] at agreed
    have newer := counts_iff.mp agreed.symm ⟨lease.leaseId, lease.epoch, desk.now elapsed⟩
      (by rw [resets_closing]; simp)
    rw [same] at newer
    exact absurd newer (lt_irrefl _)

theorem Kept.apart_of_lawful (h : Kept lease desk) (active : lease.leaseId ∉ desk.rows.leaseClosures)
    {exit : Exit} (lawful : Lawful lease (step lease desk exit)) :
    Apart lease desk exit := by
  cases exit with
  | overloaded generation kind identity elapsed =>
    intro fresh
    rw [step_fresh fresh] at lawful
    exact ⟨h.resets_apart lawful, h.exits_apart active fresh lawful⟩
  | clean elapsed => exact h.close_apart lawful

/-- No exit closes the lease. -/
theorem step_leaseClosures (h : Kept lease desk) (exit : Exit) :
    (step lease desk exit).rows.leaseClosures = desk.rows.leaseClosures := by
  cases exit with
  | overloaded generation kind identity elapsed =>
    rcases h.recordedFor_cases kind identity with fresh | ⟨f, standing⟩
    · rw [step_fresh fresh, Desk.recording]
    · rw [step_standing standing]
  | clean elapsed =>
    by_cases none_ : desk.since = []
    · rw [h.step_clean_closed none_]
    · rw [h.step_clean_open none_, Desk.closing, recordReset]

/-! ## Runs -/

/-- A lease no exit of which is recorded, and no reset. -/
theorem kept_start {rows : Rows} {clock : Instant}
    (noExits : factsOf rows lease.leaseId lease.epoch = [])
    (noResets : resetsOf rows lease.leaseId lease.epoch = []) : Kept lease ⟨rows, clock, []⟩ := by
  have exits : Desk.exits lease ⟨rows, clock, []⟩ = [] := noExits
  have resets : Desk.resets lease ⟨rows, clock, []⟩ = [] := noResets
  constructor
  case exitsPast => simp [exits]
  case resetsPast => simp [resets]
  case invocations => simp [exits]
  case since => simp [exits]
  case ordinals => rfl
  case decided => simp [exits]
  case apart => simp [exits]
  case rising => simp [exits]

/-- The exits of a lease are counted, backed off and answered lawfully in every state of a run
whose exits keep apart, and on an open lease in no other run. -/
theorem backoff_lawful_iff {rows : Rows} (clock : Instant)
    (noExits : factsOf rows lease.leaseId lease.epoch = [])
    (noResets : resetsOf rows lease.leaseId lease.epoch = []) (exits : List Exit) :
    (Meeting (Apart lease) (step lease) ⟨rows, clock, []⟩ exits →
      Throughout (Lawful lease) (step lease) ⟨rows, clock, []⟩ exits) ∧
    (lease.leaseId ∉ rows.leaseClosures →
      Throughout (Lawful lease) (step lease) ⟨rows, clock, []⟩ exits →
      Meeting (Apart lease) (step lease) ⟨rows, clock, []⟩ exits) := by
  have start : Kept lease ⟨rows, clock, []⟩ := kept_start noExits noResets
  constructor
  · intro apart
    exact apart.throughout (fun _ h => h.lawful) (fun _ _ h first => h.stepped first) start
  · intro active lawful
    have standing : ∀ desk exit, Kept lease desk ∧ lease.leaseId ∉ desk.rows.leaseClosures →
        Apart lease desk exit → Kept lease (step lease desk exit) ∧
          lease.leaseId ∉ (step lease desk exit).rows.leaseClosures := by
      rintro desk exit ⟨h, unclosed⟩ first
      refine ⟨h.stepped first, ?_⟩
      rw [step_leaseClosures h]
      exact unclosed
    have needs : ∀ desk exit, Kept lease desk ∧ lease.leaseId ∉ desk.rows.leaseClosures →
        Lawful lease (step lease desk exit) → Apart lease desk exit := by
      rintro desk exit ⟨h, unclosed⟩ reached
      exact h.apart_of_lawful unclosed reached
    exact lawful.meeting needs standing ⟨start, active⟩

/-- Two overloads of one worker, the first classified twice, and a clean exit between them. -/
theorem backoff_lawful_iff_apart :
    Throughout (Lawful ⟨"ls_1", "ch_1", 1⟩) (step ⟨"ls_1", "ch_1", 1⟩) ⟨{}, 0, []⟩
      [.overloaded 0 .worker "0" 0, .overloaded 0 .worker "0" 0, .clean 1,
        .overloaded 1 .worker "1" 1] :=
  (backoff_lawful_iff 0 rfl rfl _).1 (by decide)

/-- A clean exit read at the overload's own instant closes the streak and leaves the fact open;
an overload read at the reset's own instant is left out of the count, so the next is first too. -/
theorem backoff_same_instant :
    ¬ Throughout (Lawful ⟨"ls_1", "ch_1", 1⟩) (step ⟨"ls_1", "ch_1", 1⟩) ⟨{}, 0, []⟩
        [.overloaded 0 .worker "0" 0, .clean 0] ∧
      (([.overloaded 0 .worker "0" 0, .clean 1, .overloaded 1 .worker "1" 0,
          .overloaded 2 .worker "2" 1] : List Exit).foldl (step ⟨"ls_1", "ch_1", 1⟩)
        ⟨{}, 0, []⟩).since.map (·.streakOrdinal) = [1, 1] := by
  refine ⟨?_, by decide⟩
  intro lawful
  have closed := lawful.2.2.opens _ (List.mem_singleton.mpr rfl) rfl rfl
  exact absurd closed.2 (by decide)

end Blizzard.OverloadStreaks
