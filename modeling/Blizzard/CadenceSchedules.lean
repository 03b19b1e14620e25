import Mathlib.Order.Bounds.Defs
import Blizzard.HubTables
import Blizzard.BoundedLoops

/-! # A cadence's schedule

A cron expression read in a zone, through the cron library alone: the first
moment after an instant, and the latest at or before it, which the library's
backward reading may skip and the forward walk then finds. -/
namespace Blizzard.CadenceSchedules
open HubTables BoundedLoops

def second : Instant := 1000000

/-- A validated schedule. -/
structure Schedule where
  cron : String
  zone : String
  deriving DecidableEq, Repr

/-- The cron library: an expression and a zone, from a start forward or in reverse, to the first
instant it yields. -/
structure CronSim where
  forward : String → String → Instant → Option Instant
  reverse : String → String → Instant → Option Instant

/-- The library yields a schedule's moments: forward the first after its start, in reverse one before
it, though not always the last. A schedule names whole minutes, and one that names a moment names
another within the library's fifty years. -/
structure CronSim.Yields (cronSim : CronSim) (schedule : Schedule) (moments : Set Instant) :
    Prop where
  seconds : ∀ m ∈ moments, m % second = 0
  forward_some : ∀ at_ m, cronSim.forward schedule.cron schedule.zone at_ = some m →
    IsLeast {k | k ∈ moments ∧ at_ < k} m
  forward_none : ∀ at_, cronSim.forward schedule.cron schedule.zone at_ = none →
    ∀ k ∈ moments, k ≤ at_
  reverse_some : ∀ start m, cronSim.reverse schedule.cron schedule.zone start = some m →
    m ∈ moments ∧ m < start
  reverse_none : ∀ start, cronSim.reverse schedule.cron schedule.zone start = none →
    ∀ k ∈ moments, start ≤ k

/-- The first moment strictly after an instant. -/
def firstAfter (cronSim : CronSim) (schedule : Schedule) (at_ : Instant) : Option Instant :=
  cronSim.forward schedule.cron schedule.zone at_

/-- The next moment of the forward walk; none where it would pass `at_`. -/
def following (cronSim : CronSim) (schedule : Schedule) (at_ latest : Instant) : Option Instant :=
  match firstAfter cronSim schedule latest with
  | none => none
  | some moment => if moment ≤ at_ then some moment else none

/-- The latest moment at or before an instant. The library starts just past it; what it yields is
walked forward, for as long as the instants between allow. -/
def latestAtOrBefore (cronSim : CronSim) (schedule : Schedule) (at_ : Instant) :
    Option (Option Instant) :=
  let start := at_ - at_ % second + second
  match cronSim.reverse schedule.cron schedule.zone start with
  | none => some none
  | some candidate =>
    (loop (following cronSim schedule at_) ((at_ - candidate).toNat + 1) candidate).map some

/-- The first moment at or after an instant. -/
def firstAtOrAfter (cronSim : CronSim) (schedule : Schedule) (at_ : Instant) :
    Option (Option Instant) :=
  (latestAtOrBefore cronSim schedule at_).map fun latest =>
    if latest = some at_ then some at_ else firstAfter cronSim schedule at_

variable {cronSim : CronSim} {schedule : Schedule} {moments : Set Instant} {at_ latest next : Instant}

theorem following_some :
    following cronSim schedule at_ latest = some next ↔
      firstAfter cronSim schedule latest = some next ∧ next ≤ at_ := by
  rw [following]
  split
  · rename_i none_
    simp [none_]
  · rename_i moment some_
    rw [some_]
    split
    · rename_i within
      simp only [Option.some.injEq]
      exact ⟨fun same => ⟨same, same ▸ within⟩, And.left⟩
    · rename_i past
      simp only [reduceCtorEq, Option.some.injEq, false_iff, not_and]
      rintro rfl
      exact past

/-- Where the walk stops, nothing lies between its moment and `at_`. -/
theorem greatest_of_last (yields : cronSim.Yields schedule moments) (mem : latest ∈ moments)
    (le : latest ≤ at_) (last : following cronSim schedule at_ latest = none) :
    IsGreatest {k | k ∈ moments ∧ k ≤ at_} latest := by
  refine ⟨⟨mem, le⟩, ?_⟩
  rintro k ⟨of, below⟩
  rw [following] at last
  split at last
  · rename_i none_
    exact yields.forward_none latest none_ k of
  · rename_i moment some_
    split at last
    · cases last
    · rename_i past
      by_contra after
      have later : latest < k := Int.not_le.mp after
      have least : moment ≤ k := (yields.forward_some latest moment some_).2 ⟨of, later⟩
      exact past (le_trans least below)

/-- Before the next whole second, a whole second is not after the instant. -/
theorem le_of_whole {candidate at_ : ℤ} (whole : candidate % 1000000 = 0)
    (before : candidate < at_ - at_ % 1000000 + 1000000) : candidate ≤ at_ := by
  omega

theorem lt_next_second (at_ : ℤ) : at_ < at_ - at_ % 1000000 + 1000000 := by
  omega

theorem toNat_sub_lt {at_ latest next : ℤ} (later : latest < next) (within : next ≤ at_) :
    (at_ - next).toNat < (at_ - latest).toNat := by
  omega

/-- `latest_at_or_before` ends, at the greatest moment there is; at none where there is none. -/
theorem latestAtOrBefore_spec (yields : cronSim.Yields schedule moments) (at_ : Instant) :
    ∃ answer, latestAtOrBefore cronSim schedule at_ = some answer ∧
      (∀ m, answer = some m → IsGreatest {k | k ∈ moments ∧ k ≤ at_} m) ∧
      (answer = none → ∀ k ∈ moments, at_ < k) := by
  rw [latestAtOrBefore]
  split
  · rename_i none_
    refine ⟨none, rfl, by simp, ?_⟩
    intro _ k mem
    exact lt_of_lt_of_le (lt_next_second at_) (yields.reverse_none _ none_ k mem)
  · rename_i candidate some_
    obtain ⟨mem, before⟩ := yields.reverse_some _ _ some_
    have le : candidate ≤ at_ := le_of_whole (yields.seconds candidate mem) before
    have kept : ∀ latest next, latest ∈ moments ∧ latest ≤ at_ →
        following cronSim schedule at_ latest = some next → next ∈ moments ∧ next ≤ at_ := by
      intro latest next _ step
      obtain ⟨after, within⟩ := following_some.mp step
      exact ⟨(yields.forward_some _ _ after).1.1, within⟩
    have falls : ∀ latest next, latest ∈ moments ∧ latest ≤ at_ →
        following cronSim schedule at_ latest = some next →
        (at_ - next).toNat < (at_ - latest).toNat := by
      intro latest next _ step
      obtain ⟨after, within⟩ := following_some.mp step
      exact toNat_sub_lt (yields.forward_some _ _ after).1.2 within
    obtain ⟨latest, ends, ⟨mem, le⟩, last⟩ := loop_rule (fun latest => (at_ - latest).toNat)
      kept falls ⟨mem, le⟩ (Nat.lt_succ_self _)
    · refine ⟨some latest, by rw [ends]; rfl, ?_, by simp⟩
      intro m same
      obtain rfl := Option.some.inj same
      exact greatest_of_last yields mem le last

/-- `first_at_or_after` ends, at the least moment there is; at none where there is none. -/
theorem firstAtOrAfter_spec (yields : cronSim.Yields schedule moments) (at_ : Instant) :
    ∃ answer, firstAtOrAfter cronSim schedule at_ = some answer ∧
      (∀ m, answer = some m → IsLeast {k | k ∈ moments ∧ at_ ≤ k} m) ∧
      (answer = none → ∀ k ∈ moments, k < at_) := by
  obtain ⟨latest, found, greatest, none_⟩ := latestAtOrBefore_spec yields at_
  refine ⟨if latest = some at_ then some at_ else firstAfter cronSim schedule at_,
    by rw [firstAtOrAfter, found]; rfl, ?_⟩
  by_cases same : latest = some at_
  · rw [if_pos same]
    have mem := (greatest at_ same).1.1
    refine ⟨?_, by simp⟩
    rintro m ⟨⟩
    exact ⟨⟨mem, Int.le_refl _⟩, fun k is => is.2⟩
  · rw [if_neg same]
    have apart : at_ ∉ moments := by
      intro mem
      cases latest with
      | none => exact absurd (none_ rfl at_ mem) (Int.lt_irrefl _)
      | some latest =>
        obtain ⟨⟨-, ge⟩, greatest⟩ := greatest latest rfl
        have le := greatest ⟨mem, Int.le_refl _⟩
        exact same (congrArg some (Int.le_antisymm ge le))
    refine ⟨?_, ?_⟩
    · intro m first
      obtain ⟨⟨mem, after⟩, least⟩ := yields.forward_some _ _ first
      refine ⟨⟨mem, Int.le_of_lt after⟩, ?_⟩
      rintro k ⟨of, ge⟩
      have other : at_ ≠ k := fun same => apart (same ▸ of)
      exact least ⟨of, lt_of_le_of_ne ge other⟩
    · intro none_ k mem
      have le := yields.forward_none _ none_ k mem
      have other : k ≠ at_ := fun same => apart (same ▸ mem)
      exact lt_of_le_of_ne le other

end Blizzard.CadenceSchedules
