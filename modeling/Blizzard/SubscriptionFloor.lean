import Blizzard.HubTables
import Mathlib.Algebra.Order.Ring.Rat
import Mathlib.Data.List.MinMax

/-! # The subscription floor

A subscription is held while its newest usage-limit mark stands or its newest sample
shows a window exhausted. Each hold opens on evidence, on the clock or by a hand clear;
the answer is derived from the newest mark, sample and clear on every ask. -/
namespace Blizzard.SubscriptionFloor
open HubTables

/-- How long past its expected reset a hold waits for a sample. -/
def floorUnconfirmedGrace : Instant := 60 * 60 * 1000000

/-- How long after a mark that names no reset its reset is expected. -/
def floorNoResetFallback : Instant := 30 * 60 * 1000000

structure UsageLimitMark where
  markedAt : Instant
  resetsAt : Option Instant
  window : Option String
  windowResetsAt : Option Instant
  harnessId : String
  leaseId : String
  deriving DecidableEq, Repr

structure FloorClear where
  clearedAt : Instant
  by_ : String
  deriving DecidableEq, Repr

/-- One rate-limit window's utilization, from `0` to `100`, as the account reports it. -/
structure UsageWindow where
  window : String
  utilizationPct : ℚ
  resetsAt : Instant
  deriving DecidableEq

def UsageWindow.exhausted (window : UsageWindow) : Bool := decide (100 ≤ window.utilizationPct)

/-- Fully used, with its reset still ahead. -/
def UsageWindow.exhaustedPending (window : UsageWindow) (now : Instant) : Bool :=
  window.exhausted && decide (now < window.resetsAt)

structure UsageSample where
  slug : String
  sampledAt : Instant
  windows : List UsageWindow
  deriving DecidableEq

inductive HoldKind
  | mark | window
  deriving DecidableEq, Repr

structure FloorHold where
  kind : HoldKind
  harnessId : Option String
  window : Option String
  expectedReset : Instant
  awaitsSample : Bool
  leaseId : Option String
  deriving DecidableEq, Repr

structure FloorAnswer where
  admits : Bool
  slug : Option String
  hold : Option FloorHold
  clear : Option FloorClear
  deriving DecidableEq, Repr

/-! ## A mark's hold -/

/-- The reset the harness named, else the soonest pending reset of a sample since the mark, else the
fallback; and whether it is the fallback. -/
def markExpectedReset (mark : UsageLimitMark) (sample : Option UsageSample) : Instant × Bool :=
  let pending := (sample.filter fun sample => decide (mark.markedAt ≤ sample.sampledAt)).bind
    fun sample => ((sample.windows.filter (·.exhaustedPending sample.sampledAt)).map
      (·.resetsAt)).min?
  match mark.resetsAt, pending with
  | some resetsAt, _ => (resetsAt, false)
  | none, some soonest => (soonest, false)
  | none, none => (mark.markedAt + floorNoResetFallback, true)

/-- The sample shows the mark's held window in a later period, under 100 percent. -/
def heldWindowTurnedOver (mark : UsageLimitMark) (sample : UsageSample) : Bool :=
  match mark.window, mark.windowResetsAt with
  | some window, some resetsAt => sample.windows.any fun w =>
      decide (w.window = window) && decide (resetsAt < w.resetsAt) && !w.exhausted
  | _, _ => false

/-- The sample was taken at or after the reset, every window in a period still running then. -/
def evidenceSince (sample : UsageSample) (reset : Instant) : Bool :=
  decide (reset ≤ sample.sampledAt) && sample.windows.all fun w => decide (sample.sampledAt < w.resetsAt)

/-- The hold a mark still makes, `none` once it has opened. -/
def markHold (mark : UsageLimitMark) (sample : Option UsageSample) (sampled : Bool)
    (now : Instant) : Option FloorHold :=
  let (expected, fromFallback) := markExpectedReset mark sample
  let hold : FloorHold :=
    { kind := .mark, harnessId := some mark.harnessId, window := mark.window
      expectedReset := expected, awaitsSample := sampled && !fromFallback
      leaseId := some mark.leaseId }
  if sample.any (heldWindowTurnedOver mark) then none
  else if now < expected then some hold
  else if !hold.awaitsSample then none
  else if sample.any (evidenceSince · expected) then none
  else if expected + floorUnconfirmedGrace ≤ now then none
  else some hold

/-! ## A window's hold -/

/-- The hold an exhausted window makes, until the grace past its reset runs out. -/
def windowHold (window : UsageWindow) (now : Instant) : Option FloorHold :=
  if !window.exhausted then none
  else if window.resetsAt + floorUnconfirmedGrace ≤ now then none
  else some
    { kind := .window, harnessId := none, window := some window.window
      expectedReset := window.resetsAt, awaitsSample := true, leaseId := none }

/-- The sample standing at the clear showed that window exhausted in that period. -/
def cleared (window : UsageWindow) (clearSample : Option UsageSample) : Bool :=
  clearSample.any fun sample => sample.windows.any fun w =>
    decide (w.window = window.window) && decide (w.resetsAt = window.resetsAt) && w.exhausted

/-! ## The answer -/

/-- What one ask of the floor reads; `sampled` is `false` where no sampler reads it. -/
structure FloorReads where
  slug : Option String
  sampled : Bool
  mark : Option UsageLimitMark
  sample : Option UsageSample
  clear : Option FloorClear
  clearSample : Option UsageSample := none
  deriving DecidableEq

namespace FloorReads
variable (reads : FloorReads) (now : Instant)

def newest : Option UsageSample := if reads.sampled then reads.sample else none

/-- The sample standing at the clear; the newest one where it is no later than the clear. -/
def seenAtClear : Option UsageSample :=
  match reads.clearSample, reads.newest, reads.clear with
  | none, some newest, some clear =>
    if newest.sampledAt ≤ clear.clearedAt then some newest else none
  | clearSample, _, _ => clearSample

/-- Every hold made, in the order judged, with whether the clear sets it aside. -/
def holds : List (FloorHold × Bool) :=
  (reads.mark.bind fun mark =>
    (markHold mark reads.newest reads.sampled now).map fun hold =>
      (hold, reads.clear.any fun clear => decide (mark.markedAt ≤ clear.clearedAt))).toList ++
    ((reads.newest.map (·.windows)).getD []).filterMap fun window =>
      (windowHold window now).map fun hold =>
        (hold, reads.clear.isSome && cleared window (if reads.sampled then reads.seenAtClear else none))

/-- The holds that stand. -/
def standing : List FloorHold := ((reads.holds now).filter fun hold => !hold.2).map Prod.fst

end FloorReads

/-- A mark before any window, else the window lifting last. -/
def reported (standing : List FloorHold) : Option FloorHold :=
  match standing.find? fun hold => decide (hold.kind = .mark) with
  | some mark => some mark
  | none => standing.argmax (·.expectedReset)

def floorAnswer (reads : FloorReads) (now : Instant) : FloorAnswer :=
  if reads.standing now ≠ [] then
    { admits := false, slug := reads.slug, hold := reported (reads.standing now), clear := none }
  else
    { admits := true, slug := reads.slug, hold := none
      clear := if (reads.holds now).any Prod.snd then reads.clear else none }

/-! ## One hold and the clock -/

variable {reads : FloorReads} {mark : UsageLimitMark} {sample : Option UsageSample}
  {sampled : Bool} {window : UsageWindow} {hold : FloorHold} {now later : Instant}

theorem grace_pos (expected : Instant) : expected < expected + floorUnconfirmedGrace :=
  Int.lt_add_of_pos_right expected (by decide)

/-- A mark's hold stands until its expected reset, and at most the grace past it. -/
theorem markHold_some (made : markHold mark sample sampled now = some hold) :
    hold.expectedReset = (markExpectedReset mark sample).1 ∧
      now < hold.expectedReset + floorUnconfirmedGrace := by
  simp only [markHold] at made
  split at made
  · exact nomatch made
  · split at made
    case isTrue before =>
      rw [← Option.some_inj.mp made]
      exact ⟨rfl, Int.lt_trans before (grace_pos _)⟩
    case isFalse =>
      split at made
      · exact nomatch made
      · split at made
        · exact nomatch made
        · split at made
          · exact nomatch made
          next waiting =>
            rw [← Option.some_inj.mp made]
            exact ⟨rfl, Int.not_le.mp waiting⟩

/-- A hold of a mark that stands later stands now. -/
theorem markHold_of_later (le : now ≤ later) (made : markHold mark sample sampled later = some hold) :
    markHold mark sample sampled now = some hold := by
  simp only [markHold] at made ⊢
  by_cases turned : sample.any (heldWindowTurnedOver mark) = true
  · rw [if_pos turned] at made
    exact nomatch made
  · rw [if_neg turned] at made ⊢
    by_cases before : now < (markExpectedReset mark sample).1
    · rw [if_pos before]
      split at made
      · exact made
      · split at made
        · exact nomatch made
        · split at made
          · exact nomatch made
          · split at made
            · exact nomatch made
            · exact made
    · have past : ¬ later < (markExpectedReset mark sample).1 :=
        fun ahead => before (Int.lt_of_le_of_lt le ahead)
      rw [if_neg past] at made
      rw [if_neg before]
      split at made
      · exact nomatch made
      next awaits =>
        rw [if_neg awaits]
        split at made
        · exact nomatch made
        next unproven =>
          rw [if_neg unproven]
          split at made
          · exact nomatch made
          next waiting =>
            rw [if_neg fun over_ => waiting (Int.le_trans over_ le)]
            exact made

/-- Before its expected reset a mark whose window has not turned over holds. -/
theorem markHold_before (sampled : Bool) (held : sample.any (heldWindowTurnedOver mark) = false)
    (before : now < (markExpectedReset mark sample).1) :
    ∃ hold, markHold mark sample sampled now = some hold := by
  simp only [markHold, held, if_pos before, Bool.false_eq_true, if_false]
  exact ⟨_, rfl⟩

theorem windowHold_some (made : windowHold window now = some hold) :
    window.exhausted = true ∧ hold.expectedReset = window.resetsAt ∧
      now < hold.expectedReset + floorUnconfirmedGrace := by
  rw [windowHold] at made
  cases spent : window.exhausted with
  | false => simp [spent] at made
  | true =>
    simp only [spent, Bool.not_true, Bool.false_eq_true, if_false] at made
    split at made
    · exact nomatch made
    next waiting =>
      rw [← Option.some_inj.mp made]
      exact ⟨rfl, rfl, Int.not_le.mp waiting⟩

theorem windowHold_of_later (le : now ≤ later) (made : windowHold window later = some hold) :
    windowHold window now = some hold := by
  rw [windowHold] at made ⊢
  split at made
  · exact nomatch made
  next spent =>
    rw [if_neg spent]
    split at made
    · exact nomatch made
    next waiting =>
      rw [if_neg fun over_ => waiting (Int.le_trans over_ le)]
      exact made

theorem windowHold_before (spent : window.exhausted = true) (before : now < window.resetsAt) :
    ∃ hold, windowHold window now = some hold := by
  have waiting : ¬ window.resetsAt + floorUnconfirmedGrace ≤ now :=
    Int.not_le.mpr (Int.lt_trans before (grace_pos _))
  rw [windowHold, if_neg (by simp [spent]), if_neg waiting]
  exact ⟨_, rfl⟩

/-! ## The holds of an ask -/

/-- A hold made comes from the mark or from one window of the newest sample. -/
theorem mem_holds {entry : FloorHold × Bool} : entry ∈ reads.holds now ↔
    (∃ mark, reads.mark = some mark ∧
      markHold mark reads.newest reads.sampled now = some entry.1 ∧
      entry.2 = reads.clear.any fun clear => decide (mark.markedAt ≤ clear.clearedAt)) ∨
    ∃ sample, reads.newest = some sample ∧ ∃ window ∈ sample.windows,
      windowHold window now = some entry.1 ∧
      entry.2 = (reads.clear.isSome &&
        cleared window (if reads.sampled then reads.seenAtClear else none)) := by
  obtain ⟨hold, aside⟩ := entry
  rw [FloorReads.holds, List.mem_append]
  refine or_congr ?_ ?_
  · simp only [Option.mem_toList, Option.mem_def, Option.bind_eq_some_iff, Option.map_eq_some_iff,
      Prod.mk.injEq]
    constructor
    · rintro ⟨mark, is, made, holds, rfl, rfl⟩
      exact ⟨mark, is, holds, rfl⟩
    · rintro ⟨mark, is, holds, rfl⟩
      exact ⟨mark, is, hold, holds, rfl, rfl⟩
  · cases reads.newest with
    | none => simp
    | some sample =>
      simp only [Option.map_some, Option.getD_some, List.mem_filterMap, Option.map_eq_some_iff,
        Prod.mk.injEq, Option.some_inj, exists_eq_left']
      constructor
      · rintro ⟨window, mem, made, holds, rfl, rfl⟩
        exact ⟨window, mem, holds, rfl⟩
      · rintro ⟨window, mem, holds, rfl⟩
        exact ⟨window, mem, hold, holds, rfl, rfl⟩

theorem mem_standing : hold ∈ reads.standing now ↔ (hold, false) ∈ reads.holds now := by
  simp [FloorReads.standing]

/-- The clock only opens holds. -/
theorem holds_of_later (le : now ≤ later) {entry : FloorHold × Bool}
    (mem : entry ∈ reads.holds later) : entry ∈ reads.holds now := by
  rcases mem_holds.mp mem with ⟨mark, is, made, aside⟩ | ⟨sample, is, window, among, made, aside⟩
  · exact mem_holds.mpr (.inl ⟨mark, is, markHold_of_later le made, aside⟩)
  · exact mem_holds.mpr (.inr ⟨sample, is, window, among, windowHold_of_later le made, aside⟩)

/-- No hold outlasts the grace past its expected reset. -/
theorem lt_grace_of_mem {entry : FloorHold × Bool} (mem : entry ∈ reads.holds now) :
    now < entry.1.expectedReset + floorUnconfirmedGrace := by
  rcases mem_holds.mp mem with ⟨mark, -, made, -⟩ | ⟨sample, -, window, -, made, -⟩
  · exact (markHold_some made).2
  · exact (windowHold_some made).2.2

theorem admits_iff : (floorAnswer reads now).admits = true ↔ ∀ hold, hold ∉ reads.standing now := by
  rw [floorAnswer, ← List.eq_nil_iff_forall_not_mem]
  by_cases none_ : reads.standing now = []
  · simp [none_]
  · simp [none_]

theorem refuses_of_mem (mem : hold ∈ reads.standing now) : (floorAnswer reads now).admits = false :=
  Bool.eq_false_iff.mpr fun admits => admits_iff.mp admits hold mem

/-! ## The clear -/

/-- A clear at or after the mark and the newest sample sets every hold aside. -/
theorem standing_cleared {clear : FloorClear} (is : reads.clear = some clear)
    (marked : ∀ mark, reads.mark = some mark → mark.markedAt ≤ clear.clearedAt)
    (sampled : ∀ sample, reads.sample = some sample → sample.sampledAt ≤ clear.clearedAt ∧
      (reads.clearSample = none ∨ reads.clearSample = some sample)) (now : Instant) :
    ∀ hold, hold ∉ reads.standing now := by
  intro hold mem
  rcases mem_holds.mp (mem_standing.mp mem) with
    ⟨mark, has, -, aside⟩ | ⟨sample, has, window, among, made, aside⟩
  · have set_ : (false : Bool) = true := by simpa [is, marked mark has] using aside
    exact nomatch set_
  · have on : reads.sampled = true ∧ reads.sample = some sample := by
      rw [FloorReads.newest] at has
      split at has
      next on => exact ⟨on, has⟩
      · exact nomatch has
    obtain ⟨before, seen⟩ := sampled sample on.2
    have stood : reads.seenAtClear = some sample := by
      rcases seen with none_ | own
      · simp [FloorReads.seenAtClear, none_, has, is, before]
      · simp [FloorReads.seenAtClear, own]
    have spent := (windowHold_some made).1
    have covers : cleared window (some sample) = true := by
      simp only [cleared, Option.any_some, List.any_eq_true, Bool.and_eq_true, decide_eq_true_eq]
      exact ⟨window, among, ⟨rfl, rfl⟩, spent⟩
    have set_ : (false : Bool) = true := by
      rw [if_pos on.1, stood, covers, is] at aside
      exact aside
    exact nomatch set_

/-- Without its clear an ask makes the same holds, none set aside. -/
theorem standing_without {entry : FloorHold × Bool} (mem : entry ∈ reads.holds now) :
    entry.1 ∈ ({ reads with clear := none } : FloorReads).standing now := by
  refine mem_standing.mpr (mem_holds.mpr ?_)
  rcases mem_holds.mp mem with ⟨mark, is, made, -⟩ | ⟨sample, is, window, among, made, -⟩
  · exact .inl ⟨mark, is, made, rfl⟩
  · exact .inr ⟨sample, is, window, among, made, rfl⟩

theorem holds_without {hold : FloorHold}
    (mem : hold ∈ ({ reads with clear := none } : FloorReads).standing now) :
    ∃ aside, (hold, aside) ∈ reads.holds now := by
  rcases mem_holds.mp (mem_standing.mp mem) with
    ⟨mark, is, made, -⟩ | ⟨sample, is, window, among, made, -⟩
  · exact ⟨reads.clear.any fun clear => decide (mark.markedAt ≤ clear.clearedAt),
      mem_holds.mpr (.inl ⟨mark, is, made, rfl⟩)⟩
  · exact ⟨reads.clear.isSome && cleared window (if reads.sampled then reads.seenAtClear else none),
      mem_holds.mpr (.inr ⟨sample, is, window, among, made, rfl⟩)⟩

/-- The clear is named where the ask admits and would refuse without it. -/
theorem clear_named (reads : FloorReads) (now : Instant) : (floorAnswer reads now).clear =
    if (floorAnswer reads now).admits &&
        !(floorAnswer { reads with clear := none } now).admits then reads.clear else none := by
  by_cases standing : reads.standing now = []
  · have admits : (floorAnswer reads now).admits = true :=
      admits_iff.mpr (List.eq_nil_iff_forall_not_mem.mp standing)
    have answered : (floorAnswer reads now).clear =
        if (reads.holds now).any Prod.snd then reads.clear else none := by
      simp [floorAnswer, standing]
    rw [answered, admits, Bool.true_and]
    cases without : (floorAnswer { reads with clear := none } now).admits with
    | true =>
      have none_ : (reads.holds now).any Prod.snd = false := by
        refine List.any_eq_false.mpr fun entry mem _ => ?_
        exact admits_iff.mp without entry.1 (standing_without mem)
      simp [none_]
    | false =>
      have refused : ¬ ∀ hold, hold ∉ ({ reads with clear := none } : FloorReads).standing now :=
        fun none_ => absurd (admits_iff.mpr none_) (by simp [without])
      obtain ⟨hold, mem⟩ := not_forall_not.mp refused
      obtain ⟨aside, made⟩ := holds_without mem
      have set_ : aside = true := by
        cases aside with
        | true => rfl
        | false => exact absurd (mem_standing.mpr made) (by simp [standing])
      have some_ : (reads.holds now).any Prod.snd = true :=
        List.any_eq_true.mpr ⟨(hold, aside), made, set_⟩
      simp [some_]
  · have refuses : (floorAnswer reads now).admits = false := by simp [floorAnswer, standing]
    rw [refuses]
    simp [floorAnswer, standing]

/-! ## The floor -/

/-- What the floor promises over reads held fixed. -/
structure Floored (reads : FloorReads) : Prop where
  stays_open : ∀ now later, now ≤ later → (floorAnswer reads now).admits = true →
    (floorAnswer reads later).admits = true
  lifts : ∀ asked now, asked ≤ now →
    (∀ hold ∈ reads.standing asked, hold.expectedReset + floorUnconfirmedGrace ≤ now) →
      (floorAnswer reads now).admits = true
  opened : ∀ clear, reads.clear = some clear →
    (∀ mark, reads.mark = some mark → mark.markedAt ≤ clear.clearedAt) →
    (∀ sample, reads.sample = some sample → sample.sampledAt ≤ clear.clearedAt ∧
      (reads.clearSample = none ∨ reads.clearSample = some sample)) →
    ∀ now, (floorAnswer reads now).admits = true
  marked_again : ∀ clear mark, reads.clear = some clear → reads.mark = some mark →
    clear.clearedAt < mark.markedAt → reads.newest.any (heldWindowTurnedOver mark) = false →
    ∀ now, now < (markExpectedReset mark reads.newest).1 → (floorAnswer reads now).admits = false
  spent_again : ∀ clear sample, reads.clear = some clear → reads.newest = some sample →
    clear.clearedAt < sample.sampledAt → ∀ window ∈ sample.windows, window.exhausted = true →
    (∀ seen, reads.clearSample = some seen → ∀ w ∈ seen.windows, w.window = window.window →
      w.resetsAt = window.resetsAt → w.exhausted = false) →
    ∀ now, now < window.resetsAt → (floorAnswer reads now).admits = false
  names_clear : ∀ now, (floorAnswer reads now).clear =
    if (floorAnswer reads now).admits &&
        !(floorAnswer { reads with clear := none } now).admits then reads.clear else none

/-- A mark newer than the clear stands before its expected reset. -/
theorem standing_marked {clear : FloorClear} (cleared : reads.clear = some clear)
    (has : reads.mark = some mark) (newer : clear.clearedAt < mark.markedAt)
    (held : reads.newest.any (heldWindowTurnedOver mark) = false)
    (before : now < (markExpectedReset mark reads.newest).1) : ∃ hold, hold ∈ reads.standing now := by
  obtain ⟨hold, made⟩ := markHold_before reads.sampled held before
  refine ⟨hold, mem_standing.mpr (mem_holds.mpr (.inl ⟨mark, has, made, ?_⟩))⟩
  have kept : ¬ mark.markedAt ≤ clear.clearedAt := Int.not_le.mpr newer
  simp [cleared, kept]

/-- A window the clear's sample did not show exhausted in this period stands before its reset. -/
theorem standing_spent {clear : FloorClear} {sample : UsageSample}
    (cleared_ : reads.clear = some clear) (has : reads.newest = some sample)
    (newer : clear.clearedAt < sample.sampledAt) (among : window ∈ sample.windows)
    (spent : window.exhausted = true)
    (fresh : ∀ seen, reads.clearSample = some seen → ∀ w ∈ seen.windows,
      w.window = window.window → w.resetsAt = window.resetsAt → w.exhausted = false)
    (before : now < window.resetsAt) : ∃ hold, hold ∈ reads.standing now := by
  obtain ⟨hold, made⟩ := windowHold_before spent before
  refine ⟨hold, mem_standing.mpr (mem_holds.mpr (.inr ⟨sample, has, window, among, made, ?_⟩))⟩
  have seen : reads.seenAtClear = reads.clearSample := by
    have late : ¬ sample.sampledAt ≤ clear.clearedAt := Int.not_le.mpr newer
    cases is : reads.clearSample with
    | none => simp [FloorReads.seenAtClear, is, has, cleared_, late]
    | some seen => simp [FloorReads.seenAtClear, is]
  have uncovered : cleared window reads.clearSample = false := by
    cases is : reads.clearSample with
    | none => rfl
    | some seen =>
      refine List.any_eq_false.mpr fun w mem covers => ?_
      simp only [Bool.and_eq_true, decide_eq_true_eq] at covers
      exact absurd covers.2 (by simp [fresh seen is w mem covers.1.1 covers.1.2])
  rw [seen]
  cases reads.sampled with
  | true => simp [uncovered]
  | false => simp [cleared]

theorem floor_kept (reads : FloorReads) : Floored reads where
  stays_open _ _ le admits :=
    admits_iff.mpr fun hold mem => admits_iff.mp admits hold
      (mem_standing.mpr (holds_of_later le (mem_standing.mp mem)))
  lifts _ _ le lifted := admits_iff.mpr fun hold mem => by
    have made := mem_standing.mp mem
    have stood := mem_standing.mpr (holds_of_later le made)
    exact Int.not_le.mpr (lt_grace_of_mem made) (lifted hold stood)
  opened _ is marked sampled now := admits_iff.mpr (standing_cleared is marked sampled now)
  marked_again _ _ cleared has newer held _ before := by
    obtain ⟨hold, mem⟩ := standing_marked cleared has newer held before
    exact refuses_of_mem mem
  spent_again _ _ cleared has newer _ among spent fresh _ before := by
    obtain ⟨hold, mem⟩ := standing_spent cleared has newer among spent fresh before
    exact refuses_of_mem mem
  names_clear := clear_named reads

end Blizzard.SubscriptionFloor
