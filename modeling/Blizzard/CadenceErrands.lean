import Blizzard.CadenceSchedules
import Blizzard.StatusLadder

/-! # When a cadence's errand is due

An errand's last run read through its work item's closure and its holder; the
instant its rhythm's spacing lets it come due; and the due rule twice over,
asked at an instant and answered as the first instant it holds. -/
namespace Blizzard.CadenceErrands
open HubTables StatusLadder CadenceSchedules

inductive Anchor | scheduled | started | finished
  deriving DecidableEq, Repr

inductive WorkItemClosure | delivered | withdrawn
  deriving DecidableEq, Repr

/-- The least time between an errand's runs. -/
structure Spacing where
  minutes : ℕ
  least : 1 ≤ minutes
  deriving DecidableEq, Repr

structure Rhythm where
  schedule : Option Schedule
  spacing : Option Spacing
  anchor : Option Anchor := none
  deriving DecidableEq, Repr

/-- The anchor the spacing counts from; none with no spacing. -/
def Rhythm.effectiveAnchor (rhythm : Rhythm) : Option Anchor :=
  match rhythm.spacing with
  | none => none
  | some _ => some (rhythm.anchor.getD .started)

/-- The instant an errand joined its chore. -/
structure Errand where
  joinedAt : Instant
  deriving DecidableEq, Repr

/-- The live chunk that holds a run's work item. -/
structure Holder where
  status : ChunkStatus
  startedAt : Option Instant := none
  completedAt : Option Instant := none
  deriving DecidableEq, Repr

inductive RunOutcome | live | finished | cancelled
  deriving DecidableEq, Repr

/-- An errand's newest marked work item, its closure and its holder. -/
structure LastRun where
  mintedAt : Instant
  closure : Option WorkItemClosure := none
  closedAt : Option Instant := none
  holder : Option Holder := none
  deriving DecidableEq, Repr

/-- Withdrawn first, then delivered, then the holder's status. -/
def LastRun.outcome (run : LastRun) : RunOutcome :=
  if run.closure = some .withdrawn then .cancelled
  else if run.closure = some .delivered then .finished
  else
    match run.holder with
    | none => .live
    | some holder =>
      if holder.status = .done then .finished
      else if holder.status = .stopped then .cancelled
      else .live

def LastRun.unfinished (run : LastRun) : Bool :=
  decide (run.outcome = .live)

/-- The earlier of two instants, of those there are. -/
def earlier : Option Instant → Option Instant → Option Instant
  | some a, some b => some (min a b)
  | some a, none => some a
  | none, b => b

/-- The instant an anchor reads on a run. -/
def LastRun.anchoredAt (run : LastRun) : Anchor → Option Instant
  | .scheduled => some run.mintedAt
  | .started =>
    match run.holder with
    | none => some run.mintedAt
    | some holder => some (holder.startedAt.getD run.mintedAt)
  | .finished =>
    if run.unfinished then none
    else
      let completed := match run.holder with
        | none => none
        | some holder => if holder.status ∈ terminalStatuses then holder.completedAt else none
      earlier run.closedAt completed

/-- The instant the spacing lets the errand come due. -/
def eligibleAt (rhythm : Rhythm) (lastRun : Option LastRun) : Option Instant :=
  match rhythm.spacing, rhythm.effectiveAnchor, lastRun with
  | some spacing, some anchor, some run =>
    (run.anchoredAt anchor).map fun anchored => anchored + spacing.minutes * (60 * second)
  | _, _, _ => none

/-- The instant the schedule's moments count from. -/
def reference (errand : Errand) : Option LastRun → Instant
  | none => errand.joinedAt
  | some run => run.mintedAt

/-- A last run that is still live holds the errand. -/
def held : Option LastRun → Bool
  | none => false
  | some run => run.unfinished

/-- Whether an errand is due at `now`; none where the schedule's reading does not end. -/
def isDue (cronSim : CronSim) (rhythm : Rhythm) (errand : Errand) (lastRun : Option LastRun)
    (now : Instant) : Option Bool :=
  if held lastRun then some false
  else
    let eligible := eligibleAt rhythm lastRun
    match rhythm.schedule with
    | none =>
      match eligible with
      | none => some (lastRun.isSome || decide (errand.joinedAt ≤ now))
      | some eligible => some (decide (eligible ≤ now))
    | some schedule =>
      (latestAtOrBefore cronSim schedule now).map fun
        | none => false
        | some moment =>
          decide (reference errand lastRun < moment) &&
            (eligible.all fun eligible => decide (eligible ≤ moment))

/-- The first instant the errand is due; none while its last run is live. -/
def dueAt (cronSim : CronSim) (rhythm : Rhythm) (errand : Errand) (lastRun : Option LastRun) :
    Option (Option Instant) :=
  if held lastRun then some none
  else
    let eligible := eligibleAt rhythm lastRun
    match rhythm.schedule with
    | none => some (some (eligible.getD errand.joinedAt))
    | some schedule =>
      match firstAfter cronSim schedule (reference errand lastRun), eligible with
      | some moment, some eligible =>
        if moment < eligible then firstAtOrAfter cronSim schedule eligible else some (some moment)
      | moment, _ => some moment

variable {cronSim : CronSim} {rhythm : Rhythm} {errand : Errand} {lastRun : Option LastRun}
  {schedule : Schedule} {moments : Set Instant} {now : Instant}

/-- A moment the errand is owed: past the reference, at or past eligibility. -/
def Owed (rhythm : Rhythm) (errand : Errand) (lastRun : Option LastRun) (moments : Set Instant) :
    Set Instant :=
  {m | m ∈ moments ∧ reference errand lastRun < m ∧ ∀ e, eligibleAt rhythm lastRun = some e → e ≤ m}

/-- On a schedule, an errand is due where a moment it is owed is not after `now`. -/
theorem isDue_schedule (errand : Errand) (lastRun : Option LastRun)
    (yields : cronSim.Yields schedule moments)
    (on : rhythm.schedule = some schedule) (free : held lastRun = false) (now : Instant) :
    ∃ due, isDue cronSim rhythm errand lastRun now = some due ∧
      (due = true ↔ ∃ m ∈ Owed rhythm errand lastRun moments, m ≤ now) := by
  obtain ⟨latest, found, greatest, none_⟩ := latestAtOrBefore_spec yields now
  simp only [isDue, free, on, found, Bool.false_eq_true, if_false, Option.map_some]
  refine ⟨_, rfl, ?_⟩
  cases latest with
  | none =>
    simp only [Bool.false_eq_true, false_iff]
    rintro ⟨m, ⟨mem, -, -⟩, le⟩
    exact absurd (lt_of_lt_of_le (none_ rfl m mem) le) (lt_irrefl _)
  | some moment =>
    obtain ⟨⟨mem, le⟩, greatest⟩ := greatest moment rfl
    simp only [Bool.and_eq_true, decide_eq_true_eq, Option.all_eq_true]
    constructor
    · rintro ⟨after, past⟩
      exact ⟨moment, ⟨mem, after, past⟩, le⟩
    · rintro ⟨m, ⟨of, after, past⟩, below⟩
      have ge := greatest ⟨of, below⟩
      exact ⟨lt_of_lt_of_le after ge, fun e some_ => le_trans (past e some_) ge⟩

/-- On a schedule, the errand comes due at the first moment it is owed. -/
theorem dueAt_schedule (errand : Errand) (lastRun : Option LastRun)
    (yields : cronSim.Yields schedule moments)
    (on : rhythm.schedule = some schedule) (free : held lastRun = false) :
    ∃ answer, dueAt cronSim rhythm errand lastRun = some answer ∧
      (∀ m, answer = some m → IsLeast (Owed rhythm errand lastRun moments) m) ∧
      (answer = none → ∀ m, m ∉ Owed rhythm errand lastRun moments) := by
  simp only [dueAt, free, on, Bool.false_eq_true, if_false]
  cases first : firstAfter cronSim schedule (reference errand lastRun) with
  | none =>
    refine ⟨none, rfl, by simp, ?_⟩
    rintro - m ⟨mem, after, -⟩
    exact absurd (lt_of_lt_of_le after (yields.forward_none _ first m mem)) (lt_irrefl _)
  | some moment =>
    obtain ⟨⟨mem, after⟩, least⟩ := yields.forward_some _ _ first
    cases elig : eligibleAt rhythm lastRun with
    | none =>
      refine ⟨some moment, rfl, ?_, by simp⟩
      rintro m ⟨⟩
      exact ⟨⟨mem, after, by simp [elig]⟩, fun k is => least ⟨is.1, is.2.1⟩⟩
    | some eligible =>
      by_cases early : moment < eligible
      · obtain ⟨answer, found, spec, none_⟩ := firstAtOrAfter_spec yields eligible
        refine ⟨answer, by simp only [if_pos early, found], ?_, ?_⟩
        · intro m same
          obtain ⟨⟨of, ge⟩, least⟩ := spec m same
          refine ⟨⟨of, lt_of_lt_of_le (lt_trans after early) ge, ?_⟩, ?_⟩
          · intro e some_
            obtain rfl := Option.some.inj (elig.symm.trans some_)
            exact ge
          · rintro k ⟨in_, -, past⟩
            exact least ⟨in_, past eligible elig⟩
        · rintro same m ⟨of, -, past⟩
          exact absurd (lt_of_lt_of_le (none_ same m of) (past eligible elig)) (lt_irrefl _)
      · refine ⟨some moment, by simp only [if_neg early], ?_, by simp⟩
        rintro m ⟨⟩
        refine ⟨⟨mem, after, ?_⟩, fun k is => least ⟨is.1, is.2.1⟩⟩
        intro e some_
        obtain rfl := Option.some.inj (elig.symm.trans some_)
        exact not_lt.mp early

/-- With a spacing alone, asking and answering agree from the instant the errand joined. -/
theorem isDue_spacing (off : rhythm.schedule = none) (free : held lastRun = false)
    (joined : errand.joinedAt ≤ now) :
    isDue cronSim rhythm errand lastRun now =
      some (decide ((eligibleAt rhythm lastRun).getD errand.joinedAt ≤ now)) := by
  simp only [isDue, free, off, Bool.false_eq_true, if_false]
  cases eligibleAt rhythm lastRun with
  | none => simp [joined]
  | some eligible => rfl

/-- An errand is due at `now` exactly where `due_at` answers an instant at or before it. -/
theorem isDue_iff_dueAt (lastRun : Option LastRun)
    (yields : ∀ schedule, rhythm.schedule = some schedule → ∃ moments, cronSim.Yields schedule moments)
    (joined : errand.joinedAt ≤ now) :
    ∃ due answer, isDue cronSim rhythm errand lastRun now = some due ∧
      dueAt cronSim rhythm errand lastRun = some answer ∧
      (due = true ↔ ∃ first, answer = some first ∧ first ≤ now) := by
  cases free : held lastRun with
  | true => exact ⟨false, none, by simp [isDue, free], by simp [dueAt, free], by simp⟩
  | false =>
    cases on : rhythm.schedule with
    | none =>
      refine ⟨_, some ((eligibleAt rhythm lastRun).getD errand.joinedAt),
        isDue_spacing on free joined, by simp [dueAt, free, on], ?_⟩
      simp
    | some schedule =>
      obtain ⟨moments, yields⟩ := yields schedule on
      obtain ⟨due, asked, owed⟩ :=
        isDue_schedule errand lastRun yields on free now
      obtain ⟨answer, answered, least, none_⟩ :=
        dueAt_schedule errand lastRun yields on free
      refine ⟨due, answer, asked, answered, owed.trans ?_⟩
      constructor
      · rintro ⟨m, mem, le⟩
        cases answer with
        | none => exact absurd mem (none_ rfl m)
        | some first => exact ⟨first, rfl, le_trans ((least first rfl).2 mem) le⟩
      · rintro ⟨first, same, le⟩
        exact ⟨first, (least first same).1, le⟩

/-- The due rule: `is_due` holds exactly where `due_at` answers an instant at or before `now`, and
goes on holding; the schedule's two readings end, at the greatest and the least moment there is. -/
theorem due_rule_agrees (cronSim : CronSim) (rhythm : Rhythm) (errand : Errand)
    (lastRun : Option LastRun) (moments : Schedule → Set Instant)
    (yields : ∀ schedule, rhythm.schedule = some schedule →
      cronSim.Yields schedule (moments schedule)) :
    (∀ now, errand.joinedAt ≤ now → ∃ due answer,
      isDue cronSim rhythm errand lastRun now = some due ∧
      dueAt cronSim rhythm errand lastRun = some answer ∧
      (due = true ↔ ∃ first, answer = some first ∧ first ≤ now)) ∧
    (∀ now later, errand.joinedAt ≤ now → now ≤ later →
      isDue cronSim rhythm errand lastRun now = some true →
      isDue cronSim rhythm errand lastRun later = some true) ∧
    ∀ schedule, rhythm.schedule = some schedule → ∀ at_,
      (∃ answer, latestAtOrBefore cronSim schedule at_ = some answer ∧
        (∀ m, answer = some m → IsGreatest {k | k ∈ moments schedule ∧ k ≤ at_} m) ∧
        (answer = none → ∀ k ∈ moments schedule, at_ < k)) ∧
      (∃ answer, firstAtOrAfter cronSim schedule at_ = some answer ∧
        (∀ m, answer = some m → IsLeast {k | k ∈ moments schedule ∧ at_ ≤ k} m) ∧
        (answer = none → ∀ k ∈ moments schedule, k < at_)) := by
  have some_ : ∀ schedule, rhythm.schedule = some schedule →
      ∃ moments, cronSim.Yields schedule moments :=
    fun schedule on => ⟨moments schedule, yields schedule on⟩
  refine ⟨fun now joined => isDue_iff_dueAt lastRun some_ joined, ?_, ?_⟩
  · intro now later joined le due
    obtain ⟨asked, answer, is, answered, agree⟩ := isDue_iff_dueAt lastRun some_ joined
    obtain ⟨again, answer', is', answered', agree'⟩ :=
      isDue_iff_dueAt lastRun some_ (le_trans joined le)
    obtain rfl := Option.some.inj (answered.symm.trans answered')
    obtain rfl := Option.some.inj (is.symm.trans due)
    obtain ⟨first, same, before⟩ := agree.mp rfl
    rw [is', agree'.mpr ⟨first, same, le_trans before le⟩]
  · intro schedule on at_
    exact ⟨latestAtOrBefore_spec (yields schedule on) at_,
      firstAtOrAfter_spec (yields schedule on) at_⟩

/-- The library reading `0 * * * *` in UTC: every full hour. -/
def hourly : CronSim where
  forward _ _ at_ := some ((at_ / 3600000000 + 1) * 3600000000)
  reverse _ _ start := some ((start - 1) / 3600000000 * 3600000000)

theorem hourly_yields (schedule : Schedule) :
    hourly.Yields schedule {m | m % 3600000000 = 0} where
  seconds := by
    intro (m : ℤ) (whole : m % 3600000000 = 0)
    show m % 1000000 = 0
    omega
  forward_some := by
    intro (at_ : ℤ) (m : ℤ) found
    obtain rfl : (at_ / 3600000000 + 1) * 3600000000 = m := Option.some.inj found
    refine ⟨⟨?_, ?_⟩, ?_⟩
    · show (at_ / 3600000000 + 1) * 3600000000 % 3600000000 = (0 : ℤ)
      omega
    · show at_ < (at_ / 3600000000 + 1) * 3600000000
      omega
    · rintro (k : ℤ) ⟨(whole : k % 3600000000 = 0), (after : at_ < k)⟩
      show (at_ / 3600000000 + 1) * 3600000000 ≤ k
      omega
  forward_none := by
    intro at_ found
    cases found
  reverse_some := by
    intro (start : ℤ) (m : ℤ) found
    obtain rfl : (start - 1) / 3600000000 * 3600000000 = m := Option.some.inj found
    constructor
    · show (start - 1) / 3600000000 * 3600000000 % 3600000000 = (0 : ℤ)
      omega
    · show (start - 1) / 3600000000 * 3600000000 < start
      omega
  reverse_none := by
    intro start found
    cases found

/-- An hourly errand with ninety minutes' spacing, finished and so due at the hour after those. -/
theorem hourly_due_rule :
    let rhythm : Rhythm := ⟨some ⟨"0 * * * *", "UTC"⟩, some ⟨90, by decide⟩, some .scheduled⟩
    ∃ due answer, isDue hourly rhythm ⟨0⟩ (some ⟨0, some .delivered, some 60000000, none⟩)
        7200000000 = some due ∧
      dueAt hourly rhythm ⟨0⟩ (some ⟨0, some .delivered, some 60000000, none⟩) = some answer ∧
      (due = true ↔ ∃ first, answer = some first ∧ first ≤ 7200000000) :=
  (due_rule_agrees hourly ⟨some ⟨"0 * * * *", "UTC"⟩, some ⟨90, by decide⟩, some .scheduled⟩ ⟨0⟩
    (some ⟨0, some .delivered, some 60000000, none⟩) (fun _ => {m | m % 3600000000 = 0})
    fun schedule _ => hourly_yields schedule).1 7200000000 (by decide)

end Blizzard.CadenceErrands
