import Mathlib.Data.List.Sort
import Mathlib.Data.List.Dedup
import Blizzard.BoundedLoops
import Blizzard.ZonedClock

/-! # The schedule lever

A runner is willing to start work inside the spans of its scheduled days, read on the
host's wall clock. The lever looks at the days around the local one; outside every span
it promises the first start ahead. -/
namespace Blizzard.ScheduleLever
open BoundedLoops ZonedClock

def minutesPerDay : ℕ := 24 * 60

/-- How many days ahead the schedule looks for the start of its next span. -/
def scheduleLookaheadDays : ℕ := 8

/-- A minute in microseconds. -/
def minute : ℤ := 60000000

/-- A span of a day in minutes since midnight; an end not after its start runs past midnight. -/
structure Span where
  startMinute : ℕ
  endMinute : ℕ
  start_lt : startMinute < minutesPerDay
  end_le : endMinute ≤ minutesPerDay
  deriving DecidableEq, Repr

/-- The whole of a day. -/
def allDay : Span := ⟨0, minutesPerDay, by decide, by decide⟩

/-- The weekdays a span may start on, Monday `0`, and the spans. -/
structure ScheduleSettings where
  days : List ℤ := [0, 1, 2, 3, 4, 5, 6]
  spans : List Span := []
  deriving DecidableEq, Repr

/-- No spans means the whole of each listed day. -/
def ScheduleSettings.hours (settings : ScheduleSettings) : List Span :=
  if settings.spans = [] then [allDay] else settings.spans

/-- The host's zone, with what it calls itself at an instant. -/
structure HostZone extends Zone where
  tzname : ℤ → Option String

inductive LeverName
  | pace | utilization | budget | schedule
  deriving DecidableEq, Repr

structure LeverAnswer where
  lever : LeverName
  admits : Bool
  reading : String
  setting : String
  inForce : Option String := none
  until_ : Option ℤ := none
  deriving DecidableEq, Repr

/-! ## The setting in the operator's words -/

def dayNames : List String := ["mon", "tue", "wed", "thu", "fri", "sat", "sun"]

def dash : String := "–"

def twoDigits (n : ℕ) : String := if n < 10 then "0" ++ toString n else toString n

def clockWords (m : ℕ) : String := twoDigits (m / 60 % 24) ++ ":" ++ twoDigits (m % 60)

def spanWords (span : Span) : String :=
  clockWords span.startMinute ++ dash ++ clockWords span.endMinute

def dayName (day : ℤ) : String := dayNames.getD day.toNat ""

/-- Ascending days grouped into runs of consecutive ones. -/
def dayRuns : List ℤ → List (List ℤ)
  | [] => []
  | day :: rest =>
    match dayRuns rest with
    | (next :: run) :: runs =>
      if next = day + 1 then (day :: next :: run) :: runs else [day] :: (next :: run) :: runs
    | runs => [day] :: runs

def dayWords (days : List ℤ) : String :=
  let ordered := days.dedup.insertionSort (· ≤ ·)
  if ordered.length = dayNames.length then "every day"
  else String.intercalate "," ((dayRuns ordered).flatMap fun run =>
    if 3 ≤ run.length then [dayName (run.headD 0) ++ dash ++ dayName (run.getLastD 0)]
    else run.map dayName)

def scheduleSetting (settings : ScheduleSettings) (zoneName : String) : String :=
  let hours := if settings.spans = [] then "all day"
    else String.intercalate ", " (settings.spans.map spanWords)
  let words := dayWords settings.days ++ " " ++ hours ++ " " ++ zoneName
  String.ofList (words.toList.reverse.dropWhile (·.isWhitespace)).reverse

/-! ## The instant of a wall time -/

section Wall
variable (zone : HostZone) (wall : ℤ)

/-- One step to the first minute whose wall clock has reached the time. -/
def stepMinute (candidate : ℤ) : Option ℤ :=
  if zone.clock candidate < wall then some (candidate + minute) else none

/-- The instant a wall time is on the clock; `none` where the loop outlasts two days of minutes. -/
def reachMinute : Option ℤ :=
  let first := wall - zone.utcOffset false wall
  if zone.clock first = wall then some first
  else loop (stepMinute zone wall) (2 * minutesPerDay + 1) (wall - zone.utcOffset true wall)

end Wall

variable {zone : HostZone} {settings : ScheduleSettings} {wall wall' now t : ℤ}

/-- The step to the next minute ends: no offset reaches a day. -/
theorem reachMinute_some (zone : HostZone) (wall : ℤ) :
    ∃ instant, reachMinute zone wall = some instant := by
  rw [reachMinute]
  split
  · exact ⟨_, rfl⟩
  · refine loop_ends (I := fun candidate => wall - dayLength < candidate)
      (fun candidate => ((wall + dayLength - candidate + minute) / minute).toNat) ?_ ?_ ?_ ?_
    · intro candidate next near stepped
      rw [stepMinute] at stepped
      split at stepped
      · rw [← Option.some_inj.mp stepped]
        have pos : 0 < minute := by decide
        omega
      · exact nomatch stepped
    · intro candidate next near stepped
      rw [stepMinute] at stepped
      split at stepped
      next behind =>
        rw [← Option.some_inj.mp stepped]
        have slow := (zone.clock_near candidate).1
        have ahead : candidate < wall + dayLength := by omega
        have fewer (x : ℤ) (pos : 0 < x) : ((x - minute + minute) / minute).toNat <
            ((x + minute) / minute).toNat := by
          simp only [minute]
          omega
        have shifted : wall + dayLength - (candidate + minute) + minute =
            wall + dayLength - candidate - minute + minute := by omega
        rw [shifted]
        exact fewer _ (by omega)
      · exact nomatch stepped
    · have near := (zone.utcOffset_near true wall).2
      omega
    · have near := (zone.utcOffset_near true wall).2
      have bounded (x : ℤ) (small : x < 2 * dayLength) :
          ((x + minute) / minute).toNat < 2 * minutesPerDay + 1 := by
        simp only [minute, dayLength, minutesPerDay] at small ⊢
        omega
      exact bounded _ (by omega)

/-- The instant a wall time is on the clock: its first showing, or for a skipped time the first
minute that does exist. -/
def wallInstant (zone : HostZone) (wall : ℤ) : ℤ :=
  (reachMinute zone wall).get (Option.isSome_iff_exists.mpr (reachMinute_some zone wall))

theorem wallInstant_eq {instant : ℤ} (reached : reachMinute zone wall = some instant) :
    wallInstant zone wall = instant := by
  simp [wallInstant, reached]

/-! ## Spans and the answer -/

/-- The wall times a span starting on a day opens and closes at. -/
def Span.opens (span : Span) (day : ℤ) : ℤ := day * dayLength + span.startMinute * minute

def Span.closes (span : Span) (day : ℤ) : ℤ :=
  let endDay : ℤ := if span.endMinute ≤ span.startMinute then 1 else 0
  day * dayLength + endDay * dayLength + span.endMinute * minute

/-- The instants a span starting on a day opens and closes at. -/
def spanInstants (zone : HostZone) (day : ℤ) (span : Span) : ℤ × ℤ :=
  (wallInstant zone (span.opens day), wallInstant zone (span.closes day))

/-- The local calendar's day, counted from 1970-01-01. -/
def localDay (zone : HostZone) (now : ℤ) : ℤ := zone.clock now / dayLength

/-- A day's weekday, Monday `0`; 1970-01-01 was a Thursday. -/
def weekday (day : ℤ) : ℤ := (day + 3) % 7

/-- The days the schedule looks at, yesterday first. -/
def lookedDays (zone : HostZone) (now : ℤ) : List ℤ :=
  (List.range (scheduleLookaheadDays + 1)).map fun offset : ℕ => localDay zone now + (offset - 1)

def runs (settings : ScheduleSettings) (zone : HostZone) (now : ℤ) : List (ℤ × ℤ) :=
  ((lookedDays zone now).filter fun day => decide (weekday day ∈ settings.days)).flatMap fun day =>
    settings.hours.map (spanInstants zone day)

/-- The starts still ahead. -/
def upcoming (settings : ScheduleSettings) (zone : HostZone) (now : ℤ) : List ℤ :=
  ((runs settings zone now).map Prod.fst).filter fun start => decide (now < start)

def scheduleAnswer (settings : ScheduleSettings) (zone : HostZone) (now : ℤ) : LeverAnswer :=
  let setting := scheduleSetting settings ((zone.tzname now).getD "")
  if (runs settings zone now).any fun run => decide (run.1 ≤ now) && decide (now < run.2) then
    { lever := .schedule, admits := true, reading := "inside", setting }
  else
    { lever := .schedule, admits := false, reading := "outside", setting
      until_ := (upcoming settings zone now).min? }

/-! ## What the wall instants are -/

/-- A whole minute of the wall clock. -/
def WallMinute (wall : ℤ) : Prop := wall % minute = 0

/-- Whenever the clock jumps over a whole minute, it lands on a whole minute. -/
def MinuteLandings (zone : HostZone) : Prop :=
  ∀ wall at_, WallMinute wall → (∀ t, t < at_ → zone.clock t < wall) → wall < zone.clock at_ →
    WallMinute (zone.clock at_)

/-- A skipped time is stepped to from the offset after the skip, a minute at a time. -/
theorem wallInstant_skipped {at_ : ℤ} (skipped : Skipped zone.clock wall at_)
    (jump : zone.clock at_ = at_ + zone.utcOffset true wall) :
    (wallInstant zone wall - (at_ + wall - zone.clock at_)) % minute = 0 ∧
      at_ ≤ wallInstant zone wall ∧
      ((zone.clock at_ - wall) % minute = 0 → wallInstant zone wall = at_) := by
  obtain ⟨instant, reached⟩ := reachMinute_some zone wall
  rw [wallInstant_eq reached]
  rw [reachMinute, if_neg (skipped.ne _)] at reached
  have start : wall - zone.utcOffset true wall = at_ + wall - zone.clock at_ := by omega
  have pos : 0 < minute := by decide
  rw [start] at reached
  -- Every candidate stands whole minutes past the first, and behind the skip's end until it is met.
  obtain ⟨⟨aligned, bounded⟩, exit⟩ := loop_invariant
    (I := fun candidate => (candidate - (at_ + wall - zone.clock at_)) % minute = 0 ∧
      ((zone.clock at_ - wall) % minute = 0 → candidate ≤ at_))
    (by
      intro candidate next kept stepped
      rw [stepMinute] at stepped
      split at stepped
      next behind =>
        rw [← Option.some_inj.mp stepped]
        have before : candidate < at_ := by
          by_contra past
          exact absurd behind (not_lt.mpr (le_of_lt (skipped.2 candidate (not_lt.mp past))))
        refine ⟨?_, fun lands => ?_⟩
        · have same := kept.1
          simp only [minute] at same ⊢
          omega
        · have same := kept.1
          simp only [minute] at same lands ⊢
          omega
      · exact nomatch stepped)
    (by
      refine ⟨by simp, fun _ => ?_⟩
      have over_ := skipped.2 at_ (le_refl at_)
      omega) reached
  rw [stepMinute] at exit
  have arrived : ¬ zone.clock instant < wall := by
    intro behind
    rw [if_pos behind] at exit
    exact nomatch exit
  have past : at_ ≤ instant := by
    by_contra before
    exact arrived (skipped.1 instant (not_le.mp before))
  exact ⟨aligned, past, fun lands => le_antisymm (bounded lands) past⟩

/-- A shown time is read at its first showing. -/
theorem wallInstant_shown (shown : Shown zone.clock wall (wall - zone.utcOffset false wall)) :
    Shown zone.clock wall (wallInstant zone wall) := by
  have reached : reachMinute zone wall = some (wall - zone.utcOffset false wall) :=
    if_pos shown.1
  rw [wallInstant_eq reached]
  exact shown

/-- Where every skip lands on a whole minute, a skipped minute is its end. -/
theorem shown_or_skipped_wallInstant (landings : MinuteLandings zone) (whole : WallMinute wall) :
    Shown zone.clock wall (wallInstant zone wall) ∨
      Skipped zone.clock wall (wallInstant zone wall) := by
  rcases zone.shown_or_skipped wall with shown | ⟨at_, skipped, jump⟩
  · exact .inl (wallInstant_shown shown)
  · have landed := landings wall at_ whole skipped.1 (skipped.2 at_ (le_refl at_))
    have lands : (zone.clock at_ - wall) % minute = 0 := by
      simp only [WallMinute, minute] at whole landed ⊢
      omega
    rw [(wallInstant_skipped skipped jump).2.2 lands]
    exact .inr skipped

theorem reached_wallInstant (landings : MinuteLandings zone) (whole : WallMinute wall) :
    Reached zone.clock wall (wallInstant zone wall) := by
  rcases shown_or_skipped_wallInstant landings whole with shown | skipped
  · exact shown.reached
  · exact skipped.reached

theorem wallInstant_mono (landings : MinuteLandings zone) (whole : WallMinute wall)
    (whole' : WallMinute wall') (le : wall ≤ wall') :
    wallInstant zone wall ≤ wallInstant zone wall' :=
  (reached_wallInstant landings whole).mono (reached_wallInstant landings whole') le

/-- A skip that is read as its end lands on a whole minute. -/
theorem landings_of_skips (skips : ∀ wall, WallMinute wall → (∀ t, zone.clock t ≠ wall) →
    Skipped zone.clock wall (wallInstant zone wall)) : MinuteLandings zone := by
  intro wall at_ whole rising over_
  have first : Reached zone.clock wall at_ := ⟨rising, le_of_lt over_⟩
  rcases zone.shown_or_skipped wall with shown | ⟨at', skipped, jump⟩
  · rw [first.unique shown.reached, shown.1] at over_
    exact absurd over_ (lt_irrefl _)
  · have same : at_ = at' := first.unique skipped.reached
    have read := (skips wall whole skipped.ne).reached.unique skipped.reached
    have aligned := (wallInstant_skipped skipped jump).1
    rw [read] at aligned
    rw [same]
    simp only [WallMinute, minute] at whole aligned ⊢
    omega

/-! ## Days and their spans -/

theorem opens_whole (span : Span) (day : ℤ) : WallMinute (span.opens day) := by
  simp only [WallMinute, Span.opens, minute, dayLength]
  omega

theorem closes_whole (span : Span) (day : ℤ) : WallMinute (span.closes day) := by
  simp only [WallMinute, Span.closes, minute, dayLength]
  split <;> omega

theorem opens_within (span : Span) (day : ℤ) :
    day * dayLength ≤ span.opens day ∧ span.opens day < (day + 1) * dayLength := by
  have start := span.start_lt
  simp only [Span.opens, minute, dayLength, minutesPerDay] at start ⊢
  omega

/-- A span closes no later than the end of the day after the one it belongs to. -/
theorem closes_within (span : Span) (day : ℤ) : span.closes day ≤ (day + 2) * dayLength := by
  have end_ := span.end_le
  simp only [Span.closes, minute, dayLength, minutesPerDay] at end_ ⊢
  split <;> omega

theorem localDay_clock (zone : HostZone) (now : ℤ) :
    localDay zone now * dayLength ≤ zone.clock now ∧
      zone.clock now < (localDay zone now + 1) * dayLength := by
  have floor (x : ℤ) : x / 86400000000 * 86400000000 ≤ x ∧
      x < (x / 86400000000 + 1) * 86400000000 := by omega
  exact floor (zone.clock now)

theorem mem_lookedDays {day : ℤ} : day ∈ lookedDays zone now ↔
    localDay zone now - 1 ≤ day ∧ day ≤ localDay zone now + 7 := by
  rw [lookedDays, List.mem_map]
  constructor
  · rintro ⟨offset, mem, rfl⟩
    have lt : offset < 8 + 1 := List.mem_range.mp mem
    omega
  · rintro ⟨low, high⟩
    have lt : (day - localDay zone now + 1).toNat < 8 + 1 := by omega
    exact ⟨_, List.mem_range.mpr lt, by omega⟩

/-- A span of a scheduled day. -/
def Scheduled (settings : ScheduleSettings) (day : ℤ) (span : Span) : Prop :=
  weekday day ∈ settings.days ∧ span ∈ settings.hours

theorem mem_runs {run : ℤ × ℤ} : run ∈ runs settings zone now ↔
    ∃ day span, Scheduled settings day span ∧ localDay zone now - 1 ≤ day ∧
      day ≤ localDay zone now + 7 ∧ spanInstants zone day span = run := by
  simp only [runs, List.mem_flatMap, List.mem_filter, mem_lookedDays, decide_eq_true_eq,
    List.mem_map, Scheduled]
  constructor
  · rintro ⟨day, ⟨⟨low, high⟩, on⟩, span, mem, is⟩
    exact ⟨day, span, ⟨on, mem⟩, low, high, is⟩
  · rintro ⟨day, span, ⟨on, mem⟩, low, high, is⟩
    exact ⟨day, ⟨⟨low, high⟩, on⟩, span, mem, is⟩

/-- The instant lies in the instants of some span of some scheduled day. -/
def Inside (settings : ScheduleSettings) (zone : HostZone) (now : ℤ) : Prop :=
  ∃ day span, Scheduled settings day span ∧ (spanInstants zone day span).1 ≤ now ∧
    now < (spanInstants zone day span).2

/-- A span that has not closed belongs to yesterday or a later day. -/
theorem yesterday_le (landings : MinuteLandings zone) {day : ℤ} {span : Span}
    (open_ : now < (spanInstants zone day span).2) : localDay zone now - 1 ≤ day := by
  by_contra before
  have closed : span.closes day ≤ zone.clock now := by
    have within := closes_within span day
    have today := (localDay_clock zone now).1
    simp only [dayLength] at within today ⊢
    omega
  have reached := (reached_wallInstant landings (closes_whole span day)).le_of_le closed
  exact absurd open_ (not_lt.mpr reached)

/-- A span that has opened belongs to a day the schedule looks at, or an earlier one. -/
theorem le_lastDay (landings : MinuteLandings zone) {day : ℤ} {span : Span}
    (opened : (spanInstants zone day span).1 ≤ now) : day ≤ localDay zone now + 7 := by
  by_contra after
  have reached := (reached_wallInstant landings (opens_whole span day)).2
  have near := (zone.clock_near (spanInstants zone day span).1).2
  have slow := (zone.clock_near now).1
  have today := (localDay_clock zone now).2
  have within := (opens_within span day).1
  have shown : span.opens day ≤ zone.clock (spanInstants zone day span).1 := reached
  simp only [dayLength] at near slow today within
  omega

theorem admits_iff_runs : (scheduleAnswer settings zone now).admits = true ↔
    ∃ run ∈ runs settings zone now, run.1 ≤ now ∧ now < run.2 := by
  simp only [scheduleAnswer]
  split
  next inside => simpa using inside
  next outside => simpa using outside

theorem admits_iff_inside (landings : MinuteLandings zone) :
    (scheduleAnswer settings zone now).admits = true ↔ Inside settings zone now := by
  rw [admits_iff_runs]
  constructor
  · rintro ⟨run, mem, opened, open_⟩
    obtain ⟨day, span, on, -, -, rfl⟩ := mem_runs.mp mem
    exact ⟨day, span, on, opened, open_⟩
  · rintro ⟨day, span, on, opened, open_⟩
    exact ⟨_, mem_runs.mpr ⟨day, span, on, yesterday_le landings open_,
      le_lastDay landings opened, rfl⟩, opened, open_⟩

/-! ## The promised start -/

/-- The instant lies inside a looked-at span, or the first start ahead of it is the start of a
scheduled span that no skip swallows. -/
def StartKept (settings : ScheduleSettings) (zone : HostZone) (now : ℤ) : Prop :=
  (∃ run ∈ runs settings zone now, run.1 ≤ now ∧ now < run.2) ∨
    ∃ day span, Scheduled settings day span ∧
      (spanInstants zone day span).1 < (spanInstants zone day span).2 ∧
      (spanInstants zone day span).1 ∈ upcoming settings zone now ∧
      ∀ start ∈ upcoming settings zone now, (spanInstants zone day span).1 ≤ start

theorem mem_upcoming {start : ℤ} : start ∈ upcoming settings zone now ↔
    now < start ∧ ∃ day span, Scheduled settings day span ∧ localDay zone now - 1 ≤ day ∧
      day ≤ localDay zone now + 7 ∧ (spanInstants zone day span).1 = start := by
  simp only [upcoming, List.mem_filter, List.mem_map, decide_eq_true_eq]
  constructor
  · rintro ⟨⟨run, mem, rfl⟩, ahead⟩
    obtain ⟨day, span, on, low, high, rfl⟩ := mem_runs.mp mem
    exact ⟨ahead, day, span, on, low, high, rfl⟩
  · rintro ⟨ahead, day, span, on, low, high, rfl⟩
    exact ⟨⟨_, mem_runs.mpr ⟨day, span, on, low, high, rfl⟩, rfl⟩, ahead⟩

/-- Among the spans that open ahead and have not closed, none opens before the first start the
schedule looks at. -/
theorem first_le (landings : MinuteLandings zone) {first : ℤ}
    (mem : first ∈ upcoming settings zone now)
    (least : ∀ start ∈ upcoming settings zone now, first ≤ start) {day : ℤ} {span : Span}
    (on : Scheduled settings day span) (ahead : now < (spanInstants zone day span).1)
    (open_ : now < (spanInstants zone day span).2) : first ≤ (spanInstants zone day span).1 := by
  by_cases looked : day ≤ localDay zone now + 7
  · exact least _ (mem_upcoming.mpr
      ⟨ahead, day, span, on, yesterday_le landings open_, looked, rfl⟩)
  · obtain ⟨-, day', span', -, -, high, rfl⟩ := mem_upcoming.mp mem
    refine wallInstant_mono landings (opens_whole span' day') (opens_whole span day) ?_
    have within := (opens_within span day).1
    have within' := (opens_within span' day').2
    simp only [dayLength] at within within'
    omega

/-- What the lever answers and promises. -/
structure Promised (settings : ScheduleSettings) (zone : HostZone) (now : ℤ) : Prop where
  admits : (scheduleAnswer settings zone now).admits = true ↔ Inside settings zone now
  until_ : (scheduleAnswer settings zone now).admits = false →
    ∃ instant, (scheduleAnswer settings zone now).until_ = some instant ∧ now < instant ∧
      (scheduleAnswer settings zone instant).admits = true ∧
      ∀ t, now < t → t < instant → (scheduleAnswer settings zone t).admits = false
  ends : ∀ wall, ∃ instant, reachMinute zone wall = some instant
  rises : ∀ wall wall', WallMinute wall → WallMinute wall' → wall ≤ wall' →
    wallInstant zone wall ≤ wallInstant zone wall'
  reads : ∀ wall, WallMinute wall → (∃ t, zone.clock t = wall) →
    zone.clock (wallInstant zone wall) = wall
  skips : ∀ wall, WallMinute wall → (∀ t, zone.clock t ≠ wall) →
    Skipped zone.clock wall (wallInstant zone wall)

theorem until_of_refused (refused : (scheduleAnswer settings zone now).admits = false) :
    (scheduleAnswer settings zone now).until_ = (upcoming settings zone now).min? := by
  simp only [scheduleAnswer] at refused ⊢
  split
  next inside => simp [inside] at refused
  next outside => rfl

theorem min?_eq_some {first : ℤ} : (upcoming settings zone now).min? = some first ↔
    first ∈ upcoming settings zone now ∧ ∀ start ∈ upcoming settings zone now, first ≤ start :=
  List.min?_eq_some_iff

/-- The first start ahead, where it is kept, is the least instant ahead the schedule admits. -/
theorem until_kept (landings : MinuteLandings zone) (kept : StartKept settings zone now)
    (refused : (scheduleAnswer settings zone now).admits = false) :
    ∃ instant, (scheduleAnswer settings zone now).until_ = some instant ∧ now < instant ∧
      (scheduleAnswer settings zone instant).admits = true ∧
      ∀ t, now < t → t < instant → (scheduleAnswer settings zone t).admits = false := by
  have outside : ¬ Inside settings zone now := fun inside =>
    absurd ((admits_iff_inside landings).mpr inside) (by simp [refused])
  rcases kept with inside | ⟨day, span, on, open_, mem, least⟩
  · exact absurd (admits_iff_runs.mpr inside) (by simp [refused])
  · refine ⟨_, (until_of_refused refused).trans (min?_eq_some.mpr ⟨mem, least⟩),
      (mem_upcoming.mp mem).1, (admits_iff_inside landings).mpr ⟨day, span, on, le_refl _, open_⟩,
      ?_⟩
    intro t past before
    refine Bool.eq_false_iff.mpr fun admits => ?_
    obtain ⟨day', span', on', opened, lasting⟩ := (admits_iff_inside landings).mp admits
    have ahead : now < (spanInstants zone day' span').1 := by
      by_contra started
      exact outside ⟨day', span', on', not_lt.mp started, lt_trans past lasting⟩
    have le := first_le landings mem least on' ahead (lt_trans past lasting)
    exact absurd before (not_lt.mpr (le_trans le opened))

/-- A promised instant the schedule admits at is the start of a span that no skip swallows. -/
theorem startKept_of_until (landings : MinuteLandings zone)
    (promised : (scheduleAnswer settings zone now).admits = false →
      ∃ instant, (scheduleAnswer settings zone now).until_ = some instant ∧ now < instant ∧
        (scheduleAnswer settings zone instant).admits = true) : StartKept settings zone now := by
  cases answered : (scheduleAnswer settings zone now).admits with
  | true => exact .inl (admits_iff_runs.mp answered)
  | false =>
    right
    obtain ⟨first, is, past, admits⟩ := promised answered
    rw [until_of_refused answered, min?_eq_some] at is
    obtain ⟨mem, least⟩ := is
    obtain ⟨day, span, on, opened, lasting⟩ := (admits_iff_inside landings).mp admits
    have ahead : now < (spanInstants zone day span).1 := by
      by_contra started
      have inside : Inside settings zone now :=
        ⟨day, span, on, not_lt.mp started, lt_trans past lasting⟩
      exact absurd ((admits_iff_inside landings).mpr inside) (by simp [answered])
    have le := first_le landings mem least on ahead (lt_trans past lasting)
    have same : (spanInstants zone day span).1 = first := le_antisymm opened le
    refine ⟨day, span, on, ?_, ?_, ?_⟩
    · rw [same]
      exact lasting
    · rw [same]
      exact mem
    · rw [same]
      exact least

/-- A zone that moves its clock from two to three on one day. -/
def springForward : HostZone where
  first := 0
  changes := [⟨7200000000, 3600000000⟩]
  apart := by simp [Apart]
  bounded := by decide
  tzname _ := none

end Blizzard.ScheduleLever
