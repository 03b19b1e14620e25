import Mathlib.Algebra.Order.Ring.Int
import Mathlib.Data.List.Basic
import Mathlib.Tactic.Common

/-! # The wall clock of a zone

A zone's offset from the instants changes finitely often. A change that moves the clock
ahead skips wall times and one that moves it back repeats some; a wall time is read as
its first showing, and for a skipped one by the offset on either side of the skip. -/
namespace Blizzard.ZonedClock

/-- The length of a day in microseconds. -/
def dayLength : ℤ := 86400000000

/-- An instant the offset changes at, and the offset from then on. -/
structure Change where
  at_ : ℤ
  offset : ℤ
  deriving DecidableEq, Repr

/-- The next change comes once the clock is past the times the one before skipped or repeated. -/
def Apart : ℤ → List Change → Prop
  | _, [] => True
  | old, change :: rest =>
    (∀ next ∈ rest.head?, change.at_ < next.at_ ∧
      change.at_ + max old change.offset ≤ next.at_ + min change.offset next.offset) ∧
    Apart change.offset rest

/-- The offset in force at an instant. -/
def offsetAt : ℤ → List Change → ℤ → ℤ
  | old, [], _ => old
  | old, change :: rest, t => if t < change.at_ then old else offsetAt change.offset rest t

/-- The offset a wall time is read by: the one before the first change whose skipped or repeated
times it is not past, or for `fold` the one before the first whose times it has not come to. -/
def wallOffset (fold : Bool) : ℤ → List Change → ℤ → ℤ
  | old, [], _ => old
  | old, change :: rest, wall =>
    if wall < change.at_ + (if fold then min old change.offset else max old change.offset) then old
    else wallOffset fold change.offset rest wall

/-- What the clock shows at an instant. -/
def clockOf (old : ℤ) (changes : List Change) (t : ℤ) : ℤ := t + offsetAt old changes t

/-- A zone: the offset before its changes, and its changes. No offset reaches a day. -/
structure Zone where
  first : ℤ
  changes : List Change
  apart : Apart first changes
  bounded : ∀ offset ∈ first :: changes.map (·.offset), -dayLength < offset ∧ offset < dayLength

def Zone.clock (zone : Zone) (t : ℤ) : ℤ := clockOf zone.first zone.changes t

def Zone.utcOffset (zone : Zone) (fold : Bool) (wall : ℤ) : ℤ :=
  wallOffset fold zone.first zone.changes wall

/-- The clock shows the wall time first at the instant. -/
def Shown (clock : ℤ → ℤ) (wall at_ : ℤ) : Prop := clock at_ = wall ∧ ∀ t, t < at_ → clock t < wall

/-- At the instant the clock jumps over the wall time, for good. -/
def Skipped (clock : ℤ → ℤ) (wall at_ : ℤ) : Prop :=
  (∀ t, t < at_ → clock t < wall) ∧ ∀ t, at_ ≤ t → wall < clock t

/-! ## Offsets -/

variable {old : ℤ} {change : Change} {rest changes : List Change}

theorem offsetAt_mem (old : ℤ) (changes : List Change) (t : ℤ) :
    offsetAt old changes t ∈ old :: changes.map (·.offset) := by
  induction changes generalizing old with
  | nil => exact List.mem_cons_self
  | cons change rest ih =>
    rw [offsetAt]
    split
    · exact List.mem_cons_self
    · exact List.mem_cons_of_mem _ (ih change.offset)

theorem wallOffset_mem (fold : Bool) (old : ℤ) (changes : List Change) (wall : ℤ) :
    wallOffset fold old changes wall ∈ old :: changes.map (·.offset) := by
  induction changes generalizing old with
  | nil => exact List.mem_cons_self
  | cons change rest ih =>
    rw [wallOffset]
    by_cases before : wall < change.at_ + (if fold then min old change.offset
        else max old change.offset)
    · rw [if_pos before]
      exact List.mem_cons_self
    · rw [if_neg before]
      exact List.mem_cons_of_mem _ (ih change.offset)

/-- The clock is less than a day off the instants, either way. -/
theorem Zone.clock_near (zone : Zone) (t : ℤ) :
    t - dayLength < zone.clock t ∧ zone.clock t < t + dayLength := by
  obtain ⟨low, high⟩ := zone.bounded _ (offsetAt_mem zone.first zone.changes t)
  rw [Zone.clock, clockOf]
  omega

theorem Zone.utcOffset_near (zone : Zone) (fold : Bool) (wall : ℤ) :
    -dayLength < zone.utcOffset fold wall ∧ zone.utcOffset fold wall < dayLength :=
  zone.bounded _ (wallOffset_mem fold zone.first zone.changes wall)

/-! ## A wall time is shown or skipped -/

theorem clockOf_before {t : ℤ} (before : t < change.at_) :
    clockOf old (change :: rest) t = t + old := by
  rw [clockOf, offsetAt, if_pos before]

theorem clockOf_from {t : ℤ} (from_ : change.at_ ≤ t) :
    clockOf old (change :: rest) t = clockOf change.offset rest t := by
  rw [clockOf, offsetAt, if_neg (by omega), clockOf]

/-- From a change on, the clock never goes back behind what the change set it to. -/
theorem le_clockOf (apart : Apart old (change :: rest)) {t : ℤ} (from_ : change.at_ ≤ t) :
    change.at_ + change.offset ≤ clockOf change.offset rest t := by
  induction rest generalizing old change with
  | nil =>
    simp only [clockOf, offsetAt]
    omega
  | cons next rest ih =>
    obtain ⟨near, following⟩ := apart
    obtain ⟨-, spaced⟩ := near next rfl
    by_cases before : t < next.at_
    · rw [clockOf_before before]
      omega
    · rw [clockOf_from (by omega)]
      have reached := ih following (by omega)
      omega

/-- Until the changes come the clock runs on from the offset before them. -/
theorem clockOf_rest (apart : Apart old (change :: rest)) {t : ℤ} (before : t < change.at_) :
    clockOf change.offset rest t = t + change.offset := by
  cases rest with
  | nil => rfl
  | cons next rest =>
    have later := (apart.1 next rfl).1
    exact clockOf_before (by omega)

/-- Under `fold` unset a wall time is read as its first showing; the clock skips every other, which
`fold` reads by the offset after the skip. -/
theorem shown_or_skipped (apart : Apart old changes) (wall : ℤ) :
    Shown (clockOf old changes) wall (wall - wallOffset false old changes wall) ∨
      ∃ at_, Skipped (clockOf old changes) wall at_ ∧
        clockOf old changes at_ = at_ + wallOffset true old changes wall := by
  induction changes generalizing old with
  | nil =>
    left
    constructor
    · simp only [clockOf, offsetAt, wallOffset]
      omega
    · intro t before
      simp only [clockOf, offsetAt, wallOffset] at before ⊢
      omega
  | cons change rest ih =>
    have ahead := fun t from_ => le_clockOf (t := t) apart from_
    by_cases past : change.at_ + max old change.offset ≤ wall
    · -- The change is behind this wall time, which the rest of the zone reads.
      have reads : wallOffset false old (change :: rest) wall =
          wallOffset false change.offset rest wall := if_neg (not_lt.mpr past)
      have folds : wallOffset true old (change :: rest) wall =
          wallOffset true change.offset rest wall := by
        refine if_neg ?_
        simp only [if_true]
        omega
      have below : ∀ at_, (∀ t, t < at_ → clockOf change.offset rest t < wall) →
          ∀ t, t < at_ → clockOf old (change :: rest) t < wall := by
        intro at_ rising t before
        by_cases from_ : change.at_ ≤ t
        · rw [clockOf_from from_]
          exact rising t before
        · rw [clockOf_before (by omega)]
          omega
      have reached : ∀ at_, wall ≤ clockOf change.offset rest at_ → change.at_ ≤ at_ := by
        intro at_ le
        by_contra before
        rw [clockOf_rest apart (by omega)] at le
        omega
      rw [reads, folds]
      rcases ih apart.2 with shown | ⟨at_, skipped, jump⟩
      · left
        have from_ := reached _ (le_of_eq shown.1.symm)
        exact ⟨(clockOf_from from_).trans shown.1, below _ shown.2⟩
      · right
        have from_ := reached at_ (le_of_lt (skipped.2 at_ (le_refl at_)))
        refine ⟨at_, ⟨below at_ skipped.1, ?_⟩, (clockOf_from from_).trans jump⟩
        intro t le
        rw [clockOf_from (by omega)]
        exact skipped.2 t le
    · have reads : wallOffset false old (change :: rest) wall = old := if_pos (not_le.mp past)
      rw [reads]
      by_cases shown : wall < change.at_ + old
      · left
        refine ⟨?_, ?_⟩
        · rw [clockOf_before (by omega)]
          omega
        · intro t before
          rw [clockOf_before (by omega)]
          omega
      · -- The change jumps over this wall time.
        right
        have folds : wallOffset true old (change :: rest) wall = change.offset := by
          have over_ : ¬ wall < change.at_ + min old change.offset := by omega
          rw [wallOffset, if_neg (by simpa using over_)]
          cases rest with
          | nil => rfl
          | cons next rest =>
            obtain ⟨-, spaced⟩ := apart.1 next rfl
            refine if_pos ?_
            simp only [if_true]
            omega
        refine ⟨change.at_, ⟨?_, ?_⟩, ?_⟩
        · intro t before
          rw [clockOf_before before]
          omega
        · intro t from_
          rw [clockOf_from from_]
          have := ahead t from_
          omega
        · rw [folds, clockOf_from (le_refl _)]
          cases rest with
          | nil => rfl
          | cons next rest => exact clockOf_before (apart.1 next rfl).1

theorem Zone.shown_or_skipped (zone : Zone) (wall : ℤ) :
    Shown zone.clock wall (wall - zone.utcOffset false wall) ∨
      ∃ at_, Skipped zone.clock wall at_ ∧
        zone.clock at_ = at_ + zone.utcOffset true wall :=
  ZonedClock.shown_or_skipped zone.apart wall

/-! ## The first instant past a wall time -/

section Reading
variable {clock : ℤ → ℤ} {wall wall' at_ at' : ℤ}

/-- The clock comes to the wall time, or past it, first at the instant. -/
def Reached (clock : ℤ → ℤ) (wall at_ : ℤ) : Prop :=
  (∀ t, t < at_ → clock t < wall) ∧ wall ≤ clock at_

theorem Shown.reached (shown : Shown clock wall at_) : Reached clock wall at_ :=
  ⟨shown.2, le_of_eq shown.1.symm⟩

theorem Skipped.reached (skipped : Skipped clock wall at_) : Reached clock wall at_ :=
  ⟨skipped.1, le_of_lt (skipped.2 at_ (le_refl at_))⟩

theorem Skipped.ne (skipped : Skipped clock wall at_) (t : ℤ) : clock t ≠ wall := by
  rcases lt_or_ge t at_ with before | from_
  · exact ne_of_lt (skipped.1 t before)
  · exact ne_of_gt (skipped.2 t from_)

/-- Where the clock shows no less than the wall time, it has come to it. -/
theorem Reached.le_of_le (reached : Reached clock wall at_) {t : ℤ} (le : wall ≤ clock t) :
    at_ ≤ t := by
  by_contra before
  exact absurd (reached.1 t (not_le.mp before)) (not_lt.mpr le)

theorem Reached.mono (reached : Reached clock wall at_) (reached' : Reached clock wall' at')
    (le : wall ≤ wall') : at_ ≤ at' :=
  reached.le_of_le (le_trans le reached'.2)

theorem Reached.unique (reached : Reached clock wall at_) (reached' : Reached clock wall at') :
    at_ = at' :=
  le_antisymm (reached.mono reached' (le_refl _)) (reached'.mono reached (le_refl _))

end Reading

end Blizzard.ZonedClock
