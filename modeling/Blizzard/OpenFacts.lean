import Mathlib.Data.List.Induction
import Mathlib.Order.Lattice

/-! # Openers and closers in a sequence

A log whose rows rise strictly in a key. An opening row stands while no closing
row lies above it; over such a log that is the same as the last of the opening and
closing rows being an opening one, whatever other rows lie between. -/
namespace Blizzard.OpenFacts

variable {α κ : Type*} [LinearOrder κ] {key : α → κ} {opens closes : α → Bool} {rows : List α}

/-- Some opening row has no closing row above it. -/
def Standing (key : α → κ) (opens closes : α → Bool) (rows : List α) : Prop :=
  ∃ o ∈ rows, opens o ∧ ∀ c ∈ rows, closes c → ¬ key o < key c

/-- The last of the opening and closing rows. -/
def lastJudged (opens closes : α → Bool) (rows : List α) : Option α :=
  (rows.filter fun r => opens r || closes r).getLast?

@[simp] theorem lastJudged_append_self (opens closes : α → Bool) (rows : List α) {row : α}
    (judged : opens row || closes row) : lastJudged opens closes (rows ++ [row]) = some row := by
  simp [lastJudged, List.filter_append, judged]

@[simp] theorem lastJudged_append_other (opens closes : α → Bool) (rows : List α) {row : α}
    (unjudged : (opens row || closes row) = false) :
    lastJudged opens closes (rows ++ [row]) = lastJudged opens closes rows := by
  simp [lastJudged, List.filter_append, unjudged]

/-- An opening row appended above the log stands. -/
theorem standing_append_opening {row : α} (top : ∀ r ∈ rows, key r < key row) (opening : opens row) :
    Standing key opens closes (rows ++ [row]) := by
  refine ⟨row, List.mem_append_right rows List.mem_cons_self, opening, ?_⟩
  intro c inside _
  rcases List.mem_append.mp inside with old | last
  · exact not_lt.mpr (le_of_lt (top c old))
  · rw [List.mem_singleton.mp last]
    exact lt_irrefl _

/-- A closing row appended above the log closes every row under it. -/
theorem not_standing_append_closing {row : α} (top : ∀ r ∈ rows, key r < key row)
    (closing : closes row) (apart : opens row = false) :
    ¬ Standing key opens closes (rows ++ [row]) := by
  rintro ⟨o, inside, opening, free⟩
  rcases List.mem_append.mp inside with old | last
  · exact free row (List.mem_append_right rows List.mem_cons_self) closing (top o old)
  · rw [List.mem_singleton.mp last, apart] at opening
    cases opening

theorem standing_append_other {row : α} (unopening : opens row = false)
    (unclosing : closes row = false) :
    Standing key opens closes (rows ++ [row]) ↔ Standing key opens closes rows := by
  constructor
  · rintro ⟨o, inside, opening, free⟩
    rcases List.mem_append.mp inside with old | last
    · exact ⟨o, old, opening, fun c among => free c (List.mem_append_left _ among)⟩
    · rw [List.mem_singleton.mp last, unopening] at opening
      cases opening
  · rintro ⟨o, inside, opening, free⟩
    refine ⟨o, List.mem_append_left _ inside, opening, ?_⟩
    intro c among closing
    rcases List.mem_append.mp among with old | last
    · exact free c old closing
    · rw [List.mem_singleton.mp last, unclosing] at closing
      cases closing

/-- An opener stands exactly when the last row that opens or closes is an opening one. -/
theorem standing_iff_last (sorted : rows.Pairwise fun a b => key a < key b)
    (apart : ∀ r, opens r → closes r = false) :
    Standing key opens closes rows ↔ (lastJudged opens closes rows).any opens := by
  induction rows using List.reverseRecOn with
  | nil => simp [Standing, lastJudged]
  | append_singleton rows row ih =>
    obtain ⟨before, -, above⟩ := List.pairwise_append.mp sorted
    have top : ∀ r ∈ rows, key r < key row := by
      intro r inside
      exact above r inside row List.mem_cons_self
    cases opening : opens row with
    | true =>
      have judged : opens row || closes row := by simp [opening]
      rw [lastJudged_append_self opens closes rows judged, Option.any_some, opening]
      exact iff_of_true (standing_append_opening top opening) rfl
    | false =>
      cases closing : closes row with
      | true =>
        have judged : opens row || closes row := by simp [closing]
        rw [lastJudged_append_self opens closes rows judged, Option.any_some, opening]
        exact iff_of_false (not_standing_append_closing top closing opening) Bool.false_ne_true
      | false =>
        have unjudged : (opens row || closes row) = false := by simp [opening, closing]
        rw [lastJudged_append_other opens closes rows unjudged,
          standing_append_other opening closing]
        exact ih before

end Blizzard.OpenFacts
