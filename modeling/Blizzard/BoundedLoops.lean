import Mathlib.Order.Basic

/-! # Loops that a measure bounds

A `while` loop as a step that answers the next state or, at its exit, none. A
measure that falls with each iteration bounds the loop, and what an iteration
keeps holds where the loop exits. -/
namespace Blizzard.BoundedLoops

variable {S : Type*} {step : S → Option S}

/-- The state at the loop's exit; none where `fuel` iterations do not reach it. -/
def loop (step : S → Option S) : ℕ → S → Option S
  | 0, _ => none
  | fuel + 1, s =>
    match step s with
    | none => some s
    | some next => loop step fuel next

/-- What every iteration keeps holds at the exit, where no iteration follows. -/
theorem loop_invariant {I : S → Prop} (kept : ∀ s t, I s → step s = some t → I t)
    {fuel : ℕ} {s r : S} (start : I s) (ends : loop step fuel s = some r) :
    I r ∧ step r = none := by
  induction fuel generalizing s with
  | zero => simp [loop] at ends
  | succ fuel ih =>
    rw [loop] at ends
    cases next : step s with
    | none =>
      simp only [next, Option.some.injEq] at ends
      subst ends
      exact ⟨start, next⟩
    | some t =>
      simp only [next] at ends
      exact ih (kept s t start next) ends

/-- A measure that falls with each iteration bounds their number. -/
theorem loop_ends {I : S → Prop} (measure : S → ℕ)
    (kept : ∀ s t, I s → step s = some t → I t)
    (falls : ∀ s t, I s → step s = some t → measure t < measure s)
    {fuel : ℕ} {s : S} (start : I s) (enough : measure s < fuel) :
    ∃ r, loop step fuel s = some r := by
  induction fuel generalizing s with
  | zero => omega
  | succ fuel ih =>
    rw [loop]
    cases next : step s with
    | none => exact ⟨s, rfl⟩
    | some t =>
      have less := falls s t start next
      exact ih (kept s t start next) (by omega)

/-- The loop rule: a measured loop exits, with its invariant. -/
theorem loop_rule {I : S → Prop} (measure : S → ℕ)
    (kept : ∀ s t, I s → step s = some t → I t)
    (falls : ∀ s t, I s → step s = some t → measure t < measure s)
    {fuel : ℕ} {s : S} (start : I s) (enough : measure s < fuel) :
    ∃ r, loop step fuel s = some r ∧ I r ∧ step r = none := by
  obtain ⟨r, ends⟩ := loop_ends measure kept falls start enough
  exact ⟨r, ends, loop_invariant kept start ends⟩

end Blizzard.BoundedLoops
