import Mathlib.Order.WellFounded

/-! # What cannot go on for ever

A sequence of values, or of none. A value that falls in a well-founded order again and again comes
to none; a value that can only be given up, and is, comes to none before another takes its place. -/
namespace Blizzard.FallingRanks

variable {α : Type*} (seq : ℕ → Option α)

/-- What is kept until something happens is kept up to it. -/
theorem kept_until {a : α} (keeps : ∀ n, seq n = some a → seq (n + 1) = some a ∨ seq (n + 1) = none)
    {n m : ℕ} (later : n ≤ m) (at_ : seq n = some a) :
    seq m = some a ∨ ∃ k, n ≤ k ∧ k ≤ m ∧ seq k = none := by
  induction m, later using Nat.le_induction with
  | base => exact .inl at_
  | succ m later ih =>
    rcases ih with same | ⟨k, from_, to_, gone⟩
    · rcases keeps m same with still | gone
      · exact .inl still
      · exact .inr ⟨m + 1, later.trans m.le_succ, le_rfl, gone⟩
    · exact .inr ⟨k, from_, to_.trans m.le_succ, gone⟩

/-- A value that is always given up in the end is none before it is another. -/
theorem comes_to_none {n : ℕ}
    (keeps : ∀ m a, seq m = some a → seq (m + 1) = some a ∨ seq (m + 1) = none)
    (gives : ∀ a, seq n = some a → ∃ m, n ≤ m ∧ seq m ≠ some a) : ∃ m, n ≤ m ∧ seq m = none := by
  cases at_ : seq n with
  | none => exact ⟨n, le_rfl, at_⟩
  | some a =>
    obtain ⟨m, later, other⟩ := gives a at_
    rcases kept_until seq (fun k => keeps k a) later at_ with same | ⟨k, from_, -, gone⟩
    · exact absurd same other
    · exact ⟨k, from_, gone⟩

/-- A value that never rises, and falls again and again, comes to none. -/
theorem falls_to_none {r : α → α → Prop} (wf : WellFounded r)
    (never : ∀ m a b, seq m = some a → seq (m + 1) = some b → b = a ∨ r b a)
    (again : ∀ n, ∃ m, n ≤ m ∧ ∀ a b, seq m = some a → seq (m + 1) = some b → r b a) (n : ℕ) :
    ∃ m, n ≤ m ∧ seq m = none := by
  cases at_ : seq n with
  | none => exact ⟨n, le_rfl, at_⟩
  | some a =>
    induction a using wf.induction generalizing n with
    | _ a ih =>
      by_contra ongoing
      push Not at ongoing
      -- from here on the value is `a`, or one below it has come
      have stays : ∀ m, n ≤ m → seq m = some a := by
        intro m later
        induction m, later using Nat.le_induction with
        | base => exact at_
        | succ m later same =>
          cases after : seq (m + 1) with
          | none => exact absurd after (ongoing (m + 1) (later.trans m.le_succ))
          | some b =>
            rcases never m a b same after with rfl | below
            · rfl
            · obtain ⟨k, from_, gone⟩ := ih b below (m + 1) after
              exact absurd gone (ongoing k ((later.trans m.le_succ).trans from_))
      obtain ⟨m, later, fall⟩ := again n
      have now := stays m later
      have then_ := stays (m + 1) (later.trans m.le_succ)
      obtain ⟨k, from_, gone⟩ := ih a (fall a a now then_) n at_
      exact ongoing k from_ gone

end Blizzard.FallingRanks
