import Mathlib.Data.List.Forall2

/-! # Computations that may fail

What a computation that answered says of its steps. -/
namespace Blizzard.ExceptRules

variable {ε α β : Type}

theorem bind_ok {x : Except ε α} {f : α → Except ε β} {b : β} (h : (x >>= f) = .ok b) :
    ∃ a, x = .ok a ∧ f a = .ok b := by
  cases x with
  | error e => cases h
  | ok a => exact ⟨a, rfl, h⟩

theorem map_ok {x : Except ε α} {f : α → β} {b : β} (h : x.map f = .ok b) :
    ∃ a, x = .ok a ∧ f a = b := by
  cases x with
  | error e => cases h
  | ok a => exact ⟨a, rfl, Except.ok.inj h⟩

theorem forM_ok {xs : List α} {f : α → Except ε Unit} (h : xs.forM f = .ok ()) :
    ∀ x ∈ xs, f x = .ok () := by
  induction xs with
  | nil => simp
  | cons x xs ih =>
    obtain ⟨_, hx, hxs⟩ := bind_ok h
    intro y hy
    rcases List.mem_cons.mp hy with rfl | hy
    · exact hx
    · exact ih hxs y hy

theorem mapM_ok {f : α → Except ε β} {xs : List α} {ys : List β} (h : xs.mapM f = .ok ys) :
    List.Forall₂ (fun x y => f x = .ok y) xs ys := by
  induction xs generalizing ys with
  | nil =>
    cases h
    exact .nil
  | cons x xs ih =>
    rw [List.mapM_cons] at h
    obtain ⟨y, hx, h⟩ := bind_ok h
    obtain ⟨rest, hxs, h⟩ := bind_ok h
    cases h
    exact .cons hx (ih hxs)

theorem mapM_mem {f : α → Except ε β} {xs : List α} {ys : List β} (h : xs.mapM f = .ok ys) :
    ∀ x ∈ xs, ∃ y ∈ ys, f x = .ok y := by
  have related := mapM_ok h
  clear h
  induction related with
  | nil => exact fun _ inside => nomatch inside
  | cons first _ ih =>
    intro x inside
    rcases List.mem_cons.mp inside with rfl | inside
    · exact ⟨_, List.mem_cons_self, first⟩
    · obtain ⟨y, listed, answer⟩ := ih x inside
      exact ⟨y, List.mem_cons_of_mem _ listed, answer⟩

theorem mapM_from {f : α → Except ε β} {xs : List α} {ys : List β} (h : xs.mapM f = .ok ys) :
    ∀ y ∈ ys, ∃ x ∈ xs, f x = .ok y := by
  have related := mapM_ok h
  clear h
  induction related with
  | nil => exact fun _ inside => nomatch inside
  | cons first _ ih =>
    intro y inside
    rcases List.mem_cons.mp inside with rfl | inside
    · exact ⟨_, List.mem_cons_self, first⟩
    · obtain ⟨x, listed, answer⟩ := ih y inside
      exact ⟨x, List.mem_cons_of_mem _ listed, answer⟩

end Blizzard.ExceptRules
