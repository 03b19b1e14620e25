import Mathlib.Algebra.Order.Ring.Rat
import Mathlib.Tactic.Linarith
import Mathlib.Data.List.Basic

/-! # Slots of an explicitly ordered list

A move writes one position, the midpoint between its new neighbours; where the
gap between them is spent, the list is renumbered to whole numbers first. The
arithmetic is exact, and when a gap is spent is a test handed in. -/
namespace Blizzard.FloatSlots

/-- Where a member lands, and the whole-number positions to write to the list's members first. -/
structure Slot where
  position : ℚ
  renumbered : List ℚ := []
  deriving DecidableEq, Repr

/-- Whole-number positions from `start`, one apart. -/
def renumbered (count : ℕ) (start : ℚ) : List ℚ :=
  (List.range count).map fun index : ℕ => start + index

/-- The position right after `positions[after]`; none where the gap to the next one is spent. -/
def slotAfter (spent : ℚ → ℚ → Bool) (positions : List ℚ) (after : Option ℕ) (start : ℚ) :
    Option ℚ :=
  match after with
  | none =>
    match positions with
    | [] => some start
    | first :: _ => some (first - 1)
  | some after =>
    match positions[after]?, positions[after + 1]? with
    | none, _ => none
    | some afterPos, none => some (afterPos + 1)
    | some afterPos, some nextPos =>
      if spent afterPos nextPos then none else some ((afterPos + nextPos) / 2)

/-- The slot right after `positions[after]`; none where even the renumbered list leaves no gap. -/
def landAfter (spent : ℚ → ℚ → Bool) (positions : List ℚ) (after : Option ℕ) (start : ℚ) :
    Option Slot :=
  match slotAfter spent positions after start with
  | some position => some ⟨position, []⟩
  | none =>
    let whole := renumbered positions.length start
    (slotAfter spent whole after start).map fun position => ⟨position, whole⟩

/-- What the gap test is relied on for: a gap it does not call spent is one, and it calls none spent
between whole numbers from `start` on. -/
structure GapTest (spent : ℚ → ℚ → Bool) (start : ℚ) : Prop where
  apart : ∀ a b, spent a b = false → a < b
  whole : ∀ n : ℕ, spent (start + n) (start + (n + 1 : ℕ)) = false

/-- How many of the list's members come before the slot. -/
def place : Option ℕ → ℕ
  | none => 0
  | some after => after + 1

/-- The members' positions once the slot's own are written. -/
def Slot.standing (slot : Slot) (positions : List ℚ) : List ℚ :=
  if slot.renumbered = [] then positions else slot.renumbered

/-- The slot lies between the members before it and those after it, and a renumbering keeps the
members in line. -/
structure Slot.Lands (slot : Slot) (positions : List ℚ) (after : Option ℕ) : Prop where
  renumbered : slot.renumbered = [] ∨
    slot.renumbered.length = positions.length ∧ slot.renumbered.Pairwise (· < ·)
  below : ∀ p ∈ (slot.standing positions).take (place after), p < slot.position
  above : ∀ p ∈ (slot.standing positions).drop (place after), slot.position < p

variable {spent : ℚ → ℚ → Bool} {positions : List ℚ} {after : Option ℕ} {start position : ℚ}

@[simp] theorem renumbered_length (count : ℕ) (start : ℚ) :
    (renumbered count start).length = count := by
  simp [renumbered]

theorem renumbered_getElem? {count i : ℕ} (below : i < count) :
    (renumbered count start)[i]? = some (start + i) := by
  simp [renumbered, List.getElem?_range below]

theorem renumbered_sorted (count : ℕ) (start : ℚ) : (renumbered count start).Pairwise (· < ·) := by
  rw [renumbered, List.pairwise_map]
  refine List.pairwise_lt_range.imp ?_
  intro a b less
  have cast : (a : ℚ) < b := Nat.cast_lt.mpr less
  linarith

theorem sorted_take_le (sorted : positions.Pairwise (· ≤ ·)) {i : ℕ} {p q : ℚ}
    (at_ : positions[i]? = some q) (mem : p ∈ positions.take (i + 1)) : p ≤ q := by
  rw [List.take_add_one, at_, List.mem_append] at mem
  rcases mem with front | last
  · have split := List.take_append_drop i positions
    rw [← split, List.pairwise_append] at sorted
    have here : q ∈ positions.drop i := by
      apply List.mem_of_getElem? (i := 0)
      rw [List.getElem?_drop]
      exact at_
    exact sorted.2.2 p front q here
  · simp only [Option.toList_some, List.mem_singleton] at last
    exact last.le

theorem sorted_drop_ge (sorted : positions.Pairwise (· ≤ ·)) {i : ℕ} {p q : ℚ}
    (at_ : positions[i]? = some q) (mem : p ∈ positions.drop i) : q ≤ p := by
  obtain ⟨below, rfl⟩ := List.getElem?_eq_some_iff.mp at_
  rw [List.drop_eq_getElem_cons below] at mem
  rcases List.mem_cons.mp mem with rfl | back
  · rfl
  · have split := List.take_append_drop i positions
    rw [← split, List.pairwise_append, List.drop_eq_getElem_cons below, List.pairwise_cons] at sorted
    exact sorted.2.1.1 p back

/-- The slot's position lies above the members before it and below those after. -/
theorem slotAfter_between (gap : GapTest spent start) (sorted : positions.Pairwise (· ≤ ·))
    (slot : slotAfter spent positions after start = some position) :
    (∀ p ∈ positions.take (place after), p < position) ∧
    ∀ p ∈ positions.drop (place after), position < p := by
  cases after with
  | none =>
    cases positions with
    | nil => simp [place]
    | cons first rest =>
      simp only [slotAfter, Option.some.injEq] at slot
      subst slot
      refine ⟨by simp [place], ?_⟩
      intro p mem
      have le := sorted_drop_ge sorted (List.getElem?_cons_zero) mem
      linarith
  | some after =>
    simp only [slotAfter] at slot
    split at slot
    · cases slot
    · rename_i afterPos here next
      obtain rfl := Option.some.inj slot
      have end_ := List.getElem?_eq_none_iff.mp next
      refine ⟨?_, by simp [place, List.drop_eq_nil_of_le end_]⟩
      intro p mem
      have le := sorted_take_le sorted here mem
      linarith
    · rename_i afterPos nextPos here next
      split at slot
      · cases slot
      · rename_i open_
        obtain rfl := Option.some.inj slot
        have less := gap.apart _ _ (Bool.eq_false_of_not_eq_true open_)
        constructor
        · intro p mem
          have le := sorted_take_le sorted here mem
          linarith
        · intro p mem
          have le := sorted_drop_ge sorted next mem
          linarith

/-- Whole numbers always leave a gap. -/
theorem slotAfter_renumbered (gap : GapTest spent start) {count : ℕ}
    (within : ∀ i, after = some i → i < count) :
    ∃ position, slotAfter spent (renumbered count start) after start = some position := by
  cases after with
  | none =>
    cases renumbered count start with
    | nil => exact ⟨_, rfl⟩
    | cons first rest => exact ⟨_, rfl⟩
  | some after =>
    rw [slotAfter, renumbered_getElem? (within after rfl)]
    by_cases more : after + 1 < count
    · rw [renumbered_getElem? more]
      simp only [gap.whole after, Bool.false_eq_true, if_false]
      exact ⟨_, rfl⟩
    · rw [List.getElem?_eq_none (by rw [renumbered_length]; omega)]
      exact ⟨_, rfl⟩

/-- A slot is always found, where it was asked for. -/
theorem landAfter_lands (gap : GapTest spent start) (sorted : positions.Pairwise (· ≤ ·))
    (within : ∀ i, after = some i → i < positions.length) :
    ∃ slot, landAfter spent positions after start = some slot ∧ slot.Lands positions after := by
  rw [landAfter]
  cases first : slotAfter spent positions after start with
  | some position =>
    obtain ⟨below, above⟩ := slotAfter_between gap sorted first
    exact ⟨_, rfl, .inl rfl, below, above⟩
  | none =>
    obtain ⟨position, found⟩ := slotAfter_renumbered gap within
    have strict := renumbered_sorted positions.length start
    have some_ : renumbered positions.length start ≠ [] := by
      intro empty
      have none_ : positions = [] := by
        have length := congrArg List.length empty
        rw [renumbered_length] at length
        exact List.length_eq_zero_iff.mp length
      subst none_
      cases after with
      | none => simp [slotAfter] at first
      | some after => exact absurd (within after rfl) (Nat.not_lt_zero _)
    obtain ⟨below, above⟩ := slotAfter_between gap (strict.imp le_of_lt) found
    refine ⟨_, by simp only [found]; rfl, .inr ⟨renumbered_length _ _, strict⟩, ?_, ?_⟩
    · simpa only [Slot.standing, if_neg some_] using below
    · simpa only [Slot.standing, if_neg some_] using above

end Blizzard.FloatSlots
