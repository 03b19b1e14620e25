import Mathlib.Data.List.Basic
import Mathlib.Data.Int.Order.Basic
import Mathlib.Order.Defs.PartialOrder

/-! # Ranges that follow one another

Items that each cover a nonempty range of the integers, each range starting
where the one before it ended. -/
namespace Blizzard.ConsecutiveRanges

variable {R : Type*} {first last : R → ℤ} {from_ to_ next : ℤ} {item other : R} {items more : List R}

/-- The ranges of the items follow one another from `from_` up to, but not with, `to_`. -/
inductive Consecutive (first last : R → ℤ) : ℤ → ℤ → List R → Prop
  | nil (at_ : ℤ) : Consecutive first last at_ at_ []
  | cons {from_ next to_ : ℤ} {item : R} {items : List R} (starts : first item = from_)
      (ends : last item = next - 1) (some_ : from_ < next)
      (rest : Consecutive first last next to_ items) :
      Consecutive first last from_ to_ (item :: items)

namespace Consecutive

theorem le (chain : Consecutive first last from_ to_ items) : from_ ≤ to_ := by
  induction chain with
  | nil at_ => exact le_refl at_
  | cons _ _ some_ _ ih => exact le_trans (le_of_lt some_) ih

theorem append (chain : Consecutive first last from_ next items)
    (rest : Consecutive first last next to_ more) :
    Consecutive first last from_ to_ (items ++ more) := by
  induction chain with
  | nil => exact rest
  | cons starts ends some_ _ ih => exact .cons starts ends some_ (ih rest)

/-- What comes first of a chain is a chain, and so is what is left. -/
theorem split (chain : Consecutive first last from_ to_ (items ++ more)) :
    ∃ next, Consecutive first last from_ next items ∧ Consecutive first last next to_ more := by
  induction items generalizing from_ with
  | nil => exact ⟨from_, .nil _, chain⟩
  | cons item items ih =>
    cases chain with
    | cons starts ends some_ rest =>
      obtain ⟨next, before, after⟩ := ih rest
      exact ⟨next, .cons starts ends some_ before, after⟩

/-- Each range lies within the whole, and covers something. -/
theorem within (chain : Consecutive first last from_ to_ items) (mem : item ∈ items) :
    from_ ≤ first item ∧ first item ≤ last item ∧ last item < to_ := by
  induction chain with
  | nil => cases mem
  | @cons from_ next to_ own items starts ends some_ rest ih =>
    rcases List.mem_cons.mp mem with rfl | mem
    · have upto := rest.le
      omega
    · have later := ih mem
      omega

/-- Each range ends before the later ones start. -/
theorem apart (chain : Consecutive first last from_ to_ items) :
    items.Pairwise fun item other => last item < first other := by
  induction chain with
  | nil => exact .nil
  | @cons from_ next to_ own items starts ends some_ rest ih =>
    refine .cons (fun other mem => ?_) ih
    have later := (rest.within mem).1
    omega

/-- No two items start at one point. -/
theorem eq_of_first (chain : Consecutive first last from_ to_ items) (mem : item ∈ items)
    (mem' : other ∈ items) (same : first item = first other) : item = other := by
  induction chain with
  | nil => cases mem
  | @cons from_ next to_ own items starts ends some_ rest ih =>
    rcases List.mem_cons.mp mem with here | after <;> rcases List.mem_cons.mp mem' with here' | after'
    · exact here.trans here'.symm
    · have later := (rest.within after').1
      subst here
      omega
    · have later := (rest.within after).1
      subst here'
      omega
    · exact ih after after'

/-- Every point of the whole is in some item's range. -/
theorem covers (chain : Consecutive first last from_ to_ items) {point : ℤ} (low : from_ ≤ point)
    (high : point < to_) : ∃ item ∈ items, first item ≤ point ∧ point ≤ last item := by
  induction chain with
  | nil => omega
  | @cons from_ next to_ own items starts ends some_ rest ih =>
    by_cases here : point < next
    · exact ⟨own, List.mem_cons_self, by omega, by omega⟩
    · obtain ⟨item, mem, covers⟩ := ih (by omega) high
      exact ⟨item, List.mem_cons_of_mem _ mem, covers⟩

end Consecutive

end Blizzard.ConsecutiveRanges
