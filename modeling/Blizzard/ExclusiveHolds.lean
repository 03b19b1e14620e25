import Mathlib.Data.Set.Function
import Mathlib.Tactic.Common

/-! # Exclusive holds

Holders hold units, each unit in a place that may not be known yet. Two holds clash where
different holders hold one unit and nothing tells the two places apart. -/
namespace Blizzard.ExclusiveHolds

structure Hold (Place Thing Holder : Type*) where
  place : Option Place
  unit : Thing
  holder : Holder

variable {Place Thing Holder : Type*}

/-- Nothing tells the two places apart. -/
def MayMeet (a b : Option Place) : Prop := a = none ∨ b = none ∨ a = b

def Clash (a b : Hold Place Thing Holder) : Prop :=
  a.unit = b.unit ∧ a.holder ≠ b.holder ∧ MayMeet a.place b.place

/-- No two of the holds clash. -/
def Exclusive (holds : List (Hold Place Thing Holder)) : Prop :=
  ∀ a ∈ holds, ∀ b ∈ holds, ¬ Clash a b

variable {holds more : List (Hold Place Thing Holder)} {a b : Hold Place Thing Holder}

theorem MayMeet.symm {p q : Option Place} (meet : MayMeet p q) : MayMeet q p := by
  rcases meet with open_ | open_ | same
  · exact .inr (.inl open_)
  · exact .inl open_
  · exact .inr (.inr same.symm)

theorem Clash.symm (clash : Clash a b) : Clash b a :=
  ⟨clash.1.symm, clash.2.1.symm, clash.2.2.symm⟩

/-- The later hold is the earlier one, told its place or not. -/
def Settles (a b : Hold Place Thing Holder) : Prop :=
  b.unit = a.unit ∧ b.holder = a.holder ∧ (a.place = none ∨ b.place = a.place)

theorem Settles.refl (a : Hold Place Thing Holder) : Settles a a := ⟨rfl, rfl, .inr rfl⟩

/-- Places that may meet once told may have met before. -/
theorem MayMeet.before {p q p' q' : Option Place} (meet : MayMeet p' q') (first : p = none ∨ p' = p)
    (second : q = none ∨ q' = q) : MayMeet p q := by
  rcases first with open_ | same
  · exact .inl open_
  rcases second with open_ | same'
  · exact .inr (.inl open_)
  · rwa [← same, ← same']

/-- Giving holds up, and telling unknown places, keeps holds exclusive. -/
theorem Exclusive.settle (exclusive : Exclusive holds)
    (from_ : ∀ b ∈ more, ∃ a ∈ holds, Settles a b) : Exclusive more := by
  intro b mem b' mem' clash
  obtain ⟨a, held, unit, holder, place⟩ := from_ b mem
  obtain ⟨a', held', unit', holder', place'⟩ := from_ b' mem'
  obtain ⟨same, apart, meet⟩ := clash
  refine exclusive a held a' held' ⟨?_, ?_, meet.before place place'⟩
  · rw [← unit, ← unit', same]
  · rwa [← holder, ← holder']

theorem Exclusive.subset (exclusive : Exclusive holds) (sub : ∀ b ∈ more, b ∈ holds) :
    Exclusive more :=
  exclusive.settle fun b mem => ⟨b, sub b mem, .refl b⟩

/-- Two exclusive lists of holds that do not clash with each other. -/
theorem Exclusive.join (exclusive : Exclusive holds) (exclusive' : Exclusive more)
    (apart : ∀ a ∈ holds, ∀ b ∈ more, ¬ Clash a b) : Exclusive (holds ++ more) := by
  intro a mem b mem' clash
  rcases List.mem_append.mp mem with left | right
  · rcases List.mem_append.mp mem' with left' | right'
    · exact exclusive a left b left' clash
    · exact apart a left b right' clash
  · rcases List.mem_append.mp mem' with left' | right'
    · exact apart b left' a right clash.symm
    · exact exclusive' a right b right' clash

theorem exclusive_single (a : Hold Place Thing Holder) : Exclusive [a] := by
  intro b mem b' mem' clash
  rw [List.mem_singleton] at mem mem'
  exact clash.2.1 (by rw [mem, mem'])

/-- A hold that clashes with none of the standing ones is taken. -/
theorem Exclusive.admit (exclusive : Exclusive holds) (apart : ∀ b ∈ holds, ¬ Clash b a) :
    Exclusive (holds ++ [a]) := by
  refine exclusive.join (exclusive_single a) ?_
  intro b mem a' mem'
  rw [List.mem_singleton.mp mem']
  exact apart b mem

/-! ## Places renamed -/

def renamed (name : Place → Place) (a : Hold Place Thing Holder) : Hold Place Thing Holder :=
  { a with place := a.place.map name }

/-- The places the holds name. -/
def places (holds : List (Hold Place Thing Holder)) : Set Place :=
  { p | ∃ a ∈ holds, a.place = some p }

/-- Names that keep the named places apart keep the holds exclusive. -/
theorem Exclusive.rename (exclusive : Exclusive holds) {name : Place → Place}
    (apart : Set.InjOn name (places holds)) : Exclusive (holds.map (renamed name)) := by
  intro b mem b' mem' clash
  obtain ⟨a, held, rfl⟩ := List.mem_map.mp mem
  obtain ⟨a', held', rfl⟩ := List.mem_map.mp mem'
  obtain ⟨same, differ, meet⟩ := clash
  refine exclusive a held a' held' ⟨same, differ, ?_⟩
  rcases meet with open_ | open_ | together
  · exact .inl (Option.map_eq_none_iff.mp open_)
  · exact .inr (.inl (Option.map_eq_none_iff.mp open_))
  · cases first : a.place with
    | none => exact .inl rfl
    | some p =>
      cases second : a'.place with
      | none => exact .inr (.inl rfl)
      | some q =>
        have named : name p = name q := by
          simpa [renamed, first, second] using together
        rw [apart ⟨a, held, first⟩ ⟨a', held', second⟩ named]
        exact .inr (.inr rfl)

end Blizzard.ExclusiveHolds
