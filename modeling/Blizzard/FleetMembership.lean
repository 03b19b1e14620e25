import Mathlib.Data.List.Chain
import Mathlib.Logic.Function.Basic
import Mathlib.Logic.Relation

/-! # Members and the groups they stand under

What the fleet's registry is for, apart from its tables: members may stand under
a group, and are retired and reinstated in turns; a group is closed once, and
from then on no live member comes to stand under it and none is let go. -/
namespace Blizzard.FleetMembership

variable {R H : Type*}

/-- Where each member stands, its lifecycle so far (`true` where it was retired), and each group's. -/
structure Groups (R H : Type*) where
  under : R → Option H
  history : R → List Bool
  closings : H → List Bool

namespace Groups

def Retired (members : Groups R H) (r : R) : Prop := (members.history r).getLast? = some true

def Closed (members : Groups R H) (h : H) : Prop := members.closings h ≠ []

variable [DecidableEq R] [DecidableEq H]

inductive Step (members : Groups R H) : Groups R H → Prop
  | place (r : R) (h : H) (live : ¬ members.Retired r) (open_ : ¬ members.Closed h) :
    Step members { members with under := Function.update members.under r (some h) }
  | letGo (r : R) (ended : ∀ h, members.under r = some h → members.Closed h → members.Retired r) :
    Step members { members with under := Function.update members.under r none }
  | retire (r : R) (live : ¬ members.Retired r) :
    Step members { members with history := Function.update members.history r (members.history r ++ [true]) }
  | reinstate (r : R) (retired : members.Retired r)
      (clear : ∀ h, members.under r = some h → ¬ members.Closed h) :
    Step members { members with history := Function.update members.history r (members.history r ++ [false]) }
  | close (h : H) (open_ : ¬ members.Closed h) :
    Step members { members with closings := Function.update members.closings h [true] }

/-- Any number of steps. -/
abbrev Steps (members later : Groups R H) : Prop := Relation.ReflTransGen Step members later

variable {members later : Groups R H} {r : R} {h : H}

/-- A lifecycle begins with a retirement, and retirements and reinstatements take turns. -/
def InTurns (history : List Bool) : Prop :=
  history.IsChain (· ≠ ·) ∧ ∀ first ∈ history.head?, first = true

theorem inTurns_append {history : List Bool} (turns : InTurns history) {next : Bool}
    (changes : ∀ last ∈ history.getLast?, last ≠ next) (first : history = [] → next = true) :
    InTurns (history ++ [next]) := by
  obtain ⟨chain, starts⟩ := turns
  refine ⟨chain.append (List.isChain_singleton _) fun last mem other own => ?_, fun head mem => ?_⟩
  · obtain rfl : next = other := by simpa using own
    exact changes last mem
  · cases history with
    | nil =>
      obtain rfl : next = head := by simpa using mem
      exact first rfl
    | cons a rest => exact starts head mem

/-- What every reachable membership keeps. -/
structure Kept (members : Groups R H) : Prop where
  turns : ∀ r, InTurns (members.history r)
  closings : ∀ h, members.closings h = [] ∨ members.closings h = [true]

theorem kept_step (step : Step members later) (kept : Kept members) : Kept later := by
  cases step with
  | place r h live open_ => exact ⟨kept.turns, kept.closings⟩
  | letGo r ended => exact ⟨kept.turns, kept.closings⟩
  | retire r live =>
    refine ⟨fun other => ?_, kept.closings⟩
    by_cases same : other = r
    · subst same
      simp only [Function.update_self]
      refine inTurns_append (kept.turns other) (fun last mem => ?_) fun _ => rfl
      rintro rfl
      exact live mem
    · simp only [Function.update_of_ne same]
      exact kept.turns other
  | reinstate r retired clear =>
    refine ⟨fun other => ?_, kept.closings⟩
    by_cases same : other = r
    · subst same
      have last : (members.history other).getLast? = some true := retired
      simp only [Function.update_self]
      refine inTurns_append (kept.turns other) (fun l mem => ?_) fun empty => ?_
      · obtain rfl : true = l := Option.some.inj (last.symm.trans mem)
        simp
      · rw [empty] at last
        cases last
    · simp only [Function.update_of_ne same]
      exact kept.turns other
  | close h open_ =>
    refine ⟨kept.turns, fun other => ?_⟩
    by_cases same : other = h
    · subst same
      exact .inr (by simp)
    · simp only [Function.update_of_ne same]
      exact kept.closings other

theorem kept_steps (steps : Steps members later) (kept : Kept members) : Kept later := by
  induction steps with
  | refl => exact kept
  | tail _ step ih => exact kept_step step ih

theorem history_step (step : Step members later) (r : R) :
    later.history r = members.history r ∨
      (¬ members.Retired r ∧ later.history r = members.history r ++ [true]) ∨
      (members.Retired r ∧ (∀ h, members.under r = some h → ¬ members.Closed h) ∧
        later.history r = members.history r ++ [false] ∧ later.under r = members.under r) := by
  cases step with
  | place r' h live open_ => exact .inl rfl
  | letGo r' ended => exact .inl rfl
  | retire r' live =>
    by_cases same : r = r'
    · subst same
      exact .inr (.inl ⟨live, by simp⟩)
    · exact .inl (by simp only [Function.update_of_ne same])
  | reinstate r' retired clear =>
    by_cases same : r = r'
    · subst same
      exact .inr (.inr ⟨retired, clear, by simp, rfl⟩)
    · exact .inl (by simp only [Function.update_of_ne same])
  | close h open_ => exact .inl rfl

theorem history_prefix (steps : Steps members later) (r : R) :
    members.history r <+: later.history r := by
  induction steps with
  | refl => exact List.prefix_rfl
  | tail _ step ih =>
    rcases history_step step r with same | ⟨_, grown⟩ | ⟨_, _, grown, _⟩
    · exact same ▸ ih
    · exact grown ▸ ih.trans (List.prefix_append _ _)
    · exact grown ▸ ih.trans (List.prefix_append _ _)

theorem closed_step (step : Step members later) (closed : members.Closed h) : later.Closed h := by
  cases step with
  | close h' open_ =>
    by_cases same : h = h'
    · subst same
      exact absurd closed open_
    · simp only [Closed, Function.update_of_ne same]
      exact closed
  | _ => exact closed

theorem closed_steps (steps : Steps members later) (closed : members.Closed h) : later.Closed h := by
  induction steps with
  | refl => exact closed
  | tail _ step ih => exact closed_step step ih

/-- A live member under a closed group stood there live already. -/
theorem live_under_step (step : Step members later) (closed : members.Closed h)
    (under : later.under r = some h) (live : ¬ later.Retired r) :
    members.under r = some h ∧ ¬ members.Retired r := by
  cases step with
  | place r' h' live' open_ =>
    by_cases same : r = r'
    · subst same
      simp only [Function.update_self, Option.some.injEq] at under
      exact absurd (under ▸ closed) open_
    · simp only [Function.update_of_ne same] at under
      exact ⟨under, live⟩
  | letGo r' ended =>
    by_cases same : r = r'
    · subst same
      simp at under
    · simp only [Function.update_of_ne same] at under
      exact ⟨under, live⟩
  | retire r' live' =>
    refine ⟨under, fun retired => live ?_⟩
    by_cases same : r = r'
    · simp [Retired, same]
    · simpa only [Retired, Function.update_of_ne same] using retired
  | reinstate r' retired clear =>
    by_cases same : r = r'
    · subst same
      exact absurd closed (clear h under)
    · exact ⟨under, by simpa only [Retired, Function.update_of_ne same] using live⟩
  | close h' open_ => exact ⟨under, live⟩

theorem live_under_steps (steps : Steps members later) (closed : members.Closed h)
    (under : later.under r = some h) (live : ¬ later.Retired r) :
    members.under r = some h ∧ ¬ members.Retired r := by
  induction steps with
  | refl => exact ⟨under, live⟩
  | tail before step ih =>
    obtain ⟨under', live'⟩ := live_under_step step (closed_steps before closed) under live
    exact ih under' live'

/-- Nobody comes to stand under a closed group, and a retired member under one stays as it is. -/
theorem under_step (step : Step members later) (closed : members.Closed h)
    (under : later.under r = some h) :
    members.under r = some h ∧ (members.Retired r → later.history r = members.history r) := by
  cases step with
  | place r' h' live open_ =>
    by_cases same : r = r'
    · subst same
      simp only [Function.update_self, Option.some.injEq] at under
      exact absurd (under ▸ closed) open_
    · simp only [Function.update_of_ne same] at under
      exact ⟨under, fun _ => rfl⟩
  | letGo r' ended =>
    by_cases same : r = r'
    · subst same
      simp at under
    · simp only [Function.update_of_ne same] at under
      exact ⟨under, fun _ => rfl⟩
  | retire r' live =>
    refine ⟨under, fun retired => ?_⟩
    by_cases same : r = r'
    · exact absurd retired (same ▸ live)
    · simp only [Function.update_of_ne same]
  | reinstate r' retired clear =>
    by_cases same : r = r'
    · subst same
      exact absurd closed (clear h under)
    · exact ⟨under, fun _ => by simp only [Function.update_of_ne same]⟩
  | close h' open_ => exact ⟨under, fun _ => rfl⟩

theorem under_steps (steps : Steps members later) (closed : members.Closed h)
    (under : later.under r = some h) :
    members.under r = some h ∧ (members.Retired r → later.history r = members.history r) := by
  induction steps with
  | refl => exact ⟨under, fun _ => rfl⟩
  | tail before step ih =>
    obtain ⟨under', still⟩ := under_step step (closed_steps before closed) under
    obtain ⟨under'', still'⟩ := ih under'
    refine ⟨under'', fun retired => ?_⟩
    have same := still' retired
    rw [← same]
    exact still (by rw [Retired, same]; exact retired)

/-- A retired member whose lifecycle has not moved stands where it stood, or alone. -/
theorem retired_under_steps (steps : Steps members later) (retired : members.Retired r)
    (unmoved : later.history r = members.history r) :
    later.under r = members.under r ∨ later.under r = none := by
  induction steps with
  | refl => exact .inl rfl
  | @tail middle last before step ih =>
    have still : middle.history r = members.history r := by
      have reach := history_prefix before r
      have reach' : middle.history r <+: last.history r :=
        history_prefix (Relation.ReflTransGen.single step) r
      rw [unmoved] at reach'
      exact (reach.eq_of_length (le_antisymm reach.length_le reach'.length_le)).symm
    have retired' : middle.Retired r := by
      rw [Retired, still]
      exact retired
    have before' := ih still
    cases step with
    | place r' h live open_ =>
      by_cases same : r = r'
      · subst same
        exact absurd retired' live
      · simp only [Function.update_of_ne same]
        exact before'
    | letGo r' ended =>
      by_cases same : r = r'
      · exact .inr (by simp [same])
      · simp only [Function.update_of_ne same]
        exact before'
    | retire r' live => exact before'
    | reinstate r' retired clear => exact before'
    | close h open_ => exact before'

end Groups

end Blizzard.FleetMembership
