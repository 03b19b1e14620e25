import Mathlib.Logic.Relation

/-! # Runs of a labelled transition system

A run is the finite sequence of labels between two states. Invariants and
monotone measures are proved for one step and carried over whole runs here;
nothing in this file knows which system takes the steps. -/
namespace Blizzard.TransitionRuns

variable {S : Type*} {L : Type*} {step : S → L → S → Prop}

/-- `Runs step s labels t`: the system moves from `s` to `t` taking `labels` in order. -/
inductive Runs (step : S → L → S → Prop) : S → List L → S → Prop
  | nil (s : S) : Runs step s [] s
  | cons {s t u : S} {l : L} {ls : List L} (first : step s l t) (rest : Runs step t ls u) :
      Runs step s (l :: ls) u

theorem Runs.single {s t : S} {l : L} (h : step s l t) : Runs step s [l] t :=
  .cons h (.nil t)

theorem Runs.trans {s t u : S} {xs ys : List L} (hst : Runs step s xs t)
    (htu : Runs step t ys u) : Runs step s (xs ++ ys) u := by
  induction hst with
  | nil => simpa using htu
  | cons first _ ih => exact .cons first (ih htu)

/-- A run over an appended word passes through the state between the two parts. -/
theorem Runs.split {s u : S} {xs ys : List L} (h : Runs step s (xs ++ ys) u) :
    ∃ t, Runs step s xs t ∧ Runs step t ys u := by
  induction xs generalizing s with
  | nil => exact ⟨s, .nil s, h⟩
  | cons x xs ih =>
    cases h with
    | cons first rest =>
      obtain ⟨t, hst, htu⟩ := ih rest
      exact ⟨t, .cons first hst, htu⟩

/-- The invariant rule: what every step preserves holds at the end of every run. -/
theorem Runs.invariant {P : S → Prop} (preserved : ∀ s l t, step s l t → P s → P t)
    {s t : S} {ls : List L} (run : Runs step s ls t) (hs : P s) : P t := by
  induction run with
  | nil => exact hs
  | cons first _ ih => exact ih (preserved _ _ _ first hs)

/-- The invariant rule for runs whose labels all satisfy `Q`, beside a standing invariant `I`. -/
theorem Runs.invariant_on {I P : S → Prop} {Q : L → Prop}
    (standing : ∀ s l t, step s l t → I s → I t)
    (preserved : ∀ s l t, step s l t → Q l → I s → P s → P t)
    {s t : S} {ls : List L} (run : Runs step s ls t) (labels : ∀ l ∈ ls, Q l)
    (hi : I s) (hs : P s) : P t := by
  induction run with
  | nil => exact hs
  | cons first _ ih =>
    exact ih (fun l hl => labels l (List.mem_cons_of_mem _ hl)) (standing _ _ _ first hi)
      (preserved _ _ _ first (labels _ List.mem_cons_self) hi hs)

/-- A reflexive and transitive relation that every step respects relates the ends of a run. -/
theorem Runs.relates {I : S → Prop} {R : S → S → Prop} (refl : ∀ s, R s s)
    (trans : ∀ {s t u}, R s t → R t u → R s u)
    (standing : ∀ s l t, step s l t → I s → I t)
    (related : ∀ s l t, step s l t → I s → R s t)
    {s t : S} {ls : List L} (run : Runs step s ls t) (hi : I s) : R s t := by
  induction run with
  | nil s => exact refl s
  | cons first _ ih =>
    exact trans (related _ _ _ first hi) (ih (standing _ _ _ first hi))

/-- Where a property of the start is gone at the end, some step of the run loses it first. -/
theorem Runs.first_loss {P : S → Prop} {s t : S} {ls : List L} (run : Runs step s ls t)
    (hs : P s) (ht : ¬ P t) :
    ∃ before l after u v, ls = before ++ l :: after ∧ Runs step s before u ∧ P u ∧ step u l v ∧
      ¬ P v ∧ Runs step v after t := by
  induction run with
  | nil => exact absurd hs ht
  | @cons s m t l ls first rest ih =>
    by_cases hm : P m
    · obtain ⟨before, l', after, u, v, rfl, start, hu, lost, hv, tail⟩ := ih hm ht
      exact ⟨l :: before, l', after, u, v, rfl, .cons first start, hu, lost, hv, tail⟩
    · exact ⟨[], l, ls, s, m, rfl, .nil s, hs, first, hm, rest⟩

/-! ## Runs of a step function

A total step function has one run for each list of labels. A condition on the
steps taken and a property of the states reached are compared along it. -/

section Function
variable {next : S → L → S} {I P : S → Prop} {Q : S → L → Prop}

/-- `P` holds in every state of the run, its first and its last included. -/
def Throughout (P : S → Prop) (next : S → L → S) : S → List L → Prop
  | s, [] => P s
  | s, l :: ls => P s ∧ Throughout P next (next s l) ls

/-- Every step of the run is taken from a state where its label meets `Q`. -/
def Meeting (Q : S → L → Prop) (next : S → L → S) : S → List L → Prop
  | _, [] => True
  | s, l :: ls => Q s l ∧ Meeting Q next (next s l) ls

instance decidableMeeting [∀ s l, Decidable (Q s l)] :
    (s : S) → (ls : List L) → Decidable (Meeting Q next s ls)
  | _, [] => isTrue trivial
  | s, l :: ls =>
    have := decidableMeeting (next s l) ls
    inferInstanceAs (Decidable (_ ∧ _))

theorem Throughout.head {s : S} {ls : List L} (h : Throughout P next s ls) : P s := by
  cases ls with
  | nil => exact h
  | cons l ls => exact h.1

theorem Throughout.of_all (holds : ∀ s, P s) (s : S) (ls : List L) : Throughout P next s ls := by
  induction ls generalizing s with
  | nil => exact holds s
  | cons l ls ih => exact ⟨holds s, ih (next s l)⟩

/-- What holds throughout a run holds of the state it ends in. -/
theorem Throughout.last {s : S} {ls : List L} (h : Throughout P next s ls) :
    P (ls.foldl next s) := by
  induction ls generalizing s with
  | nil => exact h
  | cons l ls ih => exact ih h.2

/-- What a step that meets `Q` preserves holds along every run whose steps all meet it. -/
theorem Meeting.throughout (holds : ∀ s, I s → P s)
    (kept : ∀ s l, I s → Q s l → I (next s l)) {s : S} {ls : List L} (start : I s)
    (meets : Meeting Q next s ls) : Throughout P next s ls := by
  induction ls generalizing s with
  | nil => exact holds s start
  | cons l ls ih =>
    obtain ⟨first, rest⟩ := meets
    exact ⟨holds s start, ih (kept s l start first) rest⟩

/-- What holds of a step that meets `Q` from an invariant state holds of every step of the run. -/
theorem Meeting.imp {R : S → L → Prop} (holds : ∀ s l, I s → Q s l → R s l)
    (kept : ∀ s l, I s → Q s l → I (next s l)) {s : S} {ls : List L} (start : I s)
    (meets : Meeting Q next s ls) : Meeting R next s ls := by
  induction ls generalizing s with
  | nil => trivial
  | cons l ls ih =>
    obtain ⟨first, rest⟩ := meets
    exact ⟨holds s l start first, ih (kept s l start first) rest⟩

/-- Where a state after a step that misses `Q` is not `P`, a run that is `P` throughout meets `Q`. -/
theorem Throughout.meeting (needs : ∀ s l, I s → P (next s l) → Q s l)
    (kept : ∀ s l, I s → Q s l → I (next s l)) {s : S} {ls : List L} (start : I s)
    (lawful : Throughout P next s ls) : Meeting Q next s ls := by
  induction ls generalizing s with
  | nil => trivial
  | cons l ls ih =>
    have first : Q s l := needs s l start lawful.2.head
    exact ⟨first, ih (kept s l start first) lawful.2⟩

end Function

end Blizzard.TransitionRuns
