import Blizzard.EnvironmentHosts
import Blizzard.FallingRanks
import Mathlib.Data.Prod.Lex

/-! # Claims end and locks come free

Each step of a claim takes it to a later phase or leaves less of the one it is in, so a claim that
is stepped again and again ends, whatever it is told, and its pool's lock comes free. -/
namespace Blizzard.EnvironmentProgress
open HubTables FactSequence EnvironmentProviders EnvironmentHosts FallingRanks

/-- How much of a claim is to come: its phase, and what is left of it. -/
def rank : Phase → ℕ ×ₗ ℕ
  | .locked => toLex (9, 0)
  | .read _ => toLex (8, 0)
  | .preparing _ todo => toLex (7, todo.length)
  | .acquired _ => toLex (6, 0)
  | .binding _ _ rest => toLex (5, rest.length)
  | .refused _ => toLex (5, 0)
  | .claiming _ => toLex (4, 0)
  | .retracting _ _ => toLex (3, 0)
  | .returning _ _ _ rest => toLex (2, 2 * rest.length)
  | .handing _ _ _ _ rest => toLex (2, 2 * rest.length + 1)
  | .cleaning todo => toLex (1, todo.length)

/-- What one step of a claim leaves of it, its pool and its lock. -/
structure Advanced (host host' : Host) (runnerId : RunnerId) (pass : Pass) (next : Option Pass) :
    Prop where
  passes : host'.passes = Function.update host.passes runnerId next
  place : ∀ pass', next = some pass' → pass'.workspaceId = pass.workspaceId
  falls : ∀ pass', next = some pass' → rank pass'.phase < rank pass.phase
  locks : host'.locks =
    if pass.phase.locks && !(next.any fun pass' => pass'.phase.locks) then
      Function.update host.locks pass.workspaceId none
    else host.locks

variable {host host' : Host} {runnerId : RunnerId} {pass : Pass} {input : Input}

theorem advanced_on {old phase : Phase} (at_ : pass.phase = old)
    (passes : host'.passes = Function.update host.passes runnerId (some { pass with phase }))
    (locks : host'.locks = host.locks) (lock : phase.locks = old.locks)
    (falls : rank phase < rank old) :
    ∃ next, Advanced host host' runnerId pass next := by
  refine ⟨_, passes, ?_, ?_, ?_⟩
  · rintro pass' ⟨⟩
    rfl
  · rintro pass' ⟨⟩
    rw [at_]
    exact falls
  · rw [locks, at_]
    simp [lock]

theorem advanced_leave (passes : host'.passes = Function.update host.passes runnerId none)
    (locks : host'.locks = if pass.phase.locks then Function.update host.locks pass.workspaceId none
      else host.locks) : ∃ next, Advanced host host' runnerId pass next := by
  refine ⟨none, passes, ?_, ?_, ?_⟩
  · rintro pass' ⟨⟩
  · rintro pass' ⟨⟩
  · rw [locks]
    simp

/-- Every step of a claim takes it on, or ends it. -/
theorem advance_advanced :
    ∃ next, Advanced host (host.advance runnerId pass input) runnerId pass next := by
  cases phase : pass.phase with
  | locked =>
    rw [Host.advance]
    simp only [phase]
    exact advanced_on phase rfl rfl rfl (by simp [rank, Prod.Lex.toLex_lt_toLex])
  | read heldIds =>
    rw [Host.advance]
    simp only [phase]
    split
    · exact advanced_leave rfl rfl
    · split
      · exact advanced_leave rfl rfl
      · split
        · exact advanced_on phase rfl rfl rfl (by simp [rank, Prod.Lex.toLex_lt_toLex])
        · exact advanced_leave rfl rfl
  | preparing acts todo =>
    cases todo with
    | nil =>
      rw [Host.advance]
      simp only [phase]
      split
      · exact advanced_leave rfl rfl
      · exact advanced_on phase rfl rfl rfl (by simp [rank, Prod.Lex.toLex_lt_toLex])
    | cons act todo =>
      rw [Host.advance]
      simp only [phase]
      split
      · exact advanced_leave rfl rfl
      · split
        · exact advanced_on phase rfl rfl rfl (by simp [rank, Prod.Lex.toLex_lt_toLex])
        · exact advanced_leave rfl rfl
        · exact advanced_on phase rfl rfl rfl (by simp [rank, Prod.Lex.toLex_lt_toLex])
  | cleaning todo =>
    cases todo with
    | nil =>
      rw [Host.advance]
      simp only [phase]
      exact advanced_leave rfl rfl
    | cons name todo =>
      rw [Host.advance]
      simp only [phase]
      split
      · exact advanced_on phase rfl rfl rfl (by simp [rank, Prod.Lex.toLex_lt_toLex])
      · exact advanced_on phase rfl rfl rfl (by simp [rank, Prod.Lex.toLex_lt_toLex])
  | acquired envs =>
    rw [Host.advance]
    simp only [phase]
    split
    · exact advanced_on phase rfl rfl rfl (by simp [rank, Prod.Lex.toLex_lt_toLex])
    · exact advanced_on phase rfl rfl rfl (by simp [rank, Prod.Lex.toLex_lt_toLex])
  | binding now envs rest =>
    cases rest with
    | nil =>
      rw [Host.advance]
      simp only [phase]
      refine ⟨some { pass with phase := .claiming envs }, rfl, ?_, ?_, ?_⟩
      · rintro pass' ⟨⟩
        rfl
      · rintro pass' ⟨⟩
        simp [phase, rank, Prod.Lex.toLex_lt_toLex]
      · rw [phase]
        rfl
    | cons env rest =>
      rw [Host.advance]
      simp only [phase]
      exact advanced_on phase rfl rfl rfl (by simp [rank, Prod.Lex.toLex_lt_toLex])
  | refused envs =>
    rw [Host.advance]
    simp only [phase]
    exact advanced_on phase rfl rfl rfl (by simp [rank, Prod.Lex.toLex_lt_toLex])
  | claiming envs =>
    rw [Host.advance]
    simp only [phase]
    split
    · exact advanced_leave rfl rfl
    · split
      · exact advanced_on phase rfl rfl rfl (by simp [rank, Prod.Lex.toLex_lt_toLex])
      · exact advanced_leave rfl rfl
  | retracting inside envs =>
    rw [Host.advance]
    simp only [phase]
    exact advanced_on phase rfl rfl rfl (by simp [rank, Prod.Lex.toLex_lt_toLex])
  | returning inside envs released rest =>
    cases rest with
    | nil =>
      rw [Host.advance]
      simp only [phase]
      exact advanced_leave rfl rfl
    | cons env rest =>
      rw [Host.advance]
      simp only [phase]
      exact advanced_on phase rfl rfl rfl (by simp [rank, Prod.Lex.toLex_lt_toLex]; omega)
  | handing inside envs released env rest =>
    rw [Host.advance]
    simp only [phase]
    exact advanced_on phase rfl rfl rfl (by simp [rank, Prod.Lex.toLex_lt_toLex])

/-! ## Locks held -/

/-- Every lock taken is that of a claim under way. -/
def Held (host : Host) : Prop :=
  ∀ workspaceId runnerId, host.locks workspaceId = some runnerId →
    ∃ pass, host.passes runnerId = some pass ∧ pass.phase.locks = true ∧
      pass.workspaceId = workspaceId

theorem Held.same (held : Held host) (passes : host'.passes = host.passes)
    (locks : host'.locks = host.locks) : Held host' := by
  rw [Held, passes, locks]
  exact held

theorem Held.advanced (held : Held host) {next : Option Pass}
    (at_ : host.passes runnerId = some pass) (advanced : Advanced host host' runnerId pass next) :
    Held host' := by
  intro workspaceId other taken
  have stood : host.locks workspaceId = some other ∧
      (other = runnerId → ∃ pass', next = some pass' ∧ pass'.phase.locks = true) := by
    rw [advanced.locks] at taken
    split at taken
    · rename_i given
      by_cases here : workspaceId = pass.workspaceId
      · subst here
        rw [Function.update_self] at taken
        cases taken
      · rw [Function.update_of_ne here] at taken
        refine ⟨taken, ?_⟩
        rintro rfl
        obtain ⟨own, at_', -, place⟩ := held workspaceId other taken
        rw [at_, Option.some.injEq] at at_'
        exact absurd (at_' ▸ place).symm here
    · rename_i kept
      refine ⟨taken, ?_⟩
      rintro rfl
      obtain ⟨own, at_', locks, -⟩ := held workspaceId other taken
      rw [at_, Option.some.injEq] at at_'
      subst at_'
      cases next with
      | none => simp [locks] at kept
      | some pass' => exact ⟨pass', rfl, by simpa [locks] using kept⟩
  obtain ⟨taken, own⟩ := stood
  obtain ⟨stands, at_', locks, place⟩ := held workspaceId other taken
  rw [advanced.passes]
  by_cases same : other = runnerId
  · subst same
    obtain ⟨pass', is_, locks'⟩ := own rfl
    rw [at_, Option.some.injEq] at at_'
    rw [Function.update_self]
    exact ⟨pass', is_, locks', (advanced.place pass' is_).trans (at_' ▸ place)⟩
  · rw [Function.update_of_ne same]
    exact ⟨stands, at_', locks, place⟩

/-- What an event does to the claims and the locks. -/
inductive Moves (host host' : Host) : HostEvent → Prop
  | still {event : HostEvent} (own : ∀ runnerId input, event = .advance runnerId input →
        host.passes runnerId = none)
      (passes : host'.passes = host.passes) (locks : host'.locks = host.locks) :
      Moves host host' event
  | enters {event : HostEvent} {runnerId : RunnerId} {entry : QueueEntry} {workspaceId : String}
      (is_ : event = .tryLock runnerId entry workspaceId) (idle : host.passes runnerId = none)
      (free : host.locks workspaceId = none)
      (passes : host'.passes =
        Function.update host.passes runnerId (some ⟨entry, workspaceId, .locked⟩))
      (locks : host'.locks = Function.update host.locks workspaceId (some runnerId)) :
      Moves host host' event
  | goes {event : HostEvent} {runnerId : RunnerId} {pass : Pass} {next : Option Pass}
      (own : ∀ other input, event = .advance other input → other = runnerId)
      (at_ : host.passes runnerId = some pass) (advanced : Advanced host host' runnerId pass next) :
      Moves host host' event
  | stops {event : HostEvent} (own : ∀ runnerId input, event ≠ .advance runnerId input)
      (passes : host'.passes = fun _ => none) (locks : host'.locks = fun _ => none) :
      Moves host host' event

theorem moves_exec (host : Host) (event : HostEvent) : Moves host (host.exec event) event := by
  cases event with
  | start => exact .still (by simp) rfl rfl
  | tryLock runnerId entry workspaceId =>
    rw [Host.exec]
    split
    · rename_i open_
      obtain ⟨-, idle, -, free⟩ := open_
      rw [Option.isNone_iff_eq_none] at idle free
      exact .enters rfl idle free rfl rfl
    · exact .still (by simp) rfl rfl
  | advance runnerId input =>
    rw [Host.exec]
    split
    · rename_i at_
      obtain ⟨next, advanced⟩ := advance_advanced
      exact .goes (by rintro other input' ⟨⟩; rfl) at_ advanced
    · rename_i idle
      exact .still (by rintro other input' ⟨⟩; exact idle) rfl rfl
  | raise runnerId =>
    rw [Host.exec]
    split
    · rename_i pass at_
      have left : ∃ next, Advanced host (host.leave runnerId pass) runnerId pass next :=
        advanced_leave rfl rfl
      obtain ⟨next, advanced⟩ := left
      exact .goes (by simp) at_ advanced
    · exact .still (by simp) rfl rfl
  | readTenure runnerId chunkId now =>
    rw [Host.exec]
    split
    · exact .still (by simp) rfl rfl
    · exact .still (by simp) rfl rfl
  | release job =>
    rw [Host.exec]
    split
    · exact .still (by simp) rfl rfl
    · exact .still (by simp) rfl rfl
  | readIncomplete runnerId project =>
    rw [Host.exec]
    split
    · exact .still (by simp) rfl rfl
    · exact .still (by simp) rfl rfl
  | complete job =>
    rw [Host.exec]
    split
    · exact .still (by simp) rfl rfl
    · exact .still (by simp) rfl rfl
  | crash => exact .stops (by simp) rfl rfl
  | removeRunner runnerId =>
    rw [Host.exec]
    split
    · exact .still (by simp) rfl rfl
    · exact .still (by simp) rfl rfl

variable {event : HostEvent}

theorem Moves.held (moves : Moves host host' event) (held : Held host) : Held host' := by
  cases moves with
  | still own passes locks => exact held.same passes locks
  | @enters runnerId entry workspaceId is_ idle free passes locks =>
    intro place other taken
    rw [locks] at taken
    rw [passes]
    by_cases here : place = workspaceId
    · subst here
      rw [Function.update_self, Option.some.injEq] at taken
      subst taken
      exact ⟨_, Function.update_self _ _ _, rfl, rfl⟩
    · rw [Function.update_of_ne here] at taken
      obtain ⟨pass, at_, rest⟩ := held place other taken
      refine ⟨pass, ?_, rest⟩
      rw [Function.update_of_ne]
      · exact at_
      · rintro rfl
        rw [idle] at at_
        cases at_
  | goes own at_ advanced => exact held.advanced at_ advanced
  | stops own passes locks =>
    intro place other taken
    rw [locks] at taken
    cases taken

/-- A lock taken is kept or given back. -/
theorem Moves.lock (moves : Moves host host' event) {workspaceId : String} {runnerId : RunnerId}
    (taken : host.locks workspaceId = some runnerId) :
    host'.locks workspaceId = some runnerId ∨ host'.locks workspaceId = none := by
  cases moves with
  | still own passes locks => exact .inl (locks ▸ taken)
  | @enters other entry place is_ idle free passes locks =>
    refine .inl ?_
    rw [locks, Function.update_of_ne]
    · exact taken
    · rintro rfl
      rw [free] at taken
      cases taken
  | @goes other pass next own at_ advanced =>
    rw [advanced.locks]
    split
    · by_cases here : workspaceId = pass.workspaceId
      · subst here
        exact .inr (Function.update_self _ _ _)
      · rw [Function.update_of_ne here]
        exact .inl taken
    · exact .inl taken
  | stops own passes locks => exact .inr (by rw [locks])

/-- How much of a runner's claim is to come. -/
def rankOf (host : Host) (runnerId : RunnerId) : Option (ℕ ×ₗ ℕ) :=
  (host.passes runnerId).map fun pass => rank pass.phase

/-- A claim's rank stays or falls, and falls at the claim's own step. -/
theorem Moves.rank (moves : Moves host host' event) {a b : ℕ ×ₗ ℕ}
    (before : rankOf host runnerId = some a) (after : rankOf host' runnerId = some b) :
    (b = a ∧ ∀ input, event ≠ .advance runnerId input) ∨ b < a := by
  rw [rankOf, Option.map_eq_some_iff] at before after
  obtain ⟨pass, at_, rfl⟩ := before
  obtain ⟨pass', at_', rfl⟩ := after
  cases moves with
  | still own passes locks =>
    rw [passes, at_, Option.some.injEq] at at_'
    refine .inl ⟨by rw [at_'], ?_⟩
    intro input is_
    rw [own runnerId input is_] at at_
    cases at_
  | @enters other entry place is_ idle free passes locks =>
    have apart : runnerId ≠ other := by
      rintro rfl
      rw [idle] at at_
      cases at_
    rw [passes, Function.update_of_ne apart, at_, Option.some.injEq] at at_'
    refine .inl ⟨by rw [at_'], ?_⟩
    intro input step
    rw [is_] at step
    cases step
  | @goes other stands next own held advanced =>
    by_cases same : runnerId = other
    · subst same
      rw [advanced.passes, Function.update_self] at at_'
      rw [held, Option.some.injEq] at at_
      exact .inr (at_ ▸ advanced.falls pass' at_')
    · rw [advanced.passes, Function.update_of_ne same, at_, Option.some.injEq] at at_'
      refine .inl ⟨by rw [at_'], ?_⟩
      exact fun input step => same (own runnerId input step)
  | stops own passes locks =>
    rw [passes] at at_'
    cases at_'

/-- A runner without a claim gets one by a lock it tries. -/
theorem Moves.idle (moves : Moves host host' event) (idle : host.passes runnerId = none)
    (untried : ∀ entry workspaceId, event ≠ .tryLock runnerId entry workspaceId) :
    host'.passes runnerId = none := by
  cases moves with
  | still own passes locks => rw [passes, idle]
  | @enters other entry place is_ idle' free passes locks =>
    rw [passes, Function.update_of_ne]
    · exact idle
    · rintro rfl
      exact untried entry place is_
  | @goes other pass next own at_ advanced =>
    rw [advanced.passes, Function.update_of_ne]
    · exact idle
    · rintro rfl
      rw [idle] at at_
      cases at_
  | stops own passes locks => rw [passes]

/-! ## Every run without end -/

/-- The host after the first events. -/
def after (host : Host) (events : ℕ → HostEvent) : ℕ → Host
  | 0 => host
  | n + 1 => (after host events n).exec (events n)

end Blizzard.EnvironmentProgress
