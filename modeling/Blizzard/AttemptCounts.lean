import Blizzard.DictionaryRows
import Blizzard.RunnerLeases
import Mathlib.Tactic.Common

/-! # Attempts counted after a mint or a closure

How the counted attempts of a visit change when one lease is minted or closed:
a mint past the boundary adds itself, an unspent closure takes its own attempt
away, a spent one changes nothing, a completed step leaves none. -/
namespace Blizzard.AttemptCounts
open HubTables (ChunkId)
open RunnerLeases

variable {rows : Rows} {chunkId : ChunkId} {nodeId : String}

theorem mem_countedAttempts {context : ContextRow} :
    context ∈ countedAttempts rows chunkId nodeId ↔ context ∈ rows.contexts ∧
      (context.chunkId = chunkId ∧ context.nodeId = nodeId) ∧
      context.leaseId ∈ inVisit rows chunkId nodeId ∧ context.leaseId ∉ unspent rows := by
  simp [countedAttempts]

/-! ## Mints -/

section Mint
variable {lease : LeaseRow} {context : ContextRow}

theorem mem_atNode_insertLease {id : String} :
    id ∈ atNode (insertLease rows lease context) chunkId nodeId ↔
      id ∈ atNode rows chunkId nodeId ∨
        (context.chunkId = chunkId ∧ context.nodeId = nodeId) ∧ context.leaseId = id := by
  simp only [mem_atNode, insertLease, List.mem_append, List.mem_singleton]
  constructor
  · rintro ⟨c, old | rfl, here, rfl⟩
    · exact .inl ⟨c, old, here, rfl⟩
    · exact .inr ⟨here, rfl⟩
  · rintro (⟨c, old, here, rfl⟩ | ⟨here, rfl⟩)
    · exact ⟨c, .inl old, here, rfl⟩
    · exact ⟨context, .inr rfl, here, rfl⟩

variable (same : context.leaseId = lease.leaseId)
  (freshClosure : ∀ x ∈ rows.closures, x.leaseId ≠ lease.leaseId)
include same freshClosure

theorem mem_completed_insertLease {id : String} :
    id ∈ completed (insertLease rows lease context) chunkId nodeId ↔
      id ∈ completed rows chunkId nodeId := by
  simp only [mem_completed, mem_atNode_insertLease]
  constructor
  · rintro ⟨x, inside, reason, rfl, old | ⟨-, new⟩⟩
    · exact ⟨x, inside, reason, rfl, old⟩
    · exact absurd (new.symm.trans same) (freshClosure x inside)
  · rintro ⟨x, inside, reason, rfl, old⟩
    exact ⟨x, inside, reason, rfl, .inl old⟩

theorem visitBoundary_insertLease :
    visitBoundary (insertLease rows lease context) chunkId nodeId =
      visitBoundary rows chunkId nodeId := by
  have minted : lease.leaseId ∉ completed rows chunkId nodeId := by
    intro inside
    obtain ⟨x, closed, -, owner, -⟩ := mem_completed.mp inside
    exact freshClosure x closed owner
  have filtered : (insertLease rows lease context).leases.filter (fun l => decide (l.leaseId ∈
        completed (insertLease rows lease context) chunkId nodeId)) =
      rows.leases.filter fun l => decide (l.leaseId ∈ completed rows chunkId nodeId) := by
    have new : [lease].filter (fun l => decide (l.leaseId ∈ completed rows chunkId nodeId)) = [] := by
      simp [minted]
    simp only [mem_completed_insertLease same freshClosure]
    rw [insertLease, List.filter_append, new, List.append_nil]
  rw [visitBoundary, filtered, visitBoundary]

theorem countedAttempts_insertLease
    (freshLease : ∀ l ∈ rows.leases, l.leaseId ≠ lease.leaseId)
    (freshContext : ∀ c ∈ rows.contexts, c.leaseId ≠ lease.leaseId)
    (past : visitBoundary rows chunkId nodeId < lease.epoch) :
    countedAttempts (insertLease rows lease context) chunkId nodeId =
      countedAttempts rows chunkId nodeId ++
        if context.chunkId = chunkId ∧ context.nodeId = nodeId then [context] else [] := by
  have boundary : visitBoundary (insertLease rows lease context) chunkId nodeId =
      visitBoundary rows chunkId nodeId := visitBoundary_insertLease same freshClosure
  have held : ∀ c ∈ rows.contexts, (c.leaseId ∈ inVisit (insertLease rows lease context) chunkId nodeId ↔
      c.leaseId ∈ inVisit rows chunkId nodeId) := by
    intro c old
    have other := freshContext c old
    simp only [mem_inVisit, mem_atNode_insertLease, boundary]
    constructor
    · rintro ⟨l, inside, ⟨here | ⟨-, new⟩, newer⟩, owner⟩
      · rcases List.mem_append.mp inside with kept | minted
        · exact ⟨l, kept, ⟨here, newer⟩, owner⟩
        · rw [List.mem_singleton.mp minted] at owner
          exact absurd owner.symm other
      · exact absurd (owner.symm.trans (new.symm.trans same)) other
    · rintro ⟨l, inside, ⟨here, newer⟩, owner⟩
      exact ⟨l, List.mem_append_left _ inside, ⟨.inl here, newer⟩, owner⟩
  have old : rows.contexts.filter (fun c => decide ((c.chunkId = chunkId ∧ c.nodeId = nodeId) ∧
        c.leaseId ∈ inVisit (insertLease rows lease context) chunkId nodeId ∧
          c.leaseId ∉ unspent (insertLease rows lease context))) =
      countedAttempts rows chunkId nodeId := by
    apply List.filter_congr
    intro c inside
    rw [decide_eq_decide, held c inside]
    rfl
  rw [countedAttempts, insertLease, List.filter_append]
  refine congrArg₂ (· ++ ·) old ?_
  by_cases here : context.chunkId = chunkId ∧ context.nodeId = nodeId
  · have visiting : context.leaseId ∈ inVisit (insertLease rows lease context) chunkId nodeId := by
      refine mem_inVisit.mpr ⟨lease, List.mem_append_right _ (List.mem_singleton.mpr rfl), ?_, same.symm⟩
      refine ⟨mem_atNode_insertLease.mpr (.inr ⟨here, same⟩), ?_⟩
      rw [boundary]
      exact past
    have spending : context.leaseId ∉ unspent (insertLease rows lease context) := by
      intro inside
      obtain ⟨x, closed, -, owner⟩ := mem_unspent.mp inside
      exact freshClosure x closed (owner.trans same)
    rw [if_pos here, List.filter_cons_of_pos, List.filter_nil]
    exact decide_eq_true ⟨here, visiting, spending⟩
  · rw [if_neg here, List.filter_cons_of_neg, List.filter_nil]
    intro counted
    exact here (of_decide_eq_true counted).1

end Mint

/-! ## Closures -/

section Close
variable {closure : ClosureRow}

theorem mem_unspent_recordClosure {id : String} : id ∈ unspent (recordClosure rows closure) ↔
    id ∈ unspent rows ∨ closure.reason ∈ unspentReasons ∧ closure.leaseId = id := by
  simp only [mem_unspent, recordClosure, List.mem_append, List.mem_singleton]
  constructor
  · rintro ⟨x, old | rfl, reason, rfl⟩
    · exact .inl ⟨x, old, reason, rfl⟩
    · exact .inr ⟨reason, rfl⟩
  · rintro (⟨x, old, reason, rfl⟩ | ⟨reason, rfl⟩)
    · exact ⟨x, .inl old, reason, rfl⟩
    · exact ⟨closure, .inr rfl, reason, rfl⟩

theorem mem_completed_recordClosure {id : String} :
    id ∈ completed (recordClosure rows closure) chunkId nodeId ↔
      id ∈ completed rows chunkId nodeId ∨ closure.reason ∈ completedStepReasons ∧
        closure.leaseId = id ∧ id ∈ atNode rows chunkId nodeId := by
  simp only [mem_completed]
  constructor
  · rintro ⟨x, inside, reason, rfl, here⟩
    rcases List.mem_append.mp inside with old | new
    · exact .inl ⟨x, old, reason, rfl, here⟩
    · obtain rfl := List.mem_singleton.mp new
      exact .inr ⟨reason, rfl, here⟩
  · rintro (⟨x, old, reason, rfl, here⟩ | ⟨reason, rfl, here⟩)
    · exact ⟨x, List.mem_append_left _ old, reason, rfl, here⟩
    · exact ⟨closure, List.mem_append_right _ (List.mem_singleton.mpr rfl), reason, rfl, here⟩

theorem mem_closedIds_recordClosure {id : String} : id ∈ closedIds (recordClosure rows closure) ↔
    id ∈ closedIds rows ∨ closure.leaseId = id := by
  simp [closedIds, recordClosure, eq_comm]

/-- A closure that completes no step at the node leaves its visit's boundary. -/
theorem inVisit_recordClosure
    (goesOn : closure.reason ∉ completedStepReasons ∨ closure.leaseId ∉ atNode rows chunkId nodeId) :
    inVisit (recordClosure rows closure) chunkId nodeId = inVisit rows chunkId nodeId := by
  have same : ∀ id, id ∈ completed (recordClosure rows closure) chunkId nodeId ↔
      id ∈ completed rows chunkId nodeId := by
    intro id
    rw [mem_completed_recordClosure]
    constructor
    · rintro (old | ⟨completes, rfl, here⟩)
      · exact old
      · rcases goesOn with goes | away
        · exact absurd completes goes
        · exact absurd here away
    · exact .inl
  have boundary : visitBoundary (recordClosure rows closure) chunkId nodeId =
      visitBoundary rows chunkId nodeId := by
    simp only [visitBoundary, same]
    rfl
  simp only [inVisit, boundary]
  rfl

theorem countedAttempts_recordClosure
    (goesOn : closure.reason ∉ completedStepReasons ∨ closure.leaseId ∉ atNode rows chunkId nodeId)
    (spends : closure.reason ∉ unspentReasons) :
    countedAttempts (recordClosure rows closure) chunkId nodeId =
      countedAttempts rows chunkId nodeId := by
  have same : ∀ id, id ∈ unspent (recordClosure rows closure) ↔ id ∈ unspent rows := by
    intro id
    rw [mem_unspent_recordClosure]
    constructor
    · rintro (old | ⟨lets, -⟩)
      · exact old
      · exact absurd lets spends
    · exact .inl
  simp only [countedAttempts, inVisit_recordClosure goesOn, same]
  rfl

/-- An attempt that is let go is no longer counted; every other one still is. -/
theorem countedAttempts_letGo (lets : closure.reason ∈ unspentReasons) :
    countedAttempts (recordClosure rows closure) chunkId nodeId =
      (countedAttempts rows chunkId nodeId).filter fun c => decide (c.leaseId ≠ closure.leaseId) := by
  have goesOn : closure.reason ∉ completedStepReasons := by
    have cases_ := reason_cases closure.reason
    tauto
  have visits : inVisit (recordClosure rows closure) chunkId nodeId = inVisit rows chunkId nodeId :=
    inVisit_recordClosure (.inl goesOn)
  rw [countedAttempts, countedAttempts, List.filter_filter, visits]
  apply List.filter_congr
  intro c inside
  rw [Bool.eq_iff_iff, Bool.and_eq_true, decide_eq_true_eq, decide_eq_true_eq, decide_eq_true_eq,
    mem_unspent_recordClosure]
  constructor
  · rintro ⟨here, visiting, kept⟩
    exact ⟨fun same => kept (.inr ⟨lets, same.symm⟩), here, visiting, fun old => kept (.inl old)⟩
  · rintro ⟨other, here, visiting, kept⟩
    refine ⟨here, visiting, ?_⟩
    rintro (old | ⟨-, same⟩)
    · exact kept old
    · exact other same.symm

/-- A completed step at the newest epoch of the node leaves no attempt counted there. -/
theorem countedAttempts_completed {lease : LeaseRow}
    (completes : closure.reason ∈ completedStepReasons)
    (here : closure.leaseId ∈ atNode rows chunkId nodeId)
    (closed : lease ∈ rows.leases) (owner : lease.leaseId = closure.leaseId)
    (newest : ∀ l ∈ rows.leases, l.leaseId ∈ atNode rows chunkId nodeId → l.epoch ≤ lease.epoch) :
    countedAttempts (recordClosure rows closure) chunkId nodeId = [] := by
  rw [List.eq_nil_iff_forall_not_mem]
  intro c inside
  obtain ⟨-, -, visiting, -⟩ := mem_countedAttempts.mp inside
  obtain ⟨l, held, ⟨at_, newer⟩, -⟩ := mem_inVisit.mp visiting
  have boundary : lease.epoch ≤ visitBoundary (recordClosure rows closure) chunkId nodeId := by
    refine LatestRows.le_maxOrZero (List.mem_map.mpr ⟨lease, List.mem_filter.mpr ⟨closed, ?_⟩, rfl⟩)
    rw [decide_eq_true_eq, owner]
    exact mem_completed_recordClosure.mpr (.inr ⟨completes, rfl, here⟩)
  have older : l.epoch ≤ lease.epoch := newest l held at_
  exact absurd newer (not_lt.mpr (le_trans older boundary))

/-- Where ids are unique, letting a counted attempt go lowers the count by one. -/
theorem length_filter_id {contexts : List ContextRow} {context : ContextRow}
    (ids : (contexts.map (·.leaseId)).Nodup) (inside : context ∈ contexts) :
    (contexts.filter fun c => decide (c.leaseId ≠ context.leaseId)).length + 1 = contexts.length := by
  have only : contexts.filter (fun c => c.leaseId = context.leaseId) = [context] :=
    DictionaryRows.filter_key ids inside
  have parts := List.length_eq_length_filter_add (l := contexts)
    (fun c => decide (c.leaseId = context.leaseId))
  rw [only, List.length_singleton] at parts
  simp only [ne_eq, decide_not]
  omega

end Close

end Blizzard.AttemptCounts
