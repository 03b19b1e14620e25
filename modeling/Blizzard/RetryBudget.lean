import Blizzard.AttemptCounts
import Blizzard.RunnerLeases
import Blizzard.TransitionRuns
import Mathlib.Tactic.Common

/-! # The retry budget of a visit

One chunk's leases on one runner: minted one at a time at rising epochs, closed
for any reason, failed by a verdict that counts the attempts of the visit while
the failing lease is still open. The log keeps every verdict and closure; the
spent closures since the last completed step are what the count comes to. -/
namespace Blizzard.RetryBudget
open HubTables (ChunkId)
open AttemptCounts RunnerLeases TransitionRuns

inductive FailureMove | abandon | retry | defer | escalateOwnerUnresolvable | escalateExhausted
  deriving DecidableEq, Repr

def failureMove (retried : ℤ) (retriesMax : ℕ) (ownerBlocked detached braked : Bool) : FailureMove :=
  if detached then .abandon
  else if retried < retriesMax ∧ ¬ ownerBlocked then .retry
  else if braked then .defer
  else if ownerBlocked then .escalateOwnerUnresolvable
  else .escalateExhausted

/-- The verdict of `Attempt.fail`: the count includes the failing lease. -/
def failVerdict (rows : Rows) (context : ContextRow) (ownerBlocked detached braked : Bool) :
    FailureMove :=
  failureMove ((attemptCount rows context.chunkId context.nodeId : ℤ) - 1) context.retriesMax
    ownerBlocked detached braked

/-- The reason the failed lease closes with; a deferred one stays open. -/
def closureAfter (reason : ClosureReason) : FailureMove → Option ClosureReason
  | .abandon => some .released
  | .retry => some reason
  | .defer => none
  | .escalateOwnerUnresolvable => some .escalated
  | .escalateExhausted => some .escalated

/-- One verdict or closure at a node: a deferral closes nothing, an ordinary closure judges nothing. -/
structure Entry where
  nodeId : String
  move : Option FailureMove
  reason : Option ClosureReason
  deriving DecidableEq, Repr

def Entry.retriesAt (nodeId : String) (entry : Entry) : Bool :=
  decide (entry.nodeId = nodeId ∧ entry.move = some .retry)

/-- The entry completes the node-step at the node, and so ends its visit. -/
def Entry.CompletesAt (nodeId : String) (entry : Entry) : Prop :=
  entry.nodeId = nodeId ∧ ∃ reason ∈ completedStepReasons, entry.reason = some reason

instance decidableCompletesAt (nodeId : String) (entry : Entry) :
    Decidable (entry.CompletesAt nodeId) :=
  inferInstanceAs (Decidable (_ ∧ ∃ reason ∈ completedStepReasons, _))

structure Desk where
  rows : Rows
  log : List Entry := []

inductive Event
  | mint (leaseId nodeId : String) (epoch : ℤ)
  | close (leaseId : String) (reason : ClosureReason)
  | fail (leaseId : String) (reason : ClosureReason) (ownerBlocked detached braked : Bool)

def closeWith (rows : Rows) (context : ContextRow) (reason : ClosureReason) : Rows :=
  recordClosure rows ⟨context.leaseId, context.chunkId, context.nodeId, reason⟩

/-- The rows after a verdict. -/
def afterVerdict (rows : Rows) (context : ContextRow) : Option ClosureReason → Rows
  | none => rows
  | some reason => closeWith rows context reason

/-- The open lease of the chunk a closure or a verdict is about. -/
def OpenContext (chunkId : ChunkId) (rows : Rows) (context : ContextRow) : Prop :=
  context ∈ rows.contexts ∧ context.chunkId = chunkId ∧ context.leaseId ∉ closedIds rows

inductive Step (chunkId : ChunkId) (retriesMax : ℕ) : Desk → Event → Desk → Prop
  /-- A chunk has at most one active lease: its runner mints where none is open. -/
  | mint {desk : Desk} {leaseId nodeId : String} {epoch : ℤ}
      (none_ : openLeases desk.rows chunkId = [])
      (rises : leaseEpochMax desk.rows chunkId < epoch)
      (freshLease : ∀ l ∈ desk.rows.leases, l.leaseId ≠ leaseId)
      (freshContext : ∀ c ∈ desk.rows.contexts, c.leaseId ≠ leaseId)
      (freshClosure : ∀ x ∈ desk.rows.closures, x.leaseId ≠ leaseId) :
      Step chunkId retriesMax desk (.mint leaseId nodeId epoch)
        { rows := insertLease desk.rows ⟨leaseId, chunkId, epoch⟩
            ⟨leaseId, chunkId, nodeId, retriesMax⟩,
          log := desk.log }
  | close {desk : Desk} {context : ContextRow} {reason : ClosureReason}
      (held : OpenContext chunkId desk.rows context) :
      Step chunkId retriesMax desk (.close context.leaseId reason)
        { rows := closeWith desk.rows context reason,
          log := desk.log ++ [⟨context.nodeId, none, some reason⟩] }
  | fail {desk : Desk} {context : ContextRow} {reason : ClosureReason}
      {ownerBlocked detached braked : Bool} {move : FailureMove}
      (held : OpenContext chunkId desk.rows context)
      (cause : reason = .failed ∨ reason = .reaped)
      (verdict : failVerdict desk.rows context ownerBlocked detached braked = move) :
      Step chunkId retriesMax desk (.fail context.leaseId reason ownerBlocked detached braked)
        { rows := afterVerdict desk.rows context (closureAfter reason move),
          log := desk.log ++ [⟨context.nodeId, some move, closureAfter reason move⟩] }

/-! ## The spent attempts of a visit -/

def spentAfter (nodeId : String) (spent : ℕ) (entry : Entry) : ℕ :=
  if entry.nodeId = nodeId then
    match entry.reason with
    | none => spent
    | some reason => if reason ∈ completedStepReasons then 0
        else if reason ∈ spentReasons then spent + 1 else spent
  else spent

/-- The spent closures at the node since its last completed step. -/
def spentInVisit (nodeId : String) (log : List Entry) : ℕ := log.foldl (spentAfter nodeId) 0

@[simp] theorem spentInVisit_append (nodeId : String) (log : List Entry) (entry : Entry) :
    spentInVisit nodeId (log ++ [entry]) = spentAfter nodeId (spentInVisit nodeId log) entry := by
  simp [spentInVisit]

theorem spentAfter_elsewhere {nodeId : String} {spent : ℕ} {entry : Entry}
    (elsewhere : entry.nodeId ≠ nodeId) : spentAfter nodeId spent entry = spent := by
  simp [spentAfter, elsewhere]

theorem spentAfter_completed {nodeId : String} {spent : ℕ} {move : Option FailureMove}
    {reason : ClosureReason} (completes : reason ∈ completedStepReasons) :
    spentAfter nodeId spent ⟨nodeId, move, some reason⟩ = 0 := by
  simp [spentAfter, completes]

theorem spentAfter_unspent {nodeId nodeId' : String} {spent : ℕ} {move : Option FailureMove}
    {reason : ClosureReason} (lets : reason ∈ unspentReasons) :
    spentAfter nodeId spent ⟨nodeId', move, some reason⟩ = spent := by
  have cases_ := reason_cases reason
  have first : reason ∉ completedStepReasons := by tauto
  have second : reason ∉ spentReasons := by tauto
  simp [spentAfter, first, second]

theorem spentAfter_spent {nodeId : String} {spent : ℕ} {move : Option FailureMove}
    {reason : ClosureReason} (spends : reason ∈ spentReasons) :
    spentAfter nodeId spent ⟨nodeId, move, some reason⟩ = spent + 1 := by
  have cases_ := reason_cases reason
  have first : reason ∉ completedStepReasons := by tauto
  simp [spentAfter, first, spends]

/-- An entry that completes no step at the node never lowers what its visit has spent. -/
theorem le_spentAfter {nodeId : String} {spent : ℕ} {entry : Entry}
    (goesOn : ¬ entry.CompletesAt nodeId) : spent ≤ spentAfter nodeId spent entry := by
  obtain ⟨node, move, reason⟩ := entry
  by_cases here : node = nodeId
  · cases reason with
    | none => simp [spentAfter]
    | some reason =>
      have kept : reason ∉ completedStepReasons :=
        fun completes => goesOn ⟨here, reason, completes, rfl⟩
      by_cases spends : reason ∈ spentReasons
      · simp [spentAfter, kept, spends, here]
      · simp [spentAfter, kept, spends, here]
  · rw [spentAfter_elsewhere here]

theorem spentInVisit_le {nodeId : String} {before mid : List Entry}
    (goesOn : ∀ entry ∈ mid, ¬ entry.CompletesAt nodeId) :
    spentInVisit nodeId before ≤ spentInVisit nodeId (before ++ mid) := by
  induction mid using List.reverseRecOn with
  | nil => simp
  | append_singleton mid entry ih =>
    have first := ih fun other inside => goesOn other (by simp [inside])
    have last : spentInVisit nodeId (before ++ mid) ≤
        spentAfter nodeId (spentInVisit nodeId (before ++ mid)) entry :=
      le_spentAfter (goesOn entry (by simp))
    rw [← List.append_assoc, spentInVisit_append]
    exact le_trans first last

/-! ## The verdicts of a log -/

/-- Every retry of the log found budget and spent some of it; every exhaustion found none. -/
def Judged (retriesMax : ℕ) (log : List Entry) : Prop :=
  ∀ before entry after_, log = before ++ entry :: after_ →
    (entry.move = some .retry → spentInVisit entry.nodeId before < retriesMax ∧
      ∃ reason ∈ spentReasons, entry.reason = some reason) ∧
    (entry.move = some .escalateExhausted → retriesMax ≤ spentInVisit entry.nodeId before ∧
      ∃ reason ∈ spentReasons, entry.reason = some reason)

theorem Judged.append {retriesMax : ℕ} {log : List Entry} {entry : Entry}
    (judged : Judged retriesMax log)
    (retry : entry.move = some .retry → spentInVisit entry.nodeId log < retriesMax ∧
      ∃ reason ∈ spentReasons, entry.reason = some reason)
    (exhausted : entry.move = some .escalateExhausted →
      retriesMax ≤ spentInVisit entry.nodeId log ∧
        ∃ reason ∈ spentReasons, entry.reason = some reason) : Judged retriesMax (log ++ [entry]) := by
  intro before other after_ split_
  rcases List.eq_nil_or_concat after_ with rfl | ⟨rest, last, rfl⟩
  · obtain ⟨rfl, same⟩ := List.append_inj' split_ rfl
    cases same
    exact ⟨retry, exhausted⟩
  · have shifted : log ++ [entry] = (before ++ other :: rest) ++ [last] := by
      rw [split_]
      simp
    obtain ⟨same, -⟩ := List.append_inj' shifted rfl
    exact judged before other rest same

/-- In a stretch of the log without a completed step at the node, the retries are within budget. -/
theorem Judged.retries_le {retriesMax : ℕ} {log before mid after_ : List Entry} {nodeId : String}
    (judged : Judged retriesMax log) (split_ : log = before ++ mid ++ after_)
    (goesOn : ∀ entry ∈ mid, ¬ entry.CompletesAt nodeId) :
    (mid.filter (Entry.retriesAt nodeId)).length ≤ retriesMax ∧
      (mid.filter (Entry.retriesAt nodeId)).length ≤ spentInVisit nodeId (before ++ mid) := by
  induction mid using List.reverseRecOn generalizing after_ with
  | nil => simp
  | append_singleton mid entry ih =>
    have split' : log = before ++ mid ++ entry :: after_ := by
      rw [split_]
      simp
    obtain ⟨within, spent⟩ := ih split' fun other inside => goesOn other (by simp [inside])
    have here := (judged (before ++ mid) entry after_ split').1
    have grows : spentInVisit nodeId (before ++ mid) ≤
        spentAfter nodeId (spentInVisit nodeId (before ++ mid)) entry :=
      le_spentAfter (goesOn entry (by simp))
    rw [List.filter_append, List.length_append, ← List.append_assoc, spentInVisit_append]
    by_cases retries : entry.nodeId = nodeId ∧ entry.move = some .retry
    · obtain ⟨budget, reason, spends, closed⟩ := here retries.2
      have last : [entry].filter (Entry.retriesAt nodeId) = [entry] := by
        simp [Entry.retriesAt, retries]
      obtain ⟨node, move, _⟩ := entry
      obtain ⟨rfl, -⟩ := retries
      obtain rfl := closed
      rw [last, spentAfter_spent spends, List.length_singleton]
      have budget' : spentInVisit node (before ++ mid) < retriesMax := budget
      omega
    · have last : [entry].filter (Entry.retriesAt nodeId) = [] := by
        simp [Entry.retriesAt, retries]
      rw [last, List.length_nil]
      omega

/-! ## Verdicts by what the visit has spent -/

theorem failureMove_retry_iff {retried : ℤ} {retriesMax : ℕ} {ownerBlocked detached braked : Bool} :
    failureMove retried retriesMax ownerBlocked detached braked = .retry ↔
      detached = false ∧ ownerBlocked = false ∧ retried < retriesMax := by
  cases detached <;> cases ownerBlocked <;> cases braked <;>
    by_cases budget : retried < retriesMax <;> simp [failureMove, budget]

theorem failureMove_exhausted {retried : ℤ} {retriesMax : ℕ} {ownerBlocked detached braked : Bool}
    (verdict : failureMove retried retriesMax ownerBlocked detached braked = .escalateExhausted) :
    (retriesMax : ℤ) ≤ retried := by
  by_contra budget
  rw [not_le] at budget
  cases detached <;> cases ownerBlocked <;> cases braked <;> simp [failureMove, budget] at verdict

theorem failureMove_spent {retried : ℤ} {retriesMax : ℕ} (spent : (retriesMax : ℤ) ≤ retried)
    (ownerBlocked : Bool) :
    failureMove retried retriesMax ownerBlocked false false = .escalateExhausted ∨
      failureMove retried retriesMax ownerBlocked false false = .escalateOwnerUnresolvable := by
  have none_ : ¬ retried < retriesMax := not_lt.mpr spent
  cases ownerBlocked <;> simp [failureMove, none_]

/-! ## The invariant -/

/-- What every step of a chunk's lease history preserves. -/
structure Kept (chunkId : ChunkId) (retriesMax : ℕ) (desk : Desk) : Prop where
  positive : ∀ l ∈ desk.rows.leases, l.chunkId = chunkId → 0 < l.epoch
  leased : ∀ c ∈ desk.rows.contexts, c.chunkId = chunkId →
    ∃ l ∈ desk.rows.leases, l.leaseId = c.leaseId
  owner : ∀ c ∈ desk.rows.contexts, c.chunkId = chunkId →
    ∀ l ∈ desk.rows.leases, l.leaseId = c.leaseId → l.chunkId = chunkId
  described : ∀ l ∈ desk.rows.leases, l.chunkId = chunkId →
    ∃ c ∈ desk.rows.contexts, c.chunkId = chunkId ∧ c.leaseId = l.leaseId
  contextIds : ((desk.rows.contexts.filter fun c => decide (c.chunkId = chunkId)).map
    (·.leaseId)).Nodup
  budget : ∀ c ∈ desk.rows.contexts, c.chunkId = chunkId → c.retriesMax = retriesMax
  newest : ∀ l ∈ desk.rows.leases, l.chunkId = chunkId → l.leaseId ∉ closedIds desk.rows →
    ∀ l' ∈ desk.rows.leases, l'.chunkId = chunkId → l' = l ∨ l'.epoch < l.epoch
  idle : openLeases desk.rows chunkId = [] →
    ∀ nodeId, attemptCount desk.rows chunkId nodeId = spentInVisit nodeId desk.log
  busy : ∀ c, OpenContext chunkId desk.rows c → ∀ nodeId, attemptCount desk.rows chunkId nodeId =
    spentInVisit nodeId desk.log + if c.nodeId = nodeId then 1 else 0
  judged : Judged retriesMax desk.log

variable {chunkId : ChunkId} {retriesMax : ℕ} {desk : Desk}

theorem mem_openLeases {rows : Rows} {lease : LeaseRow} : lease ∈ openLeases rows chunkId ↔
    lease ∈ rows.leases ∧ lease.chunkId = chunkId ∧ lease.leaseId ∉ closedIds rows := by
  simp [openLeases]

theorem Kept.sameId (h : Kept chunkId retriesMax desk) {c c' : ContextRow}
    (inside : c ∈ desk.rows.contexts) (inside' : c' ∈ desk.rows.contexts)
    (chunk : c.chunkId = chunkId) (chunk' : c'.chunkId = chunkId) (same : c.leaseId = c'.leaseId) :
    c = c' :=
  List.inj_on_of_nodup_map h.contextIds (List.mem_filter.mpr ⟨inside, decide_eq_true chunk⟩)
    (List.mem_filter.mpr ⟨inside', decide_eq_true chunk'⟩) same

theorem Kept.leaseOf (h : Kept chunkId retriesMax desk) {context : ContextRow}
    (held : OpenContext chunkId desk.rows context) :
    ∃ l ∈ desk.rows.leases, l.chunkId = chunkId ∧ l.leaseId = context.leaseId ∧
      l.leaseId ∉ closedIds desk.rows := by
  obtain ⟨inside, chunk, unclosed⟩ := held
  obtain ⟨l, leased, same⟩ := h.leased context inside chunk
  refine ⟨l, leased, h.owner context inside chunk l leased same, same, ?_⟩
  rw [same]
  exact unclosed

/-- The chunk has one open lease at most. -/
theorem Kept.onlyOpen (h : Kept chunkId retriesMax desk) {c c' : ContextRow}
    (held : OpenContext chunkId desk.rows c) (held' : OpenContext chunkId desk.rows c') : c' = c := by
  obtain ⟨l, leased, chunk, same, unclosed⟩ := h.leaseOf held
  obtain ⟨l', leased', chunk', same', unclosed'⟩ := h.leaseOf held'
  have one : l' = l := by
    rcases h.newest l leased chunk unclosed l' leased' chunk' with one | older
    · exact one
    · rcases h.newest l' leased' chunk' unclosed' l leased chunk with one | newer
      · exact one.symm
      · exact absurd newer (not_lt.mpr (le_of_lt older))
  refine h.sameId held'.1 held.1 held'.2.1 held.2.1 ?_
  rw [← same, ← same', one]

theorem Kept.completed_chunk (h : Kept chunkId retriesMax desk) {nodeId : String} {lease : LeaseRow}
    (inside : lease ∈ desk.rows.leases) (here : lease.leaseId ∈ atNode desk.rows chunkId nodeId) :
    lease.chunkId = chunkId := by
  obtain ⟨c, context, ⟨chunk, -⟩, same⟩ := mem_atNode.mp here
  exact h.owner c context chunk lease inside same.symm

/-- The open attempt is counted at its node. -/
theorem Kept.open_counted (h : Kept chunkId retriesMax desk) {context : ContextRow}
    (held : OpenContext chunkId desk.rows context) :
    context ∈ countedAttempts desk.rows chunkId context.nodeId := by
  obtain ⟨l, leased, chunk, same, unclosed⟩ := h.leaseOf held
  have here : context.leaseId ∈ atNode desk.rows chunkId context.nodeId :=
    mem_atNode.mpr ⟨context, held.1, ⟨held.2.1, rfl⟩, rfl⟩
  have past : visitBoundary desk.rows chunkId context.nodeId < l.epoch := by
    refine (visitBoundary_lt (h.positive l leased chunk)).mpr ?_
    intro other inside completes
    obtain ⟨x, closed, -, owner, node⟩ := mem_completed.mp completes
    rcases h.newest l leased chunk unclosed other inside (h.completed_chunk inside node) with one | older
    · rw [one] at owner
      exact absurd (mem_closedIds.mpr ⟨x, closed, owner⟩) unclosed
    · exact older
  refine mem_countedAttempts.mpr ⟨held.1, ⟨held.2.1, rfl⟩, ?_, ?_⟩
  · refine mem_inVisit.mpr ⟨l, leased, ⟨?_, past⟩, same⟩
    rw [same]
    exact here
  · intro inside
    obtain ⟨x, closed, -, owner⟩ := mem_unspent.mp inside
    exact held.2.2 (mem_closedIds.mpr ⟨x, closed, owner⟩)

theorem Kept.counted_ids (h : Kept chunkId retriesMax desk) (nodeId : String) :
    ((countedAttempts desk.rows chunkId nodeId).map (·.leaseId)).Nodup := by
  have inside : countedAttempts desk.rows chunkId nodeId =
      (desk.rows.contexts.filter fun c => decide (c.chunkId = chunkId)).filter fun c =>
        decide (c ∈ countedAttempts desk.rows chunkId nodeId) := by
    rw [countedAttempts, List.filter_filter]
    apply List.filter_congr
    intro c listed
    rw [Bool.eq_iff_iff, Bool.and_eq_true, decide_eq_true_eq, decide_eq_true_eq, decide_eq_true_eq]
    constructor
    · intro counted
      exact ⟨mem_countedAttempts.mpr ⟨listed, counted⟩, counted.1.1⟩
    · rintro ⟨counted, -⟩
      exact (mem_countedAttempts.mp counted).2
  rw [inside]
  exact h.contextIds.sublist (List.Sublist.map _ List.filter_sublist)

/-- A verdict weighs exactly what the visit has spent. -/
theorem Kept.verdict (h : Kept chunkId retriesMax desk) {context : ContextRow}
    (held : OpenContext chunkId desk.rows context) (ownerBlocked detached braked : Bool) :
    failVerdict desk.rows context ownerBlocked detached braked =
      failureMove (spentInVisit context.nodeId desk.log) retriesMax ownerBlocked detached braked := by
  have count := h.busy context held context.nodeId
  rw [if_pos rfl] at count
  rw [failVerdict, h.budget context held.1 held.2.1, held.2.1, count]
  congr 1
  omega

/-! ## Steps -/

/-- What one closure of the open lease leaves counted at each node. -/
theorem Kept.count_closed (h : Kept chunkId retriesMax desk) {context : ContextRow}
    (held : OpenContext chunkId desk.rows context) (reason : ClosureReason)
    (move : Option FailureMove) (nodeId : String) :
    attemptCount (closeWith desk.rows context reason) chunkId nodeId =
      spentAfter nodeId (spentInVisit nodeId desk.log) ⟨context.nodeId, move, some reason⟩ := by
  obtain ⟨l, leased, chunk, same, unclosed⟩ := h.leaseOf held
  have count := h.busy context held nodeId
  have counted := h.open_counted held
  have away (other : context.nodeId ≠ nodeId) :
      context.leaseId ∉ atNode desk.rows chunkId nodeId := by
    intro here
    obtain ⟨c, inside, ⟨chunk', node⟩, same'⟩ := mem_atNode.mp here
    rw [h.sameId inside held.1 chunk' held.2.1 same'] at node
    exact other node
  rcases reason_cases reason with ⟨completes, spends, -⟩ | ⟨goesOn, lets, -⟩ | ⟨goesOn, kept, spends⟩
  · by_cases here : context.nodeId = nodeId
    · subst here
      have newest : ∀ l' ∈ desk.rows.leases,
          l'.leaseId ∈ atNode desk.rows chunkId context.nodeId → l'.epoch ≤ l.epoch := by
        intro l' inside node
        rcases h.newest l leased chunk unclosed l' inside (h.completed_chunk inside node) with one | older
        · rw [one]
        · exact le_of_lt older
      have node : context.leaseId ∈ atNode desk.rows chunkId context.nodeId :=
        mem_atNode.mpr ⟨context, held.1, ⟨held.2.1, rfl⟩, rfl⟩
      have none_ : countedAttempts (closeWith desk.rows context reason) chunkId context.nodeId = [] :=
        countedAttempts_completed completes node leased same newest
      rw [attemptCount, none_, spentAfter_completed completes, List.length_nil]
    · have kept : countedAttempts (closeWith desk.rows context reason) chunkId nodeId =
          countedAttempts desk.rows chunkId nodeId :=
        countedAttempts_recordClosure (.inr (away here)) spends
      rw [if_neg here] at count
      rw [attemptCount, kept, spentAfter_elsewhere here]
      exact count
  · have letGo : countedAttempts (closeWith desk.rows context reason) chunkId nodeId =
        (countedAttempts desk.rows chunkId nodeId).filter fun c =>
          decide (c.leaseId ≠ context.leaseId) := countedAttempts_letGo lets
    rw [attemptCount, letGo, spentAfter_unspent lets]
    by_cases here : context.nodeId = nodeId
    · subst here
      have fewer := length_filter_id (h.counted_ids context.nodeId) counted
      rw [if_pos rfl, attemptCount] at count
      omega
    · rw [if_neg here] at count
      rw [List.filter_eq_self.mpr, ← attemptCount, count, Nat.add_zero]
      intro c inside
      obtain ⟨listed, ⟨chunk', node⟩, -⟩ := mem_countedAttempts.mp inside
      refine decide_eq_true ?_
      intro same'
      rw [h.sameId listed held.1 chunk' held.2.1 same'] at node
      exact here node
  · have kept' : countedAttempts (closeWith desk.rows context reason) chunkId nodeId =
        countedAttempts desk.rows chunkId nodeId := countedAttempts_recordClosure (.inl goesOn) kept
    rw [attemptCount, kept', ← attemptCount, count]
    by_cases here : context.nodeId = nodeId
    · subst here
      rw [if_pos rfl, spentAfter_spent spends]
    · rw [if_neg here, spentAfter_elsewhere here, Nat.add_zero]

/-- Closing the open lease, by a verdict or without one. -/
theorem Kept.closed (h : Kept chunkId retriesMax desk) {context : ContextRow}
    (held : OpenContext chunkId desk.rows context) (reason : ClosureReason)
    (move : Option FailureMove)
    (judged : Judged retriesMax (desk.log ++ [⟨context.nodeId, move, some reason⟩])) :
    Kept chunkId retriesMax
      { rows := closeWith desk.rows context reason,
        log := desk.log ++ [⟨context.nodeId, move, some reason⟩] } := by
  have counts (nodeId : String) : attemptCount (closeWith desk.rows context reason) chunkId nodeId =
      spentInVisit nodeId (desk.log ++ [⟨context.nodeId, move, some reason⟩]) := by
    rw [spentInVisit_append]
    exact h.count_closed held reason move nodeId
  constructor
  case positive => exact h.positive
  case leased => exact h.leased
  case owner => exact h.owner
  case described => exact h.described
  case contextIds => exact h.contextIds
  case budget => exact h.budget
  case newest =>
    intro l leased chunk unclosed
    exact h.newest l leased chunk fun old => unclosed (mem_closedIds_recordClosure.mpr (.inl old))
  case idle =>
    intro _ nodeId
    exact counts nodeId
  case busy =>
    intro c held'
    have other : OpenContext chunkId desk.rows c :=
      ⟨held'.1, held'.2.1, fun old => held'.2.2 (mem_closedIds_recordClosure.mpr (.inl old))⟩
    have one := h.onlyOpen held other
    rw [one] at held'
    exact absurd (mem_closedIds_recordClosure.mpr (.inr rfl)) held'.2.2
  case judged => exact judged

/-- A deferral writes nothing and spends nothing. -/
theorem Kept.deferred (h : Kept chunkId retriesMax desk) (nodeId : String)
    (judged : Judged retriesMax (desk.log ++ [⟨nodeId, some .defer, none⟩])) :
    Kept chunkId retriesMax { desk with log := desk.log ++ [⟨nodeId, some .defer, none⟩] } := by
  have spent (node : String) : spentInVisit node (desk.log ++ [⟨nodeId, some .defer, none⟩]) =
      spentInVisit node desk.log := by
    simp [spentAfter]
  constructor
  case positive => exact h.positive
  case leased => exact h.leased
  case owner => exact h.owner
  case described => exact h.described
  case contextIds => exact h.contextIds
  case budget => exact h.budget
  case newest => exact h.newest
  case idle =>
    intro none_ node
    rw [spent]
    exact h.idle none_ node
  case busy =>
    intro c held node
    rw [spent]
    exact h.busy c held node
  case judged => exact judged

/-- A mint counts itself at its node, and nothing anywhere else. -/
theorem Kept.minted (h : Kept chunkId retriesMax desk) {leaseId nodeId : String} {epoch : ℤ}
    (none_ : openLeases desk.rows chunkId = [])
    (rises : leaseEpochMax desk.rows chunkId < epoch)
    (freshLease : ∀ l ∈ desk.rows.leases, l.leaseId ≠ leaseId)
    (freshContext : ∀ c ∈ desk.rows.contexts, c.leaseId ≠ leaseId)
    (freshClosure : ∀ x ∈ desk.rows.closures, x.leaseId ≠ leaseId) :
    Kept chunkId retriesMax
      { rows := insertLease desk.rows ⟨leaseId, chunkId, epoch⟩
          ⟨leaseId, chunkId, nodeId, retriesMax⟩,
        log := desk.log } := by
  have positive : 0 < epoch := by
    refine lt_of_le_of_lt (LatestRows.maxOrZero_nonneg ?_) rises
    simp only [List.forall_mem_map, List.mem_filter, decide_eq_true_eq, and_imp]
    exact fun l inside chunk => le_of_lt (h.positive l inside chunk)
  have older := (leaseEpochMax_lt positive).mp rises
  have past (node : String) : visitBoundary desk.rows chunkId node < epoch := by
    refine (visitBoundary_lt positive).mpr ?_
    intro l inside completes
    obtain ⟨-, -, -, -, here⟩ := mem_completed.mp completes
    exact older l inside (h.completed_chunk inside here)
  have counts (node : String) : attemptCount (insertLease desk.rows ⟨leaseId, chunkId, epoch⟩
      ⟨leaseId, chunkId, nodeId, retriesMax⟩) chunkId node =
        spentInVisit node desk.log + if nodeId = node then 1 else 0 := by
    rw [attemptCount, countedAttempts_insertLease rfl freshClosure freshLease freshContext (past node),
      List.length_append, ← attemptCount, h.idle none_]
    by_cases here : nodeId = node <;> simp [here]
  have allClosed (l : LeaseRow) (inside : l ∈ desk.rows.leases) (chunk : l.chunkId = chunkId) :
      l.leaseId ∈ closedIds desk.rows := by
    by_contra unclosed
    have open_ := mem_openLeases.mpr ⟨inside, chunk, unclosed⟩
    rw [none_] at open_
    cases open_
  constructor
  case positive =>
    intro l inside chunk
    rcases List.mem_append.mp inside with old | new
    · exact h.positive l old chunk
    · rw [List.mem_singleton.mp new]
      exact positive
  case leased =>
    intro c inside chunk
    rcases List.mem_append.mp inside with old | new
    · obtain ⟨l, leased, same⟩ := h.leased c old chunk
      exact ⟨l, List.mem_append_left _ leased, same⟩
    · rw [List.mem_singleton.mp new]
      exact ⟨_, List.mem_append_right _ (List.mem_singleton.mpr rfl), rfl⟩
  case owner =>
    intro c inside chunk l leased same
    rcases List.mem_append.mp leased with old | new
    · rcases List.mem_append.mp inside with kept | minted
      · exact h.owner c kept chunk l old same
      · rw [List.mem_singleton.mp minted] at same
        exact absurd same (freshLease l old)
    · rw [List.mem_singleton.mp new]
  case described =>
    intro l inside chunk
    rcases List.mem_append.mp inside with old | new
    · obtain ⟨c, context, owner, same⟩ := h.described l old chunk
      exact ⟨c, List.mem_append_left _ context, owner, same⟩
    · rw [List.mem_singleton.mp new]
      exact ⟨_, List.mem_append_right _ (List.mem_singleton.mpr rfl), rfl, rfl⟩
  case contextIds =>
    have new : [(⟨leaseId, chunkId, nodeId, retriesMax⟩ : ContextRow)].filter
        (fun c => decide (c.chunkId = chunkId)) = [⟨leaseId, chunkId, nodeId, retriesMax⟩] := by
      simp
    simp only [insertLease]
    rw [List.filter_append, new, List.map_append, List.nodup_append]
    refine ⟨h.contextIds, by simp, ?_⟩
    intro id old id' minted same
    obtain ⟨c, inside, rfl⟩ := List.mem_map.mp old
    rw [List.map_singleton, List.mem_singleton] at minted
    exact freshContext c (List.mem_of_mem_filter inside) (same.trans minted)
  case budget =>
    intro c inside chunk
    rcases List.mem_append.mp inside with old | new
    · exact h.budget c old chunk
    · rw [List.mem_singleton.mp new]
  case newest =>
    intro l inside chunk unclosed l' inside' chunk'
    rcases List.mem_append.mp inside with old | new
    · exact absurd (allClosed l old chunk) unclosed
    · rw [List.mem_singleton.mp new]
      rcases List.mem_append.mp inside' with old' | new'
      · exact .inr (older l' old' chunk')
      · exact .inl (List.mem_singleton.mp new')
  case idle =>
    intro none' node
    have open_ : (⟨leaseId, chunkId, epoch⟩ : LeaseRow) ∈ openLeases (insertLease desk.rows
        ⟨leaseId, chunkId, epoch⟩ ⟨leaseId, chunkId, nodeId, retriesMax⟩) chunkId := by
      refine mem_openLeases.mpr ⟨List.mem_append_right _ (List.mem_singleton.mpr rfl), rfl, ?_⟩
      intro closed
      obtain ⟨x, inside, same⟩ := mem_closedIds.mp closed
      exact freshClosure x inside same
    rw [none'] at open_
    cases open_
  case busy =>
    intro c held node
    rcases List.mem_append.mp held.1 with old | new
    · obtain ⟨l, leased, same⟩ := h.leased c old held.2.1
      have closed := allClosed l leased (h.owner c old held.2.1 l leased same)
      rw [same] at closed
      exact absurd closed held.2.2
    · rw [List.mem_singleton.mp new]
      exact counts node
  case judged => exact h.judged

theorem Kept.step (h : Kept chunkId retriesMax desk) {event : Event} {desk' : Desk}
    (step : Step chunkId retriesMax desk event desk') : Kept chunkId retriesMax desk' := by
  cases step with
  | mint none_ rises freshLease freshContext freshClosure =>
    exact h.minted none_ rises freshLease freshContext freshClosure
  | close held =>
    refine h.closed held _ none (h.judged.append ?_ ?_)
    · intro retry
      cases retry
    · intro exhausted
      cases exhausted
  | @fail context reason ownerBlocked detached braked move held cause verdict =>
    rw [h.verdict held] at verdict
    have judged : Judged retriesMax
        (desk.log ++ [⟨context.nodeId, some move, closureAfter reason move⟩]) := by
      refine h.judged.append ?_ ?_
      · intro retry
        obtain rfl := Option.some.inj retry
        have budget := (failureMove_retry_iff.mp verdict).2.2
        refine ⟨by exact_mod_cast budget, reason, ?_, rfl⟩
        rcases cause with rfl | rfl <;> decide
      · intro exhausted
        obtain rfl := Option.some.inj exhausted
        have spent := failureMove_exhausted verdict
        exact ⟨by exact_mod_cast spent, .escalated, by decide, rfl⟩
    cases move with
    | abandon => exact h.closed held _ _ judged
    | retry => exact h.closed held _ _ judged
    | defer => exact h.deferred context.nodeId judged
    | escalateOwnerUnresolvable => exact h.closed held _ _ judged
    | escalateExhausted => exact h.closed held _ _ judged

/-! ## Retries left -/

/-- The closed attempts of the visit that the budget counts. -/
def spentAttempts (rows : Rows) (chunkId : ChunkId) (nodeId : String) : ℕ :=
  ((countedAttempts rows chunkId nodeId).filter fun c => decide (c.leaseId ∈ closedIds rows)).length

/-- What is left of the budget at a node, the attempt that is open not yet counted against it. -/
def retriesLeft (rows : Rows) (chunkId : ChunkId) (retriesMax : ℕ) (nodeId : String) : ℤ :=
  retriesMax - spentAttempts rows chunkId nodeId

/-- The event spends no attempt: a mint, or a closure that lets its attempt go. -/
def Event.SpendsNothing : Event → Prop
  | .mint _ _ _ => True
  | .close _ reason => reason ∈ unspentReasons
  | .fail _ _ _ _ _ => False

/-- The entry spends an attempt of the node's visit. -/
def Entry.SpendsAt (nodeId : String) (entry : Entry) : Prop :=
  entry.nodeId = nodeId ∧ ∃ reason ∈ spentReasons, entry.reason = some reason

theorem spentAfter_zero {nodeId : String} {entry : Entry} (kept : ¬ entry.SpendsAt nodeId) :
    spentAfter nodeId 0 entry = 0 := by
  obtain ⟨node, move, reason⟩ := entry
  by_cases here : node = nodeId
  · cases reason with
    | none => simp [spentAfter]
    | some reason =>
      have unspends : reason ∉ spentReasons := fun spends => kept ⟨here, reason, spends, rfl⟩
      simp [spentAfter, unspends]
  · exact spentAfter_elsewhere here

/-- After a completed step nothing is spent until an attempt is. -/
theorem spentInVisit_completed {nodeId : String} {before after_ : List Entry} {entry : Entry}
    (completes : entry.CompletesAt nodeId) (kept : ∀ other ∈ after_, ¬ other.SpendsAt nodeId) :
    spentInVisit nodeId (before ++ entry :: after_) = 0 := by
  have start : spentAfter nodeId (spentInVisit nodeId before) entry = 0 := by
    obtain ⟨node, move, _⟩ := entry
    obtain ⟨rfl, reason, step, closed⟩ := completes
    obtain rfl := closed
    exact spentAfter_completed step
  induction after_ using List.reverseRecOn with
  | nil => rw [spentInVisit_append, start]
  | append_singleton after_ last ih =>
    have first := ih fun other inside => kept other (by simp [inside])
    rw [← List.cons_append, ← List.append_assoc, spentInVisit_append, first]
    exact spentAfter_zero (kept last (by simp))

theorem Kept.spentAttempts (h : Kept chunkId retriesMax desk) (nodeId : String) :
    RetryBudget.spentAttempts desk.rows chunkId nodeId = spentInVisit nodeId desk.log := by
  cases none_ : openLeases desk.rows chunkId with
  | nil =>
    rw [← h.idle none_, attemptCount, RetryBudget.spentAttempts, List.filter_eq_self.mpr]
    intro c inside
    refine decide_eq_true ?_
    by_contra unclosed
    obtain ⟨listed, ⟨chunk, -⟩, -⟩ := mem_countedAttempts.mp inside
    obtain ⟨l, leased, same⟩ := h.leased c listed chunk
    have open_ : l ∈ openLeases desk.rows chunkId := by
      refine mem_openLeases.mpr ⟨leased, h.owner c listed chunk l leased same, ?_⟩
      rw [same]
      exact unclosed
    rw [none_] at open_
    cases open_
  | cons l rest =>
    have open_ : l ∈ openLeases desk.rows chunkId := by
      rw [none_]
      exact List.mem_cons_self
    obtain ⟨leased, chunk, unclosed⟩ := mem_openLeases.mp open_
    obtain ⟨context, inside, owner, same⟩ := h.described l leased chunk
    rw [← same] at unclosed
    have held : OpenContext chunkId desk.rows context := ⟨inside, owner, unclosed⟩
    have count := h.busy context held nodeId
    have others : (countedAttempts desk.rows chunkId nodeId).filter
        (fun c => decide (c.leaseId ∈ closedIds desk.rows)) =
        (countedAttempts desk.rows chunkId nodeId).filter
          fun c => decide (c.leaseId ≠ context.leaseId) := by
      apply List.filter_congr
      intro c counted
      obtain ⟨listed, ⟨chunk', -⟩, -⟩ := mem_countedAttempts.mp counted
      rw [decide_eq_decide]
      constructor
      · intro closed same'
        rw [same'] at closed
        exact unclosed closed
      · intro other
        by_contra unclosed'
        exact other (congrArg (·.leaseId) (h.onlyOpen held ⟨listed, chunk', unclosed'⟩))
    rw [RetryBudget.spentAttempts, others]
    by_cases here : context.nodeId = nodeId
    · subst here
      have fewer := length_filter_id (h.counted_ids context.nodeId) (h.open_counted held)
      rw [if_pos rfl, attemptCount] at count
      omega
    · rw [if_neg here] at count
      rw [List.filter_eq_self.mpr, ← attemptCount, count, Nat.add_zero]
      intro c counted
      obtain ⟨listed, ⟨chunk', node⟩, -⟩ := mem_countedAttempts.mp counted
      refine decide_eq_true ?_
      intro same'
      rw [h.sameId listed inside chunk' owner same'] at node
      exact here node

theorem Kept.retriesLeft (h : Kept chunkId retriesMax desk) (nodeId : String) :
    RetryBudget.retriesLeft desk.rows chunkId retriesMax nodeId =
      retriesMax - spentInVisit nodeId desk.log := by
  rw [RetryBudget.retriesLeft, h.spentAttempts]

/-- Mints and closures that let an attempt go leave every node's budget as it was. -/
theorem Kept.retriesLeft_step (h : Kept chunkId retriesMax desk) {event : Event} {desk' : Desk}
    (step : Step chunkId retriesMax desk event desk') (keeps : event.SpendsNothing)
    (nodeId : String) : RetryBudget.retriesLeft desk'.rows chunkId retriesMax nodeId =
      RetryBudget.retriesLeft desk.rows chunkId retriesMax nodeId := by
  rw [h.retriesLeft, (h.step step).retriesLeft]
  cases step with
  | mint => rfl
  | close held =>
    have lets : _ ∈ unspentReasons := keeps
    rw [spentInVisit_append, spentAfter_unspent lets]
  | fail => cases keeps

theorem kept_start {rows : Rows} (noLeases : ∀ l ∈ rows.leases, l.chunkId ≠ chunkId)
    (noContexts : ∀ c ∈ rows.contexts, c.chunkId ≠ chunkId) : Kept chunkId retriesMax ⟨rows, []⟩ := by
  have none_ : rows.contexts.filter (fun c => decide (c.chunkId = chunkId)) = [] := by
    simpa using noContexts
  constructor
  case positive => exact fun l inside chunk => absurd chunk (noLeases l inside)
  case leased => exact fun c inside chunk => absurd chunk (noContexts c inside)
  case owner => exact fun c inside chunk => absurd chunk (noContexts c inside)
  case described => exact fun l inside chunk => absurd chunk (noLeases l inside)
  case contextIds => simp [none_]
  case budget => exact fun c inside chunk => absurd chunk (noContexts c inside)
  case newest => exact fun l inside chunk => absurd chunk (noLeases l inside)
  case idle =>
    intro _ nodeId
    have counted : countedAttempts rows chunkId nodeId = [] := by
      rw [List.eq_nil_iff_forall_not_mem]
      intro c inside
      obtain ⟨listed, ⟨chunk, -⟩, -⟩ := mem_countedAttempts.mp inside
      exact noContexts c listed chunk
    rw [attemptCount, counted]
    rfl
  case busy => exact fun c held => absurd held.2.1 (noContexts c held.1)
  case judged =>
    intro before entry after_ split_
    cases before <;> cases split_

/-- A visit retries within its budget and no further: its retries are bounded, an attempt let go
costs none, a completed step restores it whole, and what is exhausted stays so to the visit's end. -/
theorem visit_retry_budget {rows : Rows} (noLeases : ∀ l ∈ rows.leases, l.chunkId ≠ chunkId)
    (noContexts : ∀ c ∈ rows.contexts, c.chunkId ≠ chunkId) {events : List Event}
    (run : Runs (Step chunkId retriesMax) ⟨rows, []⟩ events desk) :
    (∀ nodeId before mid after_, desk.log = before ++ mid ++ after_ →
      (∀ entry ∈ mid, ¬ entry.CompletesAt nodeId) →
      (mid.filter (Entry.retriesAt nodeId)).length ≤ retriesMax) ∧
    (∀ event desk', Step chunkId retriesMax desk event desk' → event.SpendsNothing →
      ∀ nodeId, retriesLeft desk'.rows chunkId retriesMax nodeId =
        retriesLeft desk.rows chunkId retriesMax nodeId) ∧
    (∀ nodeId before entry after_, desk.log = before ++ entry :: after_ →
      entry.CompletesAt nodeId → (∀ other ∈ after_, ¬ other.SpendsAt nodeId) →
      retriesLeft desk.rows chunkId retriesMax nodeId = retriesMax) ∧
    (∀ context, OpenContext chunkId desk.rows context → ∀ ownerBlocked detached braked,
      failVerdict desk.rows context ownerBlocked detached braked = .retry ↔
        detached = false ∧ ownerBlocked = false ∧
          0 < retriesLeft desk.rows chunkId retriesMax context.nodeId) ∧
    (∀ before entry after_, desk.log = before ++ entry :: after_ →
      entry.move = some .escalateExhausted →
      (∀ other ∈ after_, ¬ other.CompletesAt entry.nodeId) →
      ∀ context, OpenContext chunkId desk.rows context → context.nodeId = entry.nodeId →
      ∀ ownerBlocked,
        (∀ detached braked,
          failVerdict desk.rows context ownerBlocked detached braked ≠ .retry) ∧
        (failVerdict desk.rows context ownerBlocked false false = .escalateExhausted ∨
          failVerdict desk.rows context ownerBlocked false false = .escalateOwnerUnresolvable)) := by
  have h : Kept chunkId retriesMax desk :=
    run.invariant (fun _ _ _ step held => held.step step) (kept_start noLeases noContexts)
  refine ⟨?_, ?_, ?_, ?_, ?_⟩
  · intro nodeId before mid after_ split_ goesOn
    exact (h.judged.retries_le split_ goesOn).1
  · intro event desk' step keeps nodeId
    exact h.retriesLeft_step step keeps nodeId
  · intro nodeId before entry after_ split_ completes kept
    rw [h.retriesLeft, split_, spentInVisit_completed completes kept]
    simp
  · intro context held ownerBlocked detached braked
    rw [h.verdict held, failureMove_retry_iff, h.retriesLeft, Int.sub_pos]
  · intro before entry after_ split_ exhausted goesOn context held here ownerBlocked
    obtain ⟨none_, reason, spends, closed⟩ := (h.judged before entry after_ split_).2 exhausted
    have since : spentInVisit entry.nodeId before ≤ spentInVisit entry.nodeId desk.log := by
      rw [split_]
      refine spentInVisit_le ?_
      intro other inside
      rcases List.mem_cons.mp inside with rfl | later
      · rintro ⟨-, reason', completes, closed'⟩
        rw [closed] at closed'
        obtain rfl := Option.some.inj closed'
        have cases_ := reason_cases reason
        tauto
      · exact goesOn other later
    have spent : (retriesMax : ℤ) ≤ spentInVisit context.nodeId desk.log := by
      rw [here]
      exact_mod_cast le_trans none_ since
    refine ⟨?_, ?_⟩
    · intro detached braked retry
      rw [h.verdict held] at retry
      exact absurd (failureMove_retry_iff.mp retry).2.2 (not_lt.mpr spent)
    · rw [h.verdict held]
      exact failureMove_spent spent ownerBlocked

/-- One retry of a budget of one, and the second failure of the visit escalated. -/
theorem visit_retry_budget_spent : ∃ desk : Desk,
    Runs (Step "ch_1" 1) ⟨{}, []⟩ [.mint "ls_1" "nd_a" 1, .fail "ls_1" .failed false false false,
      .mint "ls_2" "nd_a" 2, .fail "ls_2" .reaped false false false] desk ∧
    desk.log.map (·.move) = [some .retry, some .escalateExhausted] ∧
    (desk.log.filter (Entry.retriesAt "nd_a")).length ≤ 1 := by
  have run : Runs (Step "ch_1" 1) ⟨{}, []⟩ [.mint "ls_1" "nd_a" 1,
      .fail "ls_1" .failed false false false, .mint "ls_2" "nd_a" 2,
      .fail "ls_2" .reaped false false false] _ :=
    .cons (.mint rfl (by decide) (by decide) (by decide) (by decide))
      (.cons (@Step.fail "ch_1" 1 _ ⟨"ls_1", "ch_1", "nd_a", 1⟩ .failed false false false .retry
          ⟨by decide, rfl, by decide⟩ (.inl rfl) (by decide))
        (.cons (.mint (by decide) (by decide) (by decide) (by decide) (by decide))
          (.cons (@Step.fail "ch_1" 1 _ ⟨"ls_2", "ch_1", "nd_a", 1⟩ .reaped false false false
              .escalateExhausted ⟨by decide, rfl, by decide⟩ (.inr rfl) (by decide)) (.nil _))))
  have within := (visit_retry_budget (by decide) (by decide) run).1 "nd_a" []
    [⟨"nd_a", some .retry, some .failed⟩, ⟨"nd_a", some .escalateExhausted, some .escalated⟩] []
    rfl (by decide)
  exact ⟨_, run, rfl, within⟩

end Blizzard.RetryBudget
