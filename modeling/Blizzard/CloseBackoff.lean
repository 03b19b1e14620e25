import Mathlib.Tactic.IntervalCases
import Mathlib.Tactic.Linarith
import Blizzard.CloseAccounts

/-! # An intent's backoff

A failed attempt is counted and dated, and lengthens the wait before the next
until the wait stands at its cap. A deferral is neither: it holds the intent to
its resume time and leaves the backoff as it was. -/
namespace Blizzard.CloseBackoff
open HubTables UniqueRows CloseIntents CloseAccounts

/-- How long an intent waits past its last counted attempt. -/
def wait (attemptCount : ℕ) : Instant :=
  if attemptCount = 0 then 0
  else backoffDelay attemptCount closeDrainBackoffBase closeDrainBackoffCap

theorem wait_capped {n : ℕ} (many : 7 ≤ n) : wait n = closeDrainBackoffCap := by
  have doublings : 6 ≤ min (n - 1) maxDoublings := by
    rw [maxDoublings]
    omega
  have least : (2 : ℤ) ^ 6 ≤ 2 ^ min (n - 1) maxDoublings :=
    pow_le_pow_right₀ (by norm_num) doublings
  rw [wait, if_neg (by omega), backoffDelay, if_neg (by omega)]
  apply min_eq_right
  simp only [closeDrainBackoffCap, closeDrainBackoffBase, seconds]
  push_cast
  linarith

theorem wait_le_cap (n : ℕ) : wait n ≤ closeDrainBackoffCap := by
  rcases Nat.lt_or_ge n 7 with few | many
  · interval_cases n <;> decide
  · exact (wait_capped many).le

/-- Below the cap one attempt more is a longer wait. -/
theorem wait_lengthens {n : ℕ} (below : wait n < closeDrainBackoffCap) : wait n < wait (n + 1) := by
  rcases Nat.lt_or_ge n 7 with few | many
  · interval_cases n <;> decide
  · exact absurd (wait_capped many) below.ne

/-- At the cap it stays. -/
theorem wait_stands {n : ℕ} (at_ : wait n = closeDrainBackoffCap) :
    wait (n + 1) = closeDrainBackoffCap := by
  rcases Nat.lt_or_ge n 7 with few | many
  · revert at_
    interval_cases n <;> decide
  · exact wait_capped (by omega)

theorem wait_of_pos {n : ℕ} (some_ : n ≠ 0) :
    wait n = backoffDelay n closeDrainBackoffBase closeDrainBackoffCap := if_neg some_

/-- Due: at or past the resume time, and the wait past the last counted attempt is over. -/
theorem isDue_iff {now : Instant} {n : ℕ} {last resume : Option Instant} :
    closeIntentIsDue now n last resume = true ↔ (∀ r, resume = some r → r ≤ now) ∧
      ∀ l, last = some l → n = 0 ∨ wait n ≤ now - l := by
  have passed : ∀ l, (n = 0 ∨ wait n ≤ now - l) ↔ (decide (n = 0) ||
      decide (backoffDelay n closeDrainBackoffBase closeDrainBackoffCap ≤ now - l)) = true := by
    intro l
    rw [Bool.or_eq_true, decide_eq_true_eq, decide_eq_true_eq]
    by_cases zero : n = 0
    · simp [zero]
    · rw [wait_of_pos zero]
  have free : (∀ r, resume = some r → r ≤ now) ↔
      resume.any (fun resume => decide (now < resume)) = false := by
    cases resume <;> simp
  cases held : resume.any fun resume => decide (now < resume) with
  | true => simp [closeIntentIsDue, free, held]
  | false =>
    rw [free]
    cases last with
    | none => simp [closeIntentIsDue, held]
    | some l => simp [closeIntentIsDue, held, passed]

/-! ## An intent's history with one attempt more -/

section History
variable {store : CloseStore} {intentId : ℕ}

theorem spentAttempts_append (store : CloseStore) (attempt : AttemptRow) (intentId : ℕ) :
    spentAttempts { store with attempts := store.attempts ++ [attempt] }
    intentId = spentAttempts store intentId ++
      if attempt.intentId = intentId ∧ attempt.outcome ≠ .deferred then [attempt] else [] := by
  rw [spentAttempts, List.filter_append, List.filter_singleton, spentAttempts]
  simp only [Bool.cond_decide]

theorem deferrals_append (store : CloseStore) (attempt : AttemptRow) (intentId : ℕ) :
    deferrals { store with attempts := store.attempts ++ [attempt] }
    intentId = deferrals store intentId ++
      if attempt.intentId = intentId ∧ attempt.outcome = .deferred then
        [(attempt, store.attempts.length)] else [] := by
  rw [deferrals, List.zipIdx_append, List.filter_append, deferrals]
  simp only [List.zipIdx_singleton, List.filter_singleton, Bool.cond_decide, Nat.zero_add]

theorem deferral_below {row : AttemptRow × ℕ} (mem : row ∈ deferrals store intentId) :
    row.2 < store.attempts.length := by
  have listed := (List.mem_filter.mp mem).1
  have below := List.mem_zipIdx listed
  omega

/-- The row is the pending intent the id names. -/
theorem pendingIntentId_some {chunkId : ChunkId} {ref : WorkRef}
    (found : pendingIntentId store chunkId ref = some intentId) :
    ∃ row, store.intents.rows[intentId]? = some row ∧ row.key = (chunkId, ref) ∧
      row.retiredAt = none := by
  obtain ⟨below, is, -⟩ := List.findIdx?_eq_some_iff_getElem.mp found
  have both := of_decide_eq_true is
  exact ⟨_, List.getElem?_eq_getElem below, both.1, both.2⟩

end History

/-- An attempt counted and dated at `at_`, over the same resume time: the wait before the next is
longer, or stands at its cap. -/
structure Lengthened (before after : PendingCloseIntent) (at_ : Instant) : Prop where
  counted : after.attemptCount = before.attemptCount + 1
  dated : ∃ last, after.lastAttemptAt = some last ∧ at_ ≤ last ∧
    (before.lastAttemptAt = none → last = at_) ∧
    ∀ l, before.lastAttemptAt = some l → last = max l at_
  resumes : after.resumeAt = before.resumeAt
  longer : wait before.attemptCount < wait after.attemptCount ∨
    wait before.attemptCount = closeDrainBackoffCap ∧
      wait after.attemptCount = closeDrainBackoffCap
  due : ∀ now, after.isDue now = true → at_ + wait after.attemptCount ≤ now

/-- An attempt neither counted nor dated: only the resume time moves, to the deferral's own where no
other is dated later. -/
structure Deferred (before after : PendingCloseIntent) (resumeAt : Instant) (newest : Prop) : Prop
    where
  counted : after.attemptCount = before.attemptCount
  dated : after.lastAttemptAt = before.lastAttemptAt
  resumes : newest → after.resumeAt = some resumeAt
  stays : ¬ newest → after.resumeAt = before.resumeAt
  due : newest → ∀ now, after.isDue now = true ↔ resumeAt ≤ now ∧
    closeIntentIsDue now before.attemptCount before.lastAttemptAt none = true

theorem max?_append {values : List Instant} {v : Instant} :
    (values ++ [v]).max? = some ((values.max?.map (max · v)).getD v) := by
  cases values with
  | nil => rfl
  | cons first rest =>
    rw [List.cons_append, List.max?_cons', List.max?_cons', List.foldl_append]
    rfl

section Attempts
variable {store : CloseStore} {chunkId : ChunkId} {pointer : WorkRef} {at_ resumeAt : Instant}
  {intentId : ℕ} {row : CloseIntentRow} {reason : Option String}

/-- A failed attempt adds to the attempts alone. -/
theorem failed_attempts (found : pendingIntentId store chunkId pointer = some intentId) :
    (recordWorkItemClosure store chunkId pointer .failed reason at_).1.attempts =
        store.attempts ++ [⟨intentId, at_, .failed, none⟩] ∧
      (recordWorkItemClosure store chunkId pointer .failed reason at_).1.intents = store.intents := by
  rcases record_cases store chunkId pointer .failed reason at_ with ⟨-, is⟩ | ⟨closures, -, is⟩
  · rw [is]
    show (tickBackoff store chunkId pointer at_).attempts = _ ∧
      (tickBackoff store chunkId pointer at_).intents = _
    rw [tickBackoff, found]
    exact ⟨rfl, rfl⟩
  · have same : pendingIntentId { store with closures } chunkId pointer = some intentId := found
    rw [is]
    show (tickBackoff { store with closures } chunkId pointer at_).attempts = _ ∧
      (tickBackoff { store with closures } chunkId pointer at_).intents = _
    rw [tickBackoff, same]
    exact ⟨rfl, rfl⟩

/-- The history read off the attempts alone. -/
theorem pendingIntent_congr {after : CloseStore} (same : after.attempts = store.attempts)
    (row : CloseIntentRow) (intentId : ℕ) :
    pendingIntent after row intentId = pendingIntent store row intentId := by
  simp only [pendingIntent, spentAttempts, newestDeferral, deferrals, same]

theorem lengthened (store : CloseStore) (row : CloseIntentRow) (intentId : ℕ) (at_ : Instant) :
    Lengthened (pendingIntent store row intentId)
      (pendingIntent { store with attempts := store.attempts ++ [⟨intentId, at_, .failed, none⟩] }
        row intentId) at_ := by
  have spent := spentAttempts_append store ⟨intentId, at_, .failed, none⟩ intentId
  rw [if_pos ⟨rfl, by simp⟩] at spent
  have held := deferrals_append store ⟨intentId, at_, .failed, none⟩ intentId
  rw [if_neg (by simp), List.append_nil] at held
  have counted : (pendingIntent { store with
      attempts := store.attempts ++ [⟨intentId, at_, .failed, none⟩] } row intentId).attemptCount =
      (pendingIntent store row intentId).attemptCount + 1 := by
    simp [pendingIntent, spent]
  have dated : (pendingIntent { store with
      attempts := store.attempts ++ [⟨intentId, at_, .failed, none⟩] } row intentId).lastAttemptAt =
      some (((pendingIntent store row intentId).lastAttemptAt.map (max · at_)).getD at_) := by
    simp only [pendingIntent, spent, List.map_append, List.map_singleton, max?_append]
  have late : at_ ≤ ((pendingIntent store row intentId).lastAttemptAt.map (max · at_)).getD at_ := by
    cases (pendingIntent store row intentId).lastAttemptAt with
    | none => exact le_refl at_
    | some last => exact le_max_right last at_
  refine ⟨counted, ⟨_, dated, late, ?_, ?_⟩, ?_, ?_, ?_⟩
  · intro none_
    rw [none_]
    rfl
  · intro l is
    rw [is]
    rfl
  · simp only [pendingIntent, newestDeferral, held]
  · rw [counted]
    rcases (wait_le_cap (pendingIntent store row intentId).attemptCount).lt_or_eq with below | at_cap
    · exact .inl (wait_lengthens below)
    · exact .inr ⟨at_cap, wait_stands at_cap⟩
  · intro now due
    have passed := (isDue_iff.mp due).2 _ dated
    rw [counted] at passed ⊢
    rcases passed with zero | over_
    · exact absurd zero (Nat.succ_ne_zero _)
    · linarith

/-- A failed close of a pending intent lengthens its backoff. -/
theorem failed_lengthens (found : pendingIntentId store chunkId pointer = some intentId)
    (row : CloseIntentRow) : Lengthened (pendingIntent store row intentId)
      (pendingIntent (recordWorkItemClosure store chunkId pointer .failed reason at_).1 row intentId)
      at_ := by
  have same : pendingIntent (recordWorkItemClosure store chunkId pointer .failed reason at_).1 row
      intentId = pendingIntent { store with
        attempts := store.attempts ++ [⟨intentId, at_, .failed, none⟩] } row intentId :=
    pendingIntent_congr (failed_attempts found).1 row intentId
  rw [same]
  exact lengthened store row intentId at_

/-- No other deferral of the intent is dated later. -/
def NewestAt (store : CloseStore) (intentId : ℕ) (at_ : Instant) : Prop :=
  ∀ row ∈ deferrals store intentId, row.1.attemptedAt ≤ at_

theorem newestDeferral_append (store : CloseStore) (intentId : ℕ) (at_ resumeAt : Instant) :
    (NewestAt store intentId at_ → newestDeferral (recordCloseAttemptDeferred store intentId at_
        resumeAt) intentId = some (⟨intentId, at_, .deferred, some resumeAt⟩, store.attempts.length)) ∧
      (¬ NewestAt store intentId at_ → newestDeferral (recordCloseAttemptDeferred store intentId at_
        resumeAt) intentId = newestDeferral store intentId) := by
  have held := deferrals_append store ⟨intentId, at_, .deferred, some resumeAt⟩ intentId
  rw [if_pos ⟨rfl, rfl⟩] at held
  have best : newestDeferral (recordCloseAttemptDeferred store intentId at_ resumeAt) intentId =
      Option.casesOn (newestDeferral store intentId)
        (some (⟨intentId, at_, .deferred, some resumeAt⟩, store.attempts.length)) fun c =>
          if toLex (c.1.attemptedAt, c.2) < toLex (at_, store.attempts.length) then
            some (⟨intentId, at_, .deferred, some resumeAt⟩, store.attempts.length)
          else some c := by
    rw [newestDeferral, recordCloseAttemptDeferred, held, List.argmax_concat]
    rfl
  cases newest : newestDeferral store intentId with
  | none =>
    rw [newest] at best
    refine ⟨fun _ => best, fun later => ?_⟩
    have empty := List.argmax_eq_none.mp newest
    exact absurd (by simp [NewestAt, empty]) later
  | some c =>
    rw [newest] at best
    have mem := List.argmax_mem newest
    have below := deferral_below mem
    have less : toLex (c.1.attemptedAt, c.2) < toLex (at_, store.attempts.length) ↔
        NewestAt store intentId at_ := by
      rw [Prod.Lex.toLex_lt_toLex]
      constructor
      · intro earlier row among
        have least : row.1.attemptedAt ≤ c.1.attemptedAt := by
          have le := List.le_of_mem_argmax among newest
          rw [Prod.Lex.toLex_le_toLex] at le
          exact le.elim le_of_lt fun same => same.1.le
        have most : c.1.attemptedAt ≤ at_ := earlier.elim le_of_lt fun same => same.1.le
        exact least.trans most
      · intro all
        rcases (all c mem).lt_or_eq with before | same
        · exact .inl before
        · exact .inr ⟨same, below⟩
    refine ⟨fun all => ?_, fun later => ?_⟩
    · rw [best]
      exact if_pos (less.mpr all)
    · rw [best]
      exact if_neg (mt less.mp later)

theorem deferred (store : CloseStore) (row : CloseIntentRow) (intentId : ℕ)
    (at_ resumeAt : Instant) :
    Deferred (pendingIntent store row intentId)
      (pendingIntent (recordCloseAttemptDeferred store intentId at_ resumeAt) row intentId) resumeAt
      (NewestAt store intentId at_) := by
  have spent := spentAttempts_append store ⟨intentId, at_, .deferred, some resumeAt⟩ intentId
  rw [if_neg (fun both => both.2 rfl), List.append_nil] at spent
  obtain ⟨newest, older⟩ := newestDeferral_append store intentId at_ resumeAt
  have counted : (pendingIntent (recordCloseAttemptDeferred store intentId at_ resumeAt) row
      intentId).attemptCount = (pendingIntent store row intentId).attemptCount := by
    simp only [pendingIntent, recordCloseAttemptDeferred, spent]
  have dated : (pendingIntent (recordCloseAttemptDeferred store intentId at_ resumeAt) row
      intentId).lastAttemptAt = (pendingIntent store row intentId).lastAttemptAt := by
    simp only [pendingIntent, recordCloseAttemptDeferred, spent]
  have resumes : NewestAt store intentId at_ → (pendingIntent (recordCloseAttemptDeferred store
      intentId at_ resumeAt) row intentId).resumeAt = some resumeAt := by
    intro all
    rw [pendingIntent, newest all]
    rfl
  refine ⟨counted, dated, resumes, ?_, ?_⟩
  · intro later
    rw [pendingIntent, older later, pendingIntent]
  · intro all now
    rw [PendingCloseIntent.isDue, isDue_iff, resumes all, counted, dated, isDue_iff]
    simp

end Attempts

end Blizzard.CloseBackoff
