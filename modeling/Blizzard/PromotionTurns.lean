import Blizzard.QueueWrites

/-! # Promotion under any clock

A chunk is promoted while its newest promotion is strictly later than its newest
demotion. Every promote is stamped past the newest demotion and every demote at or
past the newest promotion's next microsecond, so the two maxima always stand in the
order of the last write, whatever the clock reads. -/
namespace Blizzard.PromotionTurns
open HubTables FactLoading ChunkLevers QueueWrites

/-- Whether a read of the batch looks at the chunk; no batch looks at every chunk. -/
def asked (batch : Option (List ChunkId)) (chunkId : ChunkId) : Bool :=
  batch.all fun ids => decide (chunkId ∈ ids)

/-- The newest instant of a fact table's column per chunk of the batch. -/
def newestInstants (column : Tables → ChunkId → List Instant) (tables : Tables)
    (batch : Option (List ChunkId)) (chunkId : ChunkId) : Option Instant :=
  if asked batch chunkId then newestInstant (column tables chunkId) else none

/-- Each currently promoted chunk's newest promotion, among the batch. -/
def currentlyPromotedAts (tables : Tables) (batch : Option (List ChunkId)) (chunkId : ChunkId) :
    Option Instant :=
  (newestInstants promotedInstants tables batch chunkId).filter fun at_ =>
    (newestInstants demotedInstants tables batch chunkId).all fun demotedAt =>
      decide (demotedAt < at_)

/-- The two levers that write a promotion fact. -/
inductive Lever
  | promote | demote
  deriving DecidableEq, Repr

/-- One write: the chunk, the lever, the queue position it files and the clock's reading. -/
structure PromotionWrite where
  chunkId : ChunkId
  lever : Lever
  position : ℚ
  at_ : Instant
  deriving DecidableEq, Repr

def PromotionWrite.apply (q : QueueTables) (write : PromotionWrite) : QueueTables :=
  match write.lever with
  | .promote => insertPromoteRows q write.chunkId write.position write.at_
  | .demote => insertDemoteRows q write.chunkId write.position write.at_

def runWrites (q : QueueTables) (writes : List PromotionWrite) : QueueTables :=
  writes.foldl PromotionWrite.apply q

/-- The lever of the last write on a chunk; before any, the one its rows stand for. -/
def lastLever (q : QueueTables) (writes : List PromotionWrite) (chunkId : ChunkId) : Lever :=
  match (writes.filter fun write => write.chunkId = chunkId).getLast? with
  | some write => write.lever
  | none => if currentlyPromoted q.tables chunkId then .promote else .demote

/-- The batched read and the one the chunk's facts load agree. -/
theorem currentlyPromotedAts_isSome (tables : Tables) (batch : Option (List ChunkId))
    (chunkId : ChunkId) : (currentlyPromotedAts tables batch chunkId).isSome =
      (asked batch chunkId && currentlyPromoted tables chunkId) := by
  rw [currentlyPromotedAts, newestInstants, newestInstants, currentlyPromoted]
  cases looked : asked batch chunkId with
  | false => simp
  | true =>
    cases newestInstant (promotedInstants tables chunkId) with
    | none => simp
    | some promotedAt =>
      cases newestInstant (demotedInstants tables chunkId) with
      | none => simp [Option.filter]
      | some demotedAt =>
        by_cases later : demotedAt < promotedAt
        · simp [Option.filter, later]
        · simp [Option.filter, later]

/-! ## The two maxima -/

variable {instants : List Instant} {at_ : Instant}

theorem newestInstant_append (instants : List Instant) (at_ : Instant) :
    newestInstant (instants ++ [at_]) = some (((newestInstant instants).map (max · at_)).getD at_) := by
  cases instants with
  | nil => rfl
  | cons instant rest =>
    simp only [newestInstant, List.cons_append, List.max?_cons', List.foldl_append, List.foldl_cons,
      List.foldl_nil, Option.map_some, Option.getD_some]

theorem at_le_afterNewest (newest : Option Instant) (now : Instant) : now ≤ afterNewest newest now := by
  cases newest with
  | none => exact Int.le_refl now
  | some instant => exact Int.le_max_left now _

/-- The stamp is strictly later than the opposing fact it supersedes. -/
theorem newest_lt_afterNewest (newest now : Instant) : newest < afterNewest (some newest) now := by
  have next : newest < newest + microsecond := Int.lt_succ newest
  exact Int.lt_of_lt_of_le next (Int.le_max_right now _)

theorem promotedInstants_insert (tables : Tables) (chunkId : ChunkId) (now : Instant) :
    promotedInstants (insertPromoted tables chunkId now) chunkId = promotedInstants tables chunkId ++
      [afterNewest (newestInstant (demotedInstants tables chunkId)) now] := by
  simp [promotedInstants, insertPromoted]

theorem demotedInstants_insert (tables : Tables) (chunkId : ChunkId) (now : Instant) :
    demotedInstants (insertDemoted tables chunkId now) chunkId = demotedInstants tables chunkId ++
      [afterNewest (newestInstant (promotedInstants tables chunkId)) now] := by
  simp [demotedInstants, insertDemoted]

/-- After a promote the newest promotion is past every demotion. -/
theorem currentlyPromoted_insertPromoted (tables : Tables) (chunkId : ChunkId) (now : Instant) :
    currentlyPromoted (insertPromoted tables chunkId now) chunkId = true := by
  have demoted : demotedInstants (insertPromoted tables chunkId now) chunkId =
      demotedInstants tables chunkId := rfl
  rw [currentlyPromoted, demoted, promotedInstants_insert, newestInstant_append]
  cases newestInstant (demotedInstants tables chunkId) with
  | none => rfl
  | some demotedAt =>
    have past := newest_lt_afterNewest demotedAt now
    cases newestInstant (promotedInstants tables chunkId) with
    | none => exact decide_eq_true past
    | some promotedAt => exact decide_eq_true (Int.lt_of_lt_of_le past (Int.le_max_right _ _))

/-- After a demote no promotion is past the newest demotion. -/
theorem currentlyPromoted_insertDemoted (tables : Tables) (chunkId : ChunkId) (now : Instant) :
    currentlyPromoted (insertDemoted tables chunkId now) chunkId = false := by
  have promoted : promotedInstants (insertDemoted tables chunkId now) chunkId =
      promotedInstants tables chunkId := rfl
  rw [currentlyPromoted, promoted, demotedInstants_insert, newestInstant_append]
  cases newestInstant (promotedInstants tables chunkId) with
  | none => rfl
  | some promotedAt =>
    have past := newest_lt_afterNewest promotedAt now
    cases newestInstant (demotedInstants tables chunkId) with
    | none => exact decide_eq_false (Int.not_lt.mpr (Int.le_of_lt past))
    | some demotedAt =>
      have covered := Int.lt_of_lt_of_le past (Int.le_max_right demotedAt _)
      exact decide_eq_false (Int.not_lt.mpr (Int.le_of_lt covered))

/-! ## One write and a run -/

theorem currentlyPromoted_own (q : QueueTables) (write : PromotionWrite) :
    currentlyPromoted (write.apply q).tables write.chunkId = decide (write.lever = .promote) := by
  obtain ⟨chunkId, lever, position, at_⟩ := write
  cases lever with
  | promote => exact currentlyPromoted_insertPromoted q.tables chunkId at_
  | demote => exact currentlyPromoted_insertDemoted q.tables chunkId at_

/-- A write leaves every other chunk's promotion as it stood. -/
theorem currentlyPromoted_apart (q : QueueTables) (write : PromotionWrite) {chunkId : ChunkId}
    (apart : write.chunkId ≠ chunkId) :
    currentlyPromoted (write.apply q).tables chunkId = currentlyPromoted q.tables chunkId := by
  obtain ⟨own, lever, position, at_⟩ := write
  have other : ¬ own = chunkId := apart
  cases lever with
  | promote =>
    simp [PromotionWrite.apply, insertPromoteRows, currentlyPromoted, promotedInstants,
      demotedInstants, insertPromoted, other]
  | demote =>
    simp [PromotionWrite.apply, insertDemoteRows, currentlyPromoted, promotedInstants,
      demotedInstants, insertDemoted, other]

theorem currentlyPromoted_run (q : QueueTables) (writes : List PromotionWrite) (chunkId : ChunkId) :
    currentlyPromoted (runWrites q writes).tables chunkId =
      decide (lastLever q writes chunkId = .promote) := by
  induction writes using List.reverseRecOn with
  | nil => cases stood : currentlyPromoted q.tables chunkId <;> simp [runWrites, lastLever, stood]
  | append_singleton writes write ih =>
    have stepped : runWrites q (writes ++ [write]) = write.apply (runWrites q writes) := by
      simp [runWrites]
    rw [stepped]
    by_cases own : write.chunkId = chunkId
    · have last : lastLever q (writes ++ [write]) chunkId = write.lever := by
        simp [lastLever, own]
      rw [last, ← own, currentlyPromoted_own]
    · have last : lastLever q (writes ++ [write]) chunkId = lastLever q writes chunkId := by
        simp [lastLever, own]
      rw [last, currentlyPromoted_apart _ _ own, ih]

/-- From any rows and under any clock readings, a batch read answers the chunks it is asked
for whose last write was a promote. -/
theorem promoted_iff_last_promote (q : QueueTables) (writes : List PromotionWrite)
    (batch : Option (List ChunkId)) (chunkId : ChunkId) :
    (currentlyPromotedAts (runWrites q writes).tables batch chunkId).isSome = true ↔
      asked batch chunkId = true ∧ lastLever q writes chunkId = .promote := by
  rw [currentlyPromotedAts_isSome, currentlyPromoted_run]
  simp

end Blizzard.PromotionTurns
