import Blizzard.HubTables

/-! # Terminal-fact predicates

The correlated `EXISTS` queries that decide, in SQL, whether a chunk is stopped
or done. Each table is scanned for rows of the chunk the outer row names. -/
namespace Blizzard.TerminalPredicates
open HubTables

/-- The movement stamped `(recordedAt, epoch)` is not older than the terminal transition. -/
def notOlder (recordedAt : Instant) (epoch : ℤ) (terminal : TransitionRow) : Bool :=
  decide (terminal.recordedAt < recordedAt) ||
    (decide (recordedAt = terminal.recordedAt) && decide (terminal.epoch ≤ epoch))

/-- A transition into the reserved terminal that no later movement supersedes. -/
def unsupersededTerminal (tables : Tables) (terminal : TransitionRow) : Bool :=
  let superseded :=
    (tables.transitions.any fun other =>
      decide (other.chunkId = terminal.chunkId) &&
        notOlder other.recordedAt other.epoch terminal &&
          (decide (other.toNodeId ≠ reservedTerminal) ||
            decide (terminal.recordedAt < other.recordedAt))) ||
    (tables.chunkMigrations.any fun migration =>
      decide (migration.chunkId = terminal.chunkId) &&
        notOlder migration.recordedAt migration.epoch terminal) ||
    (tables.chunkRestarts.any fun restart =>
      decide (restart.chunkId = terminal.chunkId) &&
        notOlder restart.recordedAt restart.epoch terminal)
  decide (terminal.toNodeId = reservedTerminal) && !superseded

/-- The chunk's newest movement is a transition into the reserved terminal,
recorded before `finishedBefore` where one is given. -/
def doneByTransition (tables : Tables) (chunkId : ChunkId) (finishedBefore : Option Instant) :
    Bool :=
  tables.transitions.any fun terminal =>
    decide (terminal.chunkId = chunkId) && unsupersededTerminal tables terminal &&
      finishedBefore.all fun instant => decide (terminal.recordedAt < instant)

/-- The chunk is stopped or done. -/
def chunkIsTerminal (tables : Tables) (chunkId : ChunkId) : Bool :=
  (tables.chunkStopped.any fun row => decide (row.chunkId = chunkId)) ||
    (tables.chunkCompleted.any fun row => decide (row.chunkId = chunkId)) ||
    doneByTransition tables chunkId none

/-- The prefilter of the live fleet. -/
def maybeLive (tables : Tables) (chunkId : ChunkId) : Bool :=
  !chunkIsTerminal tables chunkId

/-- A stop no operator completion at or after it outranks. -/
def settledStopped (tables : Tables) (chunkId : ChunkId) : Bool :=
  tables.chunkStopped.any fun stop =>
    decide (stop.chunkId = chunkId) &&
      !(tables.chunkCompleted.any fun completion =>
        decide (completion.chunkId = stop.chunkId) &&
          decide (stop.stoppedAt ≤ completion.completedAt))

/-- The chunk derives `done`, finished before `finishedBefore` where one is given. -/
def settledDone (tables : Tables) (chunkId : ChunkId) (finishedBefore : Option Instant) : Bool :=
  let byCompletion :=
    (tables.chunkCompleted.any fun completion =>
      decide (completion.chunkId = chunkId) &&
        !(tables.chunkStopped.any fun stop =>
          decide (stop.chunkId = completion.chunkId) &&
            decide (completion.completedAt < stop.stoppedAt))) &&
    finishedBefore.all fun instant =>
      !(tables.chunkCompleted.any fun completion =>
        decide (completion.chunkId = chunkId) && decide (instant ≤ completion.completedAt))
  let byTransition :=
    !(tables.chunkStopped.any fun stop => decide (stop.chunkId = chunkId)) &&
      !(tables.chunkCompleted.any fun completion => decide (completion.chunkId = chunkId)) &&
      doneByTransition tables chunkId finishedBefore
  byCompletion || byTransition

end Blizzard.TerminalPredicates
