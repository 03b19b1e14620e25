import Blizzard.FactLoading
import Blizzard.TerminalPredicates

/-! # Counting chunks by status

The count settles stopped and done chunks in SQL and derives the status of the
candidates the prefilter keeps. -/
namespace Blizzard.StatusCounts
open HubTables StatusLadder FactLoading TerminalPredicates

/-- The chunks counted: those of the project, one given, that are not ephemeral. -/
def countedRows (tables : Tables) (project : Option String) : List ChunkRow :=
  tables.chunks.rows.filter fun row =>
    (project.all fun id => decide (row.projectId = id)) && !isEphemeralId tables row.chunkId

/-- Every candidate's derived status, terminal ones included. -/
def maybeLiveStatuses (tables : Tables) (project : Option String) : List (ChunkId × ChunkStatus) :=
  ((countedRows tables project).filter fun row => maybeLive tables row.chunkId).filterMap fun row =>
    (loadChunkFacts tables statusFamilies row.chunkId).map fun facts => (row.chunkId, facts.status)

def statusCounts (tables : Tables) (project : Option String) (status : ChunkStatus) : ℕ :=
  let stopped := (countedRows tables project).countP fun row => settledStopped tables row.chunkId
  let done := (countedRows tables project).countP fun row => settledDone tables row.chunkId none
  let counts := (maybeLiveStatuses tables project).countP fun entry => decide (entry.2 = status)
  match status with
  | .stopped => counts + stopped
  | .done => counts + done
  | _ => counts

/-- The fold's own count: the chunks whose loaded facts derive the status. -/
def derivedCount (tables : Tables) (project : Option String) (status : ChunkStatus) : ℕ :=
  tables.chunks.rows.countP fun row =>
    (project.all fun id => decide (row.projectId = id)) &&
      decide ((loadFacts tables row.chunkId).map (·.status) = some status)

end Blizzard.StatusCounts
