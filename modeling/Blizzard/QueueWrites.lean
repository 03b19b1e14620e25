import Blizzard.QueueRanking
import Blizzard.StatusCounts
import Blizzard.ChunkLevers

/-! # Ranking writes

The ready queue and the backlog, each ranked by the newest position fact of its
members: a whole-order replacement, a single chunk's reposition, and the landing
of a chunk that enters a list. A write is one unit under the lists' locks. -/
namespace Blizzard.QueueWrites
open HubTables StatusLadder FactLoading StatusCounts ChunkLevers SortedRanks FloatSlots QueueRanking

structure QueuePositionRow where
  chunkId : ChunkId
  position : ℚ
  setAt : Instant
  deriving DecidableEq, Repr

/-- One tenant's tables, the chunks' `minted_at` column and the queue position facts. -/
structure QueueTables where
  tables : Tables
  mintedAt : ChunkId → Instant
  queuePositions : List QueuePositionRow := []

inductive QueueList | ready | notReady
  deriving DecidableEq, Repr

/-- The status a list's members stand at, and its reorder verb is legal from. -/
def QueueList.status : QueueList → ChunkStatus
  | .ready => .ready
  | .notReady => .notReady

def QueueList.other : QueueList → QueueList
  | .ready => .notReady
  | .notReady => .ready

abbrev Statuses := List (ChunkId × ChunkStatus)

/-! ## Reads -/

/-- The derived status of every chunk that is not terminal. -/
def loadLiveStatuses (tables : Tables) : Statuses :=
  (maybeLiveStatuses tables none).filter fun entry => decide (entry.2 ∉ terminalStatuses)

/-- The chunks of these ids that are not ephemeral. -/
def getMany (q : QueueTables) (ids : List ChunkId) : List Chunk :=
  (q.tables.chunks.rows.filter fun row =>
    decide (row.chunkId ∈ ids) && !isEphemeralId q.tables row.chunkId).map fun row =>
      ⟨row.chunkId, row.projectId, q.mintedAt row.chunkId⟩

def listedWithStatus (q : QueueTables) (status : ChunkStatus) : List Chunk :=
  getMany q (((loadLiveStatuses q.tables).filter fun entry => decide (entry.2 = status)).map (·.1))

/-- A list's members. -/
def candidates (q : QueueTables) (list : QueueList) : List Chunk := listedWithStatus q list.status

/-- The paused chunks only a pause withholds from `ready`. -/
def withheldByPause (tables : Tables) : List ChunkId :=
  (((loadLiveStatuses tables).filter fun entry => decide (entry.2 = .paused)).map (·.1)).filter
    fun chunkId => (loadChunkFacts tables statusFamilies chunkId).any fun facts =>
      facts.isReadyButForPause

/-- The chunks the ready queue ranks. -/
def readyMembers (q : QueueTables) : List Chunk :=
  candidates q .ready ++ getMany q (withheldByPause q.tables)

/-- The newest explicit positions and the current promotions' instants. -/
def readRanking (q : QueueTables) : QueueRanking where
  positions := newestPosition (q.queuePositions.map fun row => (row.chunkId, row.position))
  promotedAts chunkId :=
    if currentlyPromoted q.tables chunkId then newestInstant (promotedInstants q.tables chunkId)
    else none

/-- A list's chunks in order. -/
def ordered (q : QueueTables) (list : QueueList) : List Chunk :=
  (readRanking q).ordered (candidates q list)

/-! ## Writes -/

def recordQueuePositions (q : QueueTables) (positions : List (ChunkId × ℚ)) (at_ : Instant) :
    QueueTables :=
  { q with queuePositions :=
      q.queuePositions ++ positions.map fun pair => ⟨pair.1, pair.2, at_⟩ }

/-- A pair that names a currently promoted chunk is dropped. -/
def recordBacklogPositions (q : QueueTables) (positions : List (ChunkId × ℚ)) (at_ : Instant) :
    QueueTables :=
  recordQueuePositions q (positions.filter fun pair => !currentlyPromoted q.tables pair.1) at_

def writePositions (q : QueueTables) (list : QueueList) (positions : List (ChunkId × ℚ))
    (at_ : Instant) : QueueTables :=
  match list with
  | .notReady => recordBacklogPositions q positions at_
  | .ready => recordQueuePositions q positions at_

def insertPromoteRows (q : QueueTables) (chunkId : ChunkId) (position : ℚ) (at_ : Instant) :
    QueueTables :=
  { q with
    tables := insertPromoted q.tables chunkId at_
    queuePositions := q.queuePositions ++
      [⟨chunkId, position, afterNewest (newestInstant (demotedInstants q.tables chunkId)) at_⟩] }

def insertDemoteRows (q : QueueTables) (chunkId : ChunkId) (position : ℚ) (at_ : Instant) :
    QueueTables :=
  { q with
    tables := insertDemoted q.tables chunkId at_
    queuePositions := q.queuePositions ++
      [⟨chunkId, position, afterNewest (newestInstant (promotedInstants q.tables chunkId)) at_⟩] }

/-! ## Operations -/

inductive QueueRefused
  | duplicateReorderIds | selfAnchoredMove
  | notInList (chunkId : ChunkId) (expected : QueueList) (actual : Option QueueList)
  | chunkNotFound | notPromotable | notDemotable | gapSpent
  deriving DecidableEq, Repr

/-- The refusal of a chunk outside a list, naming the other list when it stands there. -/
def outside (chunkId : ChunkId) (expected : QueueList) (statuses : Statuses) : QueueRefused :=
  .notInList chunkId expected
    (if statuses.lookup chunkId = some expected.other.status then some expected.other else none)

/-- The order a ranking write left a list in, and the statuses it was decided on. -/
structure RankedOrder where
  ordered : List Chunk
  statuses : Statuses
  deriving DecidableEq, Repr

def member (chunks : List Chunk) (chunkId : ChunkId) : Option Chunk :=
  chunks.find? fun chunk => decide (chunk.chunkId = chunkId)

/-- The named chunks first, in the order named, then every other in its current order. -/
def replacementOrder (list : QueueList) (current : List Chunk) (named : List ChunkId)
    (statuses : Statuses) : Except QueueRefused (List Chunk) :=
  if ¬ named.Nodup then .error .duplicateReorderIds
  else
    match named.find? fun chunkId => (member current chunkId).isNone with
    | some chunkId => .error (outside chunkId list statuses)
    | none =>
      .ok (named.filterMap (member current) ++
        current.filter fun chunk => decide (chunk.chunkId ∉ named))

/-- Replace a list's whole order. -/
def reorder (q : QueueTables) (list : QueueList) (named : List ChunkId) (at_ : Instant) :
    Except QueueRefused (RankedOrder × QueueTables) :=
  let statuses := loadLiveStatuses q.tables
  match replacementOrder list (ordered q list) named statuses with
  | .error refused => .error refused
  | .ok order =>
    let positions := order.zipIdx.map fun entry => (entry.1.chunkId, (entry.2 : ℚ))
    .ok (⟨order, statuses⟩, writePositions q list positions at_)

/-- The member a reorder moves and the member it lands after. -/
def resolveMove (list : QueueList) (current : List Chunk) (chunkId : ChunkId)
    (after : Option ChunkId) (statuses : Statuses) : Except QueueRefused (Chunk × Option Chunk) :=
  if after = some chunkId then .error .selfAnchoredMove
  else
    match member current chunkId with
    | none => .error (outside chunkId list statuses)
    | some moving =>
      match after with
      | none => .ok (moving, none)
      | some afterId =>
        match member current afterId with
        | none => .error (outside afterId list statuses)
        | some anchor => .ok (moving, some anchor)

/-- Move one chunk right after another of its list, to the top with none. -/
def reposition (spent : ℚ → ℚ → Bool) (q : QueueTables) (list : QueueList) (chunkId : ChunkId)
    (after : Option ChunkId) (at_ : Instant) : Except QueueRefused (RankedOrder × QueueTables) :=
  let statuses := loadLiveStatuses q.tables
  let ranking := readRanking q
  match resolveMove list (candidates q list) chunkId after statuses with
  | .error refused => .error refused
  | .ok (moving, anchor) =>
    let others := ranking.ordered ((candidates q list).filter fun chunk =>
      decide (chunk.chunkId ≠ moving.chunkId))
    match ranking.landAfter spent others anchor with
    | none => .error .gapSpent
    | some landing =>
      let index := place (QueueRanking.indexOf others anchor)
      .ok (⟨others.take index ++ moving :: others.drop index, statuses⟩,
        writePositions q list (landing.renormalized ++ [(moving.chunkId, landing.position)]) at_)

/-- Where a chunk lands in the list it enters: after an anchor or at the top, not both, else at the
tail. -/
structure Placement where
  afterChunkId : Option ChunkId := none
  toTop : Bool := false
  consistent : toTop = true → afterChunkId = none := by simp
  deriving DecidableEq, Repr

/-- The landing of a chunk that enters a list, among the members it joins. -/
def resolveLanding (spent : ℚ → ℚ → Bool) (ranking : QueueRanking) (list : QueueList)
    (candidates : List Chunk) (chunkId : ChunkId) (placement : Placement) (statuses : Statuses) :
    Except QueueRefused Landing :=
  let landing (after : Option Chunk) : Except QueueRefused Landing :=
    match ranking.landAfter spent (ranking.ordered candidates) after with
    | none => .error .gapSpent
    | some landing => .ok landing
  if placement.afterChunkId = some chunkId then .error .selfAnchoredMove
  else
    match placement.afterChunkId with
    | none => if placement.toTop then landing none else .ok ⟨ranking.tail candidates, []⟩
    | some afterId =>
      match member candidates afterId with
      | none => .error (outside afterId list statuses)
      | some anchor => landing (some anchor)

/-- Land a chunk that is not promoted in the ready queue and promote it. -/
def landReady (spent : ℚ → ℚ → Bool) (q : QueueTables) (chunkId : ChunkId) (placement : Placement)
    (at_ : Instant) : Except QueueRefused QueueTables :=
  match resolveLanding spent (readRanking q) .ready (readyMembers q) chunkId placement
      (loadLiveStatuses q.tables) with
  | .error refused => .error refused
  | .ok landing =>
    .ok (insertPromoteRows (writePositions q .ready landing.renormalized at_) chunkId
      landing.position at_)

/-- Promote a chunk; nothing for one currently promoted. -/
def promote (spent : ℚ → ℚ → Bool) (q : QueueTables) (chunkId : ChunkId) (placement : Placement)
    (at_ : Instant) : Except QueueRefused (Option QueueTables) :=
  match loadFacts q.tables chunkId with
  | none => .error .chunkNotFound
  | some facts =>
    if facts.promoted then .ok none
    else if !isPromotable facts then .error .notPromotable
    else (landReady spent q chunkId placement at_).map some

/-- The fresh chunk a cadence mints lands at the ready queue's tail. -/
def land (spent : ℚ → ℚ → Bool) (q : QueueTables) (chunkId : ChunkId) (at_ : Instant) :
    Except QueueRefused QueueTables :=
  landReady spent q chunkId {} at_

/-- Demote a chunk into the backlog; nothing for one not currently promoted. -/
def demote (spent : ℚ → ℚ → Bool) (q : QueueTables) (chunkId : ChunkId) (placement : Placement)
    (at_ : Instant) : Except QueueRefused (Option QueueTables) :=
  match loadFacts q.tables chunkId with
  | none => .error .chunkNotFound
  | some facts =>
    if !facts.promoted then .ok none
    else if !facts.admits .demote && !facts.isReadyButForPause then .error .notDemotable
    else
      match resolveLanding spent (readRanking q) .notReady (candidates q .notReady) chunkId placement
          (loadLiveStatuses q.tables) with
      | .error refused => .error refused
      | .ok landing =>
        .ok (some (insertDemoteRows (writePositions q .notReady landing.renormalized at_) chunkId
          landing.position at_))

end Blizzard.QueueWrites
