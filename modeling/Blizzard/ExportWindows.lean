import Blizzard.TraceSteps
import Blizzard.KeysetPaging

/-! # Windows of the trace corpus

A window reads the chunks with a closing fact between two instants, a bounded number of rows of each
closing table, and selects the items those chunks' whole facts prove. Its position is where a reader
that told every item of it may go on from. -/
namespace Blizzard.ExportWindows
open HubTables TraceSteps

/-! ## The corpus -/

/-- The fact tables the corpus is read from. -/
inductive FactTable
  | chunks | transitions | decisions | migrations | escalations | restarts | routeReleased
  | chunkStopped | chunkCompleted | epochOwners | leaseFacts | requeues
  deriving DecidableEq, Repr

def tableOf : Fact → FactTable
  | .minted _ => .chunks
  | .lease _ => .leaseFacts
  | .owner _ => .epochOwners
  | .transition _ => .transitions
  | .migration _ => .migrations
  | .restart _ => .restarts
  | .escalation _ => .escalations
  | .decision _ => .decisions
  | .requeue _ => .requeues
  | .released _ => .routeReleased
  | .stopped _ => .chunkStopped
  | .completed _ => .chunkCompleted

/-- The tables the registry marks closing, in its order. -/
def closingTables : List FactTable :=
  [.transitions, .decisions, .migrations, .escalations, .restarts, .routeReleased, .chunkStopped,
    .chunkCompleted, .epochOwners]

/-- A row of a fact table: its place in the table's id order, its chunk, and what it says. -/
structure FactRow where
  rowId : ℕ
  chunkId : ChunkId
  named : chunkId ≠ ""
  fact : Fact
  deriving DecidableEq

def FactRow.table (row : FactRow) : FactTable := tableOf row.fact

def FactRow.at_ (row : FactRow) : Instant := row.fact.at_

def FactRow.decisionId? (row : FactRow) : Option String :=
  match row.fact with
  | .decision d => some d.decisionId
  | _ => none

/-- The facts of every open tenant's chunks, each table under its primary key. -/
structure Corpus where
  rows : List FactRow
  keyed : (rows.map fun row => (row.table, row.rowId)).Nodup
  decided : (rows.filterMap (·.decisionId?)).Nodup

/-- One chunk's facts. -/
def stepFactsFor (corpus : Corpus) (chunkId : ChunkId) : StepFacts :=
  { chunkId, rows := (corpus.rows.filter (·.chunkId = chunkId)).map (·.fact) }

/-! ## Closing candidates -/

/-- The order a closing table's pages come in. -/
def FactRow.pageKey (row : FactRow) : Instant ×ₗ ℕ := toLex (row.at_, row.rowId)

/-- One table's rows up to an instant in `(time, id)` order. -/
def tableRows (corpus : Corpus) (table : FactTable) (until_ : Instant) : List FactRow :=
  (corpus.rows.filter fun row => row.table = table ∧ row.at_ ≤ until_).insertionSort
    fun a b => a.pageKey ≤ b.pageKey

/-- A page after a row: later, or of its instant with a higher id. -/
def pageAfter (window : List FactRow) (last : FactRow) (limit : ℕ) : List FactRow :=
  (window.filter fun row => last.at_ ≤ row.at_ ∧ ¬(row.at_ = last.at_ ∧ row.rowId ≤ last.rowId)).take
    limit

/-- Page on while a full page has not left `since`; whether the last page was full. -/
def pageOn (window : List FactRow) (since : Instant) (limit : ℕ) :
    ℕ → List FactRow → List FactRow → List FactRow × Bool
  | 0, rows, page => (rows, page.length = limit)
  | fuel + 1, rows, page =>
    match rows.getLast? with
    | some last =>
      if page.length = limit ∧ last.at_ = since then
        let next := pageAfter window last limit
        pageOn window since limit fuel (rows ++ next) next
      else (rows, page.length = limit)
    | none => (rows, page.length = limit)

/-- One table's rows from `since` on, and whether more may be left. -/
def closingRows (corpus : Corpus) (table : FactTable) (since until_ : Instant) (limit : ℕ) :
    List FactRow × Bool :=
  let window := tableRows corpus table until_
  let page := (window.filter (since ≤ ·.at_)).take limit
  pageOn window since limit (window.length + 1) page page

structure ClosingCandidates where
  chunkIds : List ChunkId
  frontier : Option Instant
  newest : Option Instant
  deriving DecidableEq, Repr

/-- Every chunk with a closing fact in `[since, until]`, as far as each table's page reaches. -/
def closingCandidates (corpus : Corpus) (since until_ : Instant) (limit : ℕ) :
    ClosingCandidates :=
  let read := closingTables.map fun table => closingRows corpus table since until_ limit
  { chunkIds := (read.flatMap fun r => r.1.map (·.chunkId)).dedup
    newest := (read.filterMap fun r => r.1.getLast?.map (·.at_)).max?
    frontier := ((read.filter (·.2)).filterMap fun r => r.1.getLast?.map (·.at_)).min? }

/-! ## Items and windows -/

/-- A closed step, or a chunk told as a whole at its finish or its later hand-completion. -/
inductive TraceItem
  | closedStep (key : CursorKey) (step : NodeStep) (facts : StepFacts)
  | finishedChunk (key : CursorKey) (facts : StepFacts) (completion : Bool)

def TraceItem.key : TraceItem → CursorKey
  | .closedStep key _ _ => key
  | .finishedChunk key _ _ => key

def closedSteps (facts : StepFacts) : List TraceItem :=
  (identifySteps facts).filterMap fun step =>
    step.close.map fun close => .closedStep (CursorKey.of step close) step facts

def chunkItems (facts : StepFacts) : List TraceItem :=
  match chunkEnd facts, facts.mintedAt with
  | some finish, some _ =>
    .finishedChunk (CursorKey.chunkFinished finish.at_ facts.chunkId) facts false ::
      (completionInstant facts).toList.map fun completed =>
        .finishedChunk (CursorKey.chunkCompleted completed facts.chunkId) facts true
  | _, _ => []

def itemsOf (facts : StepFacts) : List TraceItem := closedSteps facts ++ chunkItems facts

/-- Up to a limit of items in cursor order, and where a pass that told every one of them may move
the cursor. -/
structure TraceWindow where
  items : List TraceItem
  position : CursorKey

/-- The items after `since` and at or before `until`, short of the frontier, the first `limit` by
key. -/
def selectWindow (facts : List StepFacts) (since : CursorKey) (until_ : Instant)
    (frontier : Option Instant) (limit : ℕ) (newest : Option Instant) : TraceWindow :=
  let admitted := fun item : TraceItem =>
    item.key.at_ ≤ until_ ∧ (∀ f ∈ frontier, item.key.at_ < f) ∧ since < item.key
  let closed := (facts.flatMap fun chunk => (itemsOf chunk).filter fun item => admitted item)
    |>.insertionSort fun a b => a.key ≤ b.key
  let told := closed.take limit
  let last := (told.getLast?.map (·.key)).getD since
  if limit < closed.length then ⟨told, last⟩
  else
    match frontier, newest with
    | some f, _ => ⟨told, CursorKey.opening f⟩
    | none, some n => ⟨told, max (CursorKey.past n) since⟩
    | none, none => ⟨told, last⟩

def readWindow (corpus : Corpus) (since : CursorKey) (until_ : Instant) (limit : ℕ) :
    TraceWindow :=
  let candidates := closingCandidates corpus since.at_ until_ limit
  selectWindow (candidates.chunkIds.map (stepFactsFor corpus)) since until_ candidates.frontier
    limit candidates.newest

/-- Repeated windows, each from the position of the one before, until one stands still. -/
def drain (corpus : Corpus) (until_ : Instant) (limit : ℕ) :
    ℕ → CursorKey → Option (List TraceItem)
  | 0, _ => none
  | fuel + 1, since =>
    let window := readWindow corpus since until_ limit
    if window.position = since then some window.items
    else (drain corpus until_ limit fuel window.position).map (window.items ++ ·)

/-- Every item of the corpus in key order. -/
def corpusItems (corpus : Corpus) : List TraceItem :=
  ((corpus.rows.map (·.chunkId)).dedup.flatMap fun chunk => itemsOf (stepFactsFor corpus chunk))
    |>.insertionSort fun a b => a.key ≤ b.key

/-- What is to be told after a key up to an instant. -/
def owed (corpus : Corpus) (since : CursorKey) (until_ : Instant) : List TraceItem :=
  (corpusItems corpus).filter fun item => since < item.key ∧ item.key.at_ ≤ until_

end Blizzard.ExportWindows
