import Mathlib
import Blizzard.FindingLiveness
import Blizzard.KeysetPaging

/-! # The SQL reads over findings

The newest fact of a finding read in SQL: an anti-join for the summaries, correlated `EXISTS` for
the state predicates, and the keyset page whose filters run before its limit. -/
namespace Blizzard.FindingReads
open HubTables FindingLiveness KeysetPaging

/-- A row of `finding_facts` with its autoincremented id. -/
structure StoredFact where
  id : ℕ
  fact : FactRow
  deriving DecidableEq, Repr

def storedFacts (facts : List FactRow) : List StoredFact :=
  facts.zipIdx.map fun (fact, id) => ⟨id, fact⟩

/-- Whether `newer` comes after `fact` in `(recorded_at, id)` order. -/
def isNewer (newer fact : StoredFact) : Bool :=
  decide (fact.fact.recordedAt < newer.fact.recordedAt) ||
    (decide (newer.fact.recordedAt = fact.fact.recordedAt) && decide (fact.id < newer.id))

/-- `EXISTS` a later fact of the same finding. -/
def newerFactExists (stored : List StoredFact) (fact : StoredFact) : Bool :=
  stored.any fun newer =>
    decide (newer.fact.findingId = fact.fact.findingId) && isNewer newer fact

/-! ## The state predicates -/

/-- No fact of the finding both satisfies `kindsOk` and is its newest. -/
def noNewestFactIn (stored : List StoredFact) (findingId : String) (kindsOk : FactKind → Bool) :
    Bool :=
  !stored.any fun fact => decide (fact.fact.findingId = findingId) && kindsOk fact.fact.kind &&
    !newerFactExists stored fact

def newestFactIsLive (stored : List StoredFact) (findingId : String) : Bool :=
  noNewestFactIn stored findingId fun kind => decide (kind ∉ liveKinds)

def newestFactIsNotExited (stored : List StoredFact) (findingId : String) : Bool :=
  noNewestFactIn stored findingId fun kind => decide (kind ∈ exitKinds)

/-- The page's predicate for one state: the live one, or a newest fact of the state's own kind. -/
def newestFactIsOf (stored : List StoredFact) (findingId : String) (state : FindingState) : Bool :=
  if state = .live then newestFactIsLive stored findingId
  else !noNewestFactIn stored findingId fun kind =>
    decide (kind.text = state.text)

/-! ## The summaries -/

/-- The slice width of a bulk read. -/
def batchSize : ℕ := 500

/-- The ids in slices no longer than `batchSize`. -/
def idBatches (ids : List String) : List (List String) :=
  if ids = [] then [] else ids.take batchSize :: idBatches (ids.drop batchSize)
termination_by ids.length
decreasing_by
  have hpos : 0 < ids.length := List.length_pos_iff.mpr ‹_›
  simp only [List.length_drop, batchSize]
  omega

structure Aggregate where
  findingId : String
  firstObservedAt : Option Instant
  lastSeenAt : Option Instant
  observedCount : ℕ
  deriving DecidableEq, Repr

/-- The conditional `min`, `max` and `sum` of a group of facts. -/
def aggregateOf (findingId : String) (group : List StoredFact) : Aggregate :=
  let seenAt := group.filterMap fun f =>
    if f.fact.kind = .add || f.fact.kind = .observed then some f.fact.recordedAt else none
  { findingId
    firstObservedAt := seenAt.min?
    lastSeenAt := seenAt.max?
    observedCount := (group.map fun f => if f.fact.kind = .observed then 1 else 0).sum }

/-- The facts of a batch grouped by finding. -/
def aggregates (stored : List StoredFact) (batch : List String) : List Aggregate :=
  let rows := stored.filter fun f => f.fact.findingId ∈ batch
  (rows.map (·.fact.findingId)).dedup.map fun id =>
    aggregateOf id (rows.filter fun f => f.fact.findingId = id)

/-- The anti-join: the facts of a batch with no later fact of their finding. -/
def newestRows (stored : List StoredFact) (batch : List String) : List StoredFact :=
  stored.filter fun f => decide (f.fact.findingId ∈ batch) && !newerFactExists stored f

/-- A finding's entry in the dictionary of newest facts, the last row of one id winning. -/
def newestByFinding (stored : List StoredFact) (batch : List String) (findingId : String) :
    Option FactRow :=
  ((newestRows stored batch).findRev? fun f => f.fact.findingId = findingId).map (·.fact)

/-- The summaries of one batch; `none` where an aggregate has no newest fact to look up. -/
def batchSummaries (stored : List StoredFact) (batch : List String) :
    Option (List (String × FindingFactSummary)) :=
  (aggregates stored batch).mapM fun agg =>
    (newestByFinding stored batch agg.findingId).map fun newest =>
      (agg.findingId,
        { newest := some newest
          firstObservedAt := agg.firstObservedAt
          lastSeenAt := agg.lastSeenAt
          observedCount := agg.observedCount })

/-- Each asked finding's summary; one with no facts keeps the empty one. -/
def factSummaries (stored : List StoredFact) (ids : List String) :
    Option (String → FindingFactSummary) :=
  ((idBatches ids).mapM (batchSummaries stored)).map fun batches findingId =>
    ((batches.flatten.findRev? fun entry => entry.1 = findingId).map (·.2)).getD
      (summarizeFacts [])

/-! ## The page -/

structure FindingRow where
  findingId : String
  routineName : Option String
  scopeSlug : String
  class_ : String
  locus : String
  summary : String
  introduced : Option String
  introducedAt : Option Instant
  source : String
  severity : Option String
  raisedByChunkId : Option String
  projectId : String
  deriving DecidableEq, Repr

/-- The `findings` table: `finding_id` is its primary key. -/
structure FindingTable where
  rows : List FindingRow
  findingId_unique : (rows.map (·.findingId)).Nodup

/-- A finding as it is read back: its row and its liveness. -/
structure ListedFinding where
  row : FindingRow
  liveness : Liveness
  deriving DecidableEq, Repr

structure FindingFilter where
  projectId : Option String := none
  routineName : Option String := none
  scopeSlug : Option String := none
  source : Option String := none
  class_ : Option String := none
  state : Option FindingState := none
  includeGone : Bool := false
  deriving DecidableEq, Repr

/-- The filters on a finding's own columns. -/
def FindingFilter.matchesRow (filter : FindingFilter) (row : FindingRow) : Bool :=
  (filter.projectId.all fun p => decide (row.projectId = p)) &&
    (filter.routineName.all fun r => decide (row.routineName = some r)) &&
    (filter.scopeSlug.all fun s => decide (row.scopeSlug = s)) &&
    (filter.source.all fun s => decide (row.source = s)) &&
    filter.class_.all fun c => decide (row.class_ = c)

/-- The page's state predicate in SQL. -/
def FindingFilter.matchesFacts (filter : FindingFilter) (stored : List StoredFact)
    (findingId : String) : Bool :=
  match filter.state with
  | some state => newestFactIsOf stored findingId state
  | none => filter.includeGone || newestFactIsLive stored findingId

/-- One part of a cursor. -/
inductive CursorPart | text (s : String) | number (n : ℤ)
  deriving DecidableEq, Repr

/-- An opaque cursor, as its decoded parts. -/
abbrev Cursor := List CursorPart

def encodeFindingCursor (findingId : String) : Cursor := [.text findingId]

def decodeFindingCursor : Cursor → Option String
  | [.text findingId] => some findingId
  | _ => none

inductive PageRefused
  | limit (limit : ℕ)
  | malformedCursor (cursor : Cursor)
  | missingNewestFact
  deriving DecidableEq, Repr

structure FindingPage where
  findings : List ListedFinding
  nextCursor : Option Cursor
  deriving DecidableEq, Repr

/-- `ORDER BY finding_id`, descending or not. -/
def inOrder (descending : Bool) (a b : FindingRow) : Prop :=
  if descending then b.findingId ≤ a.findingId else a.findingId ≤ b.findingId

instance (descending : Bool) : DecidableRel (inOrder descending) := fun a b => by
  unfold inOrder
  split <;> infer_instance

/-- The rows of the page's statement before its limit. -/
def selectedRows (table : FindingTable) (stored : List StoredFact) (filter : FindingFilter)
    (descending : Bool) (after : Option String) : List FindingRow :=
  (table.rows.filter fun row => filter.matchesRow row &&
    (after.all fun last =>
      if descending then decide (row.findingId < last) else decide (last < row.findingId)) &&
    filter.matchesFacts stored row.findingId).insertionSort (inOrder descending)

/-- The page of findings after a finding id. -/
def readPage (table : FindingTable) (stored : List StoredFact) (filter : FindingFilter)
    (descending : Bool) (after : Option String) (limit : ℕ) : Except PageRefused FindingPage :=
  let rows := (selectedRows table stored filter descending after).take (limit + 1)
  match factSummaries stored ((rows.take limit).map (·.findingId)) with
  | none => .error .missingNewestFact
  | some summaries =>
    let page := (rows.take limit).map fun row =>
      (⟨row, livenessOf (summaries row.findingId)⟩ : ListedFinding)
    .ok {
      findings := page
      nextCursor := if limit < rows.length then
        page.getLast?.map fun finding => encodeFindingCursor finding.row.findingId else none }

/-- One keyset page of findings. -/
def listPage (table : FindingTable) (stored : List StoredFact) (filter : FindingFilter)
    (descending : Bool) (cursor : Option Cursor) (limit : ℕ) : Except PageRefused FindingPage :=
  if limit < 1 then .error (.limit limit)
  else
    match cursor with
    | none => readPage table stored filter descending none limit
    | some cursor =>
      match decodeFindingCursor cursor with
      | none => .error (.malformedCursor cursor)
      | some last => readPage table stored filter descending (some last) limit

/-- The pages a reader gets from no cursor on, handing each page's cursor back. -/
def pagesFrom (table : FindingTable) (stored : List StoredFact) (filter : FindingFilter)
    (descending : Bool) (limit : ℕ) : ℕ → Option Cursor → Option (List FindingPage)
  | 0, _ => none
  | fuel + 1, cursor =>
    match listPage table stored filter descending cursor limit with
    | .error _ => none
    | .ok page =>
      match page.nextCursor with
      | none => some [page]
      | some next =>
        (pagesFrom table stored filter descending limit fuel (some next)).map fun pages =>
          page :: pages

/-! ## The unpaged fold -/

/-- A finding read with the fold over its whole fact chain. -/
def listed (facts : List FactRow) (row : FindingRow) : ListedFinding :=
  ⟨row, derived facts row.findingId⟩

/-- Whether a filter keeps a finding as the fold derives it. -/
def FindingFilter.keeps (filter : FindingFilter) (finding : ListedFinding) : Bool :=
  filter.matchesRow finding.row &&
    match filter.state with
    | some state => decide (finding.liveness.state = state)
    | none => filter.includeGone || finding.liveness.live

/-- Every finding a filter keeps, in id order. -/
def unpaged (table : FindingTable) (facts : List FactRow) (filter : FindingFilter)
    (descending : Bool) : List ListedFinding :=
  ((table.rows.insertionSort (inOrder descending)).map (listed facts)).filter filter.keeps

end Blizzard.FindingReads
