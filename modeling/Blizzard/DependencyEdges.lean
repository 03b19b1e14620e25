import Blizzard.DepthFirstCycles
import Blizzard.FactLoading

/-! # Dependency edges between chunks

Declaring, releasing and deleting edges, and the fold that carries a group's
edges onto its survivor. Every service re-reads the standing edges under the
tenant's cycle lock and writes what its decision says, so each is one step. -/
namespace Blizzard.DependencyEdges
open HubTables StatusLadder FactLoading DepthFirstCycles

abbrev Pair := ChunkId × ChunkId

def standing (row : DependencyRow) : Bool := row.releasedAt.isNone

/-- The `(dependent, prerequisite)` pair an edge orders. -/
def edgePair (row : DependencyRow) : Pair := (row.dependentChunkId, row.prerequisiteChunkId)

/-- The `(declared_at, dependency_id)` order of every standing-edge read. -/
def declaredBefore (a b : DependencyRow) : Bool :=
  decide (a.declaredAt < b.declaredAt) ||
    (decide (a.declaredAt = b.declaredAt) && decide (a.dependencyId ≤ b.dependencyId))

/-- Every unreleased edge, in declared order. -/
def standingEdges (tables : Tables) : List DependencyRow :=
  (tables.chunkDependencies.filter standing).mergeSort declaredBefore

/-- The unreleased edges naming a chunk in either role, in declared order. -/
def standingEdgesFor (tables : Tables) (chunkId : ChunkId) : List DependencyRow :=
  (standingEdges tables).filter fun e =>
    decide (e.dependentChunkId = chunkId) || decide (e.prerequisiteChunkId = chunkId)

/-- The adjacency lists `would_close_a_cycle` builds: each dependent's prerequisites in order. -/
def successors (pairs : List Pair) (node : ChunkId) : List ChunkId :=
  (pairs.filter fun pair => decide (pair.1 = node)).map Prod.snd

/-- Would adding the ordered pairs to the standing edges close a cycle? -/
def wouldCloseACycle (standing_ : List DependencyRow) (added : List Pair) : Bool :=
  let pairs := standing_.map edgePair ++ added
  let nodes := pairs.map Prod.fst ++ pairs.map Prod.snd
  match search (successors pairs) nodes.length (fun _ => .white) (pairs.map Prod.fst).eraseDups with
  | none => true
  | some (found, _) => found

inductive DeclareDecision
  | replay (edge : DependencyRow)
  | chunkNotFound
  | notEditable (status : ChunkStatus)
  | prerequisiteEphemeral
  | wouldCloseCycle
  | mint
  | aborted
  deriving DecidableEq, Repr

/-- The first rule that fires decides a declaration. -/
def decideDeclare (standing_ : List DependencyRow) (dependent : ChunkId)
    (dependentFacts : Option ChunkFacts) (prerequisite : ChunkId) (prerequisiteIsEphemeral : Bool) :
    DeclareDecision :=
  match standing_.find? fun e => decide (edgePair e = (dependent, prerequisite)) with
  | some edge => .replay edge
  | none =>
    match dependentFacts with
    | none => .chunkNotFound
    | some facts =>
      if !facts.admits .declareDependency then .notEditable facts.status
      else if prerequisiteIsEphemeral then .prerequisiteEphemeral
      else if wouldCloseACycle standing_ [(dependent, prerequisite)] then .wouldCloseCycle
      else .mint

/-- `INSERT INTO chunk_dependencies`: a `dependency_id` already taken aborts the transaction. -/
def insertDependency (tables : Tables) (row : DependencyRow) : Option Tables :=
  if tables.chunkDependencies.any fun e => decide (e.dependencyId = row.dependencyId) then none
  else some { tables with chunkDependencies := tables.chunkDependencies ++ [row] }

/-- A declaration: the decision, and the tables it commits. -/
def declare (tables : Tables) (dependent prerequisite : ChunkId) (by_ dependencyId : String)
    (now : Instant) : Tables × DeclareDecision :=
  match decideDeclare (standingEdges tables) dependent (loadFacts tables dependent) prerequisite
      (isEphemeralId tables prerequisite) with
  | .mint =>
    match insertDependency tables
      { dependencyId, dependentChunkId := dependent, prerequisiteChunkId := prerequisite
        declaredAt := now, declaredBy := by_ } with
    | none => (tables, .aborted)
    | some tables' => (tables', .mint)
  | decision => (tables, decision)

/-- `UPDATE chunk_dependencies SET released_at … WHERE`: the rows `chosen` picks. -/
def releaseWhere (tables : Tables) (chosen : DependencyRow → Bool) (by_ : String) (now : Instant) :
    Tables :=
  { tables with
    chunkDependencies := tables.chunkDependencies.map fun row =>
      if chosen row then { row with releasedAt := some now, releasedBy := some by_ } else row }

/-- Release whichever edge stands for the pair; nothing is written when none does. -/
def release (tables : Tables) (dependent prerequisite : ChunkId) (by_ : String) (now : Instant) :
    Tables × Bool :=
  match (standingEdges tables).find? fun e => decide (edgePair e = (dependent, prerequisite)) with
  | none => (tables, false)
  | some row =>
    (releaseWhere tables (fun e => decide (e.dependencyId = row.dependencyId)) by_ now, true)

/-- An edge a fold mints, at the instant its folded original was declared. -/
structure FoldMint where
  dependentChunkId : ChunkId
  prerequisiteChunkId : ChunkId
  declaredAt : Instant
  deriving DecidableEq, Repr

def FoldMint.pair (mint : FoldMint) : Pair := (mint.dependentChunkId, mint.prerequisiteChunkId)

/-- The fold's accumulators: each append to a per-target list keeps the target it went to. -/
structure FoldState where
  releases : List (ChunkId × String) := []
  mints : List (ChunkId × FoldMint) := []
  unfoldedByPair : Pair → Option DependencyRow
  mintedPairs : List Pair := []
  superseded : List String := []

/-- The edge plan of one fold. -/
structure FoldEdgePlan where
  releaseByTarget : ChunkId → List String
  mintByTarget : ChunkId → List FoldMint
  remaining : List DependencyRow

def touchesFolded (folded : List ChunkId) (e : DependencyRow) : Bool :=
  decide (e.dependentChunkId ∈ folded) || decide (e.prerequisiteChunkId ∈ folded)

def remap (survivor : ChunkId) (folded : List ChunkId) (chunkId : ChunkId) : ChunkId :=
  if chunkId ∈ folded then survivor else chunkId

/-- One standing edge of the fold's loop. -/
def foldEdge (survivor : ChunkId) (folded : List ChunkId) (state : FoldState)
    (edge : DependencyRow) : FoldState :=
  if !touchesFolded folded edge then state
  else
    let owner :=
      if edge.dependentChunkId ∈ folded then edge.dependentChunkId else edge.prerequisiteChunkId
    let released := { state with releases := state.releases ++ [(owner, edge.dependencyId)] }
    let pair :=
      (remap survivor folded edge.dependentChunkId, remap survivor folded edge.prerequisiteChunkId)
    let mint : FoldMint := ⟨pair.1, pair.2, edge.declaredAt⟩
    if pair.1 = pair.2 ∨ pair ∈ state.mintedPairs then released
    else
      match state.unfoldedByPair pair with
      | none =>
        { released with
          mintedPairs := released.mintedPairs ++ [pair]
          mints := released.mints ++ [(owner, mint)] }
      | some existing =>
        if existing.declaredAt ≤ edge.declaredAt then released
        else
          { releases := released.releases ++ [(owner, existing.dependencyId)]
            superseded := released.superseded ++ [existing.dependencyId]
            unfoldedByPair := Function.update released.unfoldedByPair pair none
            mintedPairs := released.mintedPairs ++ [pair]
            mints := released.mints ++ [(owner, mint)] }

/-- The edges a fold leaves alone. -/
def unfoldedEdges (standing_ : List DependencyRow) (folded : List ChunkId) : List DependencyRow :=
  standing_.filter fun e => !touchesFolded folded e

/-- `unfolded_by_pair`: a later edge of the same pair overwrites an earlier one. -/
def unfoldedByPair (edges : List DependencyRow) (pair : Pair) : Option DependencyRow :=
  (edges.filter fun e => decide (edgePair e = pair)).getLast?

/-- The whole loop over the standing edges. -/
def foldLoop (standing_ : List DependencyRow) (survivor : ChunkId) (folded : List ChunkId) :
    FoldState :=
  standing_.foldl (foldEdge survivor folded)
    { unfoldedByPair := unfoldedByPair (unfoldedEdges standing_ folded) }

def planFold (standing_ : List DependencyRow) (survivor : ChunkId) (folded : List ChunkId) :
    FoldEdgePlan :=
  let state := foldLoop standing_ survivor folded
  { releaseByTarget := fun target =>
      (state.releases.filter fun entry => decide (entry.1 = target)).map Prod.snd
    mintByTarget := fun target =>
      (state.mints.filter fun entry => decide (entry.1 = target)).map Prod.snd
    remaining := (unfoldedEdges standing_ folded).filter fun e =>
      decide (e.dependencyId ∉ state.superseded) }

/-- The pairs a plan mints, target by target. -/
def FoldEdgePlan.mintedPairs (plan : FoldEdgePlan) (folded : List ChunkId) : List Pair :=
  folded.flatMap fun target => (plan.mintByTarget target).map FoldMint.pair

/-- The plan of a fold, refused when the graph it leaves would have a cycle. -/
def planGroup (standing_ : List DependencyRow) (survivor : ChunkId) (folded : List ChunkId) :
    Option FoldEdgePlan :=
  let plan := planFold standing_ survivor folded
  if wouldCloseACycle plan.remaining (plan.mintedPairs folded) then none else some plan

/-- The chunks a group folds, in first-named order. -/
def mergeTargets (survivor : ChunkId) (mergeIds : List ChunkId) : List ChunkId :=
  (mergeIds.filter fun id => decide (id ≠ survivor)).eraseDups

/-- The actor a fold's edges are declared and released by. -/
def foldActor : String := "fold"

/-- The next minted edge of a fold, under the next fresh id. -/
def mintFoldEdge (ids : ℕ → String) (state : Tables × ℕ) (mint : FoldMint) :
    Option (Tables × ℕ) :=
  (insertDependency state.1
    { dependencyId := ids state.2, dependentChunkId := mint.dependentChunkId
      prerequisiteChunkId := mint.prerequisiteChunkId, declaredAt := mint.declaredAt
      declaredBy := foldActor }).map fun tables => (tables, state.2 + 1)

def insertGrouped (tables : Tables) (chunkId groupedInto : ChunkId) (now : Instant) : Tables :=
  { tables with chunkGrouped := tables.chunkGrouped ++ [⟨chunkId, groupedInto, now⟩] }

/-- One target of a fold: its grouped row, its releases, its mints. -/
def recordFoldTarget (plan : FoldEdgePlan) (groupedInto : ChunkId) (ids : ℕ → String)
    (now : Instant) (state : Tables × ℕ) (target : ChunkId) : Option (Tables × ℕ) :=
  let grouped := insertGrouped state.1 target groupedInto now
  let released := releaseWhere grouped
    (fun e => decide (e.dependencyId ∈ plan.releaseByTarget target)) foldActor now
  (plan.mintByTarget target).foldlM (mintFoldEdge ids) (released, state.2)

/-- Every target in one transaction. -/
def recordFoldConn (tables : Tables) (plan : FoldEdgePlan) (targets : List ChunkId)
    (groupedInto : ChunkId) (ids : ℕ → String) (now : Instant) : Option (Tables × ℕ) :=
  targets.foldlM (recordFoldTarget plan groupedInto ids now) (tables, 0)

inductive GroupOutcome
  | grouped | chunkNotFound | notGroupable | differentProjects | wouldCloseCycle | aborted
  deriving DecidableEq, Repr

/-- The first participant the group's status window refuses. -/
def groupRefusal (tables : Tables) : List ChunkId → Option GroupOutcome
  | [] => none
  | id :: ids =>
    match loadFacts tables id with
    | none => some .chunkNotFound
    | some facts =>
      if !verbLegalFrom .group facts.status then some .notGroupable else groupRefusal tables ids

/-- Fold `mergeIds` into `survivor`; every refusal and every abort writes nothing. -/
def group (tables : Tables) (survivor : ChunkId) (mergeIds : List ChunkId) (ids : ℕ → String)
    (now : Instant) : Tables × GroupOutcome :=
  let targets := mergeTargets survivor mergeIds
  match groupRefusal tables (survivor :: targets) with
  | some refusal => (tables, refusal)
  | none =>
    if targets.any fun id => decide (projectIdOf tables id ≠ projectIdOf tables survivor) then
      (tables, .differentProjects)
    else
      match planGroup (standingEdges tables) survivor targets with
      | none => (tables, .wouldCloseCycle)
      | some plan =>
        match recordFoldConn tables plan targets survivor ids now with
        | none => (tables, .aborted)
        | some (tables', _) => (tables', .grouped)

inductive DeleteOutcome
  | deleted | chunkNotFound | notDeletable (status : ChunkStatus) | hasDependents (ids : List ChunkId)
  deriving DecidableEq, Repr

/-- The chunks a standing edge names `chunkId` as prerequisite for, sorted. -/
def dependentChunkIds (chunkId : ChunkId) (edges : List DependencyRow) : List ChunkId :=
  ((edges.filter fun e => decide (e.prerequisiteChunkId = chunkId)).map
    (·.dependentChunkId)).mergeSort fun a b => decide (a ≤ b)

/-- A delete releases the chunk's own outgoing edges with its `chunk.deleted` fact. -/
def deleteChunk (tables : Tables) (chunkId : ChunkId) (by_ : String) (now : Instant) :
    Tables × DeleteOutcome :=
  match loadFacts tables chunkId with
  | none => (tables, .chunkNotFound)
  | some facts =>
    let dependents := dependentChunkIds chunkId (standingEdgesFor tables chunkId)
    if !facts.admits .delete then (tables, .notDeletable facts.status)
    else if !dependents.isEmpty then (tables, .hasDependents dependents)
    else
      let deleted := { tables with chunkDeleted := tables.chunkDeleted ++ [⟨chunkId, now, by_⟩] }
      (releaseWhere deleted
        (fun e => standing e && decide (e.dependentChunkId = chunkId)) by_ now, .deleted)

end Blizzard.DependencyEdges
