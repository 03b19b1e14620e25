import Blizzard.DeliveryValidation

/-! # The rows a garden delivery mints

A passing delivery becomes a plan: one finding set for each delta, a finding and an `add` fact for
each `add` op, a fact for each op that transforms a finding, and a proposal for each candidate,
its citations resolved. Every id is minted before the store sees the plan. -/
namespace Blizzard.DeliveryPlans
open HubTables FindingLiveness DictionaryRows DeliveryValidation

structure NewFinding where
  findingId : String
  routineName : String
  scopeSlug : String
  class_ : String
  locus : String
  summary : String
  introduced : Option String
  introducedAt : Option Instant
  deriving DecidableEq, Repr

/-- A `finding_facts` row but for its instant, which the plan carries. -/
structure NewFindingFact where
  findingId : String
  kind : FactKind
  findingSetId : String
  note : Option String := none
  ref : Option String := none
  actor : Option String := none
  deriving DecidableEq, Repr

structure NewFindingSet where
  findingSetId : String
  artifactId : String
  scopeSlug : String
  revisions : List (String × String)
  measurement : Option String
  deriving DecidableEq, Repr

structure NewProposal where
  proposalId : String
  routineName : String
  class_ : String
  title : String
  body : String
  sourceArtifactId : String
  ref : String
  findingIds : List String
  deriving DecidableEq, Repr

/-- What one delta contributes to its plan. -/
structure DeltaMaterialization where
  findingSet : NewFindingSet
  newFindings : List NewFinding
  facts : List NewFindingFact
  deriving DecidableEq, Repr

structure DeliveryPlan where
  chunkId : ChunkId
  nodeId : String
  nodeName : String
  epoch : ℤ
  at_ : Instant
  run : RunContext
  deltas : List DeltaMaterialization
  proposals : List NewProposal
  expect : List (String × FindingState)
  deriving DecidableEq, Repr

/-- The ids minted for one plan, by the place they are minted for. -/
structure Mint where
  findingSet : ℕ → String
  finding : ℕ → ℕ → String
  proposal : ℕ → String

/-- The fact of one op, its minted id given. -/
def opFact (goneSettlements : List (String × FactKind × Option String)) (findingSetId : String)
    (mintedId : String) : FindingOp → NewFindingFact
  | .add op => { findingId := mintedId, kind := .add, findingSetId, ref := op.ref }
  | .observed id => { findingId := id, kind := .observed, findingSetId }
  | .gone id note =>
    let (kind, actor) := (get goneSettlements id).getD (.gone, none)
    { findingId := id, kind, findingSetId, note := some note, actor }

/-- The finding an `add` op mints. -/
def opFinding (validated : ValidatedDelivery) (delta : DeliveredDelta) (mintedId : String) :
    FindingOp → Option NewFinding
  | .add op =>
    some {
      findingId := mintedId
      routineName := validated.run.routineName
      scopeSlug := delta.scope
      class_ := op.class_
      locus := op.locus
      summary := op.summary
      introduced := op.introduced
      introducedAt := do
        let introduced ← op.introduced
        let repo ← singleRepoOf delta
        (get validated.introducedAt (repo, introduced)).join }
  | .observed _ | .gone _ _ => none

/-- The rows of the delta in place `n`. -/
def materializeDelta (validated : ValidatedDelivery) (mint : Mint) (n : ℕ)
    (delta : DeliveredDelta) (artifactId : String) : DeltaMaterialization where
  findingSet := {
    findingSetId := mint.findingSet n
    artifactId
    scopeSlug := delta.scope
    revisions := delta.revisions
    measurement := delta.measurement }
  newFindings := delta.findings.zipIdx.filterMap fun (op, m) =>
    opFinding validated delta (mint.finding n m) op
  facts := delta.findings.zipIdx.map fun (op, m) =>
    opFact validated.goneSettlements (mint.findingSet n) (mint.finding n m) op

/-- Each `add` op's ref with the id minted for it, across every delta. -/
def findingIdByRef (deltas : List DeliveredDelta) (mint : Mint) : List (String × String) :=
  deltas.zipIdx.flatMap fun (delta, n) => delta.findings.zipIdx.filterMap fun (op, m) =>
    op.ref.map fun ref => (ref, mint.finding n m)

/-- `zip(..., strict=True)`. -/
def zipStrict {α β : Type} (xs : List α) (ys : List β) : Except DeliveryFailure (List (α × β)) :=
  if xs.length = ys.length then .ok (xs.zip ys) else .error .valueError

/-- A finding id stands for itself, any other citation for the id its `add` op minted. -/
def resolveCitation (byRef : List (String × String)) (entry : String) :
    Except DeliveryFailure String :=
  if isFindingIdShaped entry then .ok entry
  else
    match get byRef entry with
    | some findingId => .ok findingId
    | none => .error (.keyError entry)

/-- The proposal in place `n`. -/
def newProposal (validated : ValidatedDelivery) (mint : Mint) (byRef : List (String × String))
    (candidate : ProposalCandidate) (artifactId : String) (n : ℕ) :
    Except DeliveryFailure NewProposal := do
  let findingIds ← candidate.findings.mapM (resolveCitation byRef)
  return {
    proposalId := mint.proposal n
    routineName := validated.run.routineName
    class_ := candidate.class_
    title := candidate.title
    body := candidate.body
    sourceArtifactId := artifactId
    ref := candidate.ref
    findingIds }

/-- The node-step a delivery is made for. -/
structure NodeStep where
  chunkId : ChunkId
  nodeId : String
  nodeName : String
  epoch : ℤ
  deriving DecidableEq, Repr

def buildDeliveryPlan (validated : ValidatedDelivery) (step : NodeStep)
    (deltaArtifactIds proposalArtifactIds : List String) (mint : Mint) (at_ : Instant) :
    Except DeliveryFailure DeliveryPlan := do
  let deltas ← zipStrict validated.deltas deltaArtifactIds
  let candidates ← zipStrict validated.proposals proposalArtifactIds
  let byRef := findingIdByRef validated.deltas mint
  let proposals ← candidates.zipIdx.mapM fun ((candidate, artifactId), n) =>
    newProposal validated mint byRef candidate artifactId n
  return {
    chunkId := step.chunkId
    nodeId := step.nodeId
    nodeName := step.nodeName
    epoch := step.epoch
    at_
    run := validated.run
    deltas := deltas.zipIdx.map fun ((delta, artifactId), n) =>
      materializeDelta validated mint n delta artifactId
    proposals
    expect := validated.expect }

/-- Every fact a plan carries, delta by delta. -/
def DeliveryPlan.facts (plan : DeliveryPlan) : List NewFindingFact :=
  plan.deltas.flatMap (·.facts)

/-- A plan's fact as the store keeps it of its finding. -/
def NewFindingFact.row (fact : NewFindingFact) (at_ : Instant) : FactRow where
  findingId := fact.findingId
  kind := fact.kind
  recordedAt := at_
  note := fact.note
  actor := fact.actor

end Blizzard.DeliveryPlans
