import Blizzard.DictionaryRows
import Blizzard.FencedWrites
import Blizzard.FindingReads

/-! # Validation of a garden delivery

The delivery node's check over a run's named artifacts, before anything is written: each delta's
ops against the findings the run may cite, each proposal's citations against those findings and
the refs the delivery's own `add` ops carry. -/
namespace Blizzard.DeliveryValidation
open HubTables SourceText LatestRows DictionaryRows FindingLiveness FindingReads

/-- The artifact to repair. -/
inductive GardenDeliveryFault | delta | proposals
  deriving DecidableEq, Repr

structure GardenDeliveryRejected where
  message : String
  fault : GardenDeliveryFault
  deriving DecidableEq, Repr

/-- How a delivery fails: refused with a message, or stopped by a key the code looks up or the
store checks. -/
inductive DeliveryFailure
  | rejected (refusal : GardenDeliveryRejected)
  | keyError (key : String)
  | valueError
  | integrityError (constraint : String)
  deriving DecidableEq, Repr

abbrev Checked := Except GardenDeliveryRejected

/-- A refusal naming the delta. -/
def refuseDelta {α : Type} (message : String) : Checked α := .error ⟨message, .delta⟩

def refuseProposals {α : Type} (message : String) : Checked α := .error ⟨message, .proposals⟩

/-! ## Formats -/

/-- The run a chunk's first work ref names. -/
structure RunContext where
  routineName : String
  scopeSlug : String
  projectId : String
  deriving DecidableEq, Repr

structure FindingAddOp where
  class_ : String
  locus : String
  summary : String
  introduced : Option String := none
  ref : Option String := none
  deriving DecidableEq, Repr

inductive FindingOp
  | add (op : FindingAddOp)
  | observed (id : String)
  | gone (id note : String)
  deriving DecidableEq, Repr

/-- The finding an op transforms, none for one that mints. -/
def FindingOp.transforms : FindingOp → Option String
  | .add _ => none
  | .observed id | .gone id _ => some id

/-- The ref an `add` op carries. -/
def FindingOp.ref : FindingOp → Option String
  | .add op => op.ref
  | .observed _ | .gone _ _ => none

/-- A run's finding list; `revisions` pairs each repository with its commit, one entry a
repository. -/
structure DeliveredDelta where
  scope : String
  revisions : List (String × String) := []
  measurement : Option String := none
  findings : List FindingOp := []
  deriving DecidableEq, Repr

structure ProposalCandidate where
  ref : String
  class_ : String
  title : String
  body : String
  findings : List String := []
  deriving DecidableEq, Repr

/-- The parser of the garden's formats, given an artifact's name and its text. -/
structure GardenFormats where
  findingDelta : String → String → Checked DeliveredDelta
  proposalCandidates : String → String → Checked (List ProposalCandidate)

/-! ## The artifacts a delivery names -/

/-- The order in which a later artifact of one name stands for it. -/
def artifactKey (row : ArtifactRow) : Instant ×ₗ Instant ×ₗ String :=
  toLex (row.epoch, toLex (row.producedAt, row.artifactId))

/-- Each name's newest artifact of a chunk. -/
def latestArtifacts (tables : Tables) (chunkId : ChunkId) (name : String) : Option ArtifactRow :=
  (unbeaten artifactKey (tables.artifacts.filter fun a =>
    a.chunkId = chunkId ∧ a.name = name)).getLast?

/-- The artifacts a delivery reads, by name, in the order it names them first. -/
structure SelectedArtifacts where
  entries : List (String × ArtifactRow)
  deriving DecidableEq, Repr

def SelectedArtifacts.contents (selected : SelectedArtifacts) : List (String × String) :=
  selected.entries.map fun (name, artifact) => (name, artifact.data)

def SelectedArtifacts.artifactIds (selected : SelectedArtifacts) : List (String × String) :=
  selected.entries.map fun (name, artifact) => (name, artifact.artifactId)

/-- The present artifacts of some names, each name once. -/
def selectPresent (names : List String) (latest : String → Option ArtifactRow) :
    SelectedArtifacts :=
  ⟨names.eraseDups.filterMap fun name => (latest name).map fun artifact => (name, artifact)⟩

def selectDeltaArtifacts (names : List String) (latest : String → Option ArtifactRow) :
    Checked SelectedArtifacts :=
  let missing := names.filter fun name => latest name = none
  if names = [] ∨ missing ≠ [] then
    let joined := ", ".intercalate missing
    refuseDelta ("delta artifact not found — missing: " ++
      if joined = "" then "<none named>" else joined)
  else .ok (selectPresent names latest)

def selectProposalArtifacts (names : List String) (latest : String → Option ArtifactRow) :
    SelectedArtifacts := selectPresent names latest

/-- A delivery's artifacts once parsed: the candidates of every proposal artifact flattened, each
candidate's artifact name positionally, and the candidates of each artifact. -/
structure ParsedArtifacts where
  deltas : List DeliveredDelta
  proposals : List ProposalCandidate
  proposalSources : List String
  candidatesByArtifact : List (String × List ProposalCandidate)
  deriving DecidableEq, Repr

def parseArtifacts (deltaArtifacts proposalArtifacts : List (String × String))
    (formats : GardenFormats) : Checked ParsedArtifacts := do
  let deltas ← deltaArtifacts.mapM fun (name, raw) => formats.findingDelta name raw
  let byArtifact ← proposalArtifacts.mapM fun (name, raw) => do
    return (name, ← formats.proposalCandidates name raw)
  return {
    deltas
    proposals := byArtifact.flatMap (·.2)
    proposalSources := byArtifact.flatMap fun (name, candidates) => candidates.map fun _ => name
    candidatesByArtifact := byArtifact }

/-! ## Ids and commits -/

/-- The prefix and the ULID a text spells, none where it is no prefixed ULID. -/
def parseId (value : String) : Option (String × String) :=
  let (front, rest) := value.toList.span (· ≠ '_')
  match rest with
  | '_' :: ulid => if ulid.length = 26 then some (String.ofList front, String.ofList ulid) else none
  | _ => none

/-- Whether a text is a well-formed `fin_<ULID>` id; any other citation is a ref. -/
def isFindingIdShaped (value : String) : Bool := (parseId value).any fun id => id.1 = "fin"

/-- `^[0-9a-f]{7,40}$`. -/
def isCommit (sha : String) : Bool :=
  decide (7 ≤ sha.length) && decide (sha.length ≤ 40) &&
    sha.toList.all fun c => c.isDigit || ('a' ≤ c && c ≤ 'f')

structure CommitResolution where
  exists_ : Bool
  authoredAt : Option Instant := none
  deriving DecidableEq, Repr

/-- What resolving `(repo, sha)` produced: none where it was never asked or not addressable. -/
abbrev CommitResolutions := String → String → Option CommitResolution

def checkCommitWellformed (sha context : String) : Checked Unit :=
  if isCommit sha then .ok ()
  else refuseDelta s!"commit {quoted sha} ({context}) is not a well-formed commit sha"

def resolved (repo sha : String) (resolutions : CommitResolutions) :
    Checked (Option CommitResolution) := do
  checkCommitWellformed sha s!"repository {quoted repo}"
  if (resolutions repo sha).any fun resolution => !resolution.exists_ then
    refuseDelta s!"commit {quoted sha} for repository {quoted repo} does not resolve"
  else .ok (resolutions repo sha)

/-- The one repository a delta's revisions name, none if they name zero or several. -/
def singleRepoOf (delta : DeliveredDelta) : Option String :=
  match delta.revisions with
  | [(repo, _)] => some repo
  | _ => none

/-! ## What a run may cite -/

/-- A run's finding bucket: every non-exited finding it may cite. -/
structure FindingBucket where
  citable : List ListedFinding
  deriving DecidableEq, Repr

def hasExited (finding : ListedFinding) : Bool :=
  decide (finding.liveness.state ∉ unexitedStates)

/-- The routine's own non-exited findings across every scope of the run's project. -/
def listForRoutine (findings : List FindingRow) (facts : List FactRow) (run : RunContext) :
    List ListedFinding :=
  ((findings.filter fun row => row.projectId = run.projectId ∧
      row.routineName = some run.routineName).map (listed facts)).filter (! hasExited ·)

/-- The non-exited review-sourced findings on the run's own scope. -/
def listReviewSourced (findings : List FindingRow) (facts : List FactRow) (run : RunContext) :
    List ListedFinding :=
  ((findings.filter fun row => row.projectId = run.projectId ∧ row.scopeSlug = run.scopeSlug ∧
      row.source = "review").map (listed facts)).filter (! hasExited ·)

/-- Each finding once, as read last; the run's own scope first, then by id. -/
def FindingBucket.of (rows : List ListedFinding) (ownScope : String) : FindingBucket :=
  let unique := (rows.map (·.row.findingId)).eraseDups.filterMap
    (get (rows.map fun finding => (finding.row.findingId, finding)))
  let before (a b : ListedFinding) : Prop :=
    if decide (a.row.scopeSlug ≠ ownScope) = decide (b.row.scopeSlug ≠ ownScope) then
      a.row.findingId ≤ b.row.findingId
    else a.row.scopeSlug = ownScope
  have : DecidableRel before := fun a b => by
    unfold before
    infer_instance
  ⟨(unique.filter (! hasExited ·)).insertionSort before⟩

/-- Which of some ids are exited findings the run could otherwise have cited. -/
def exitedAmong (findings : List FindingRow) (facts : List FactRow) (run : RunContext)
    (ids : List String) : List String :=
  ((findings.filter fun row => row.findingId ∈ ids).map (listed facts)).filterMap fun finding =>
    if hasExited finding ∧ finding.row.projectId = run.projectId ∧
        (finding.row.routineName = some run.routineName ∨
          finding.row.source = "review" ∧ finding.row.scopeSlug = run.scopeSlug) then
      some finding.row.findingId
    else none

/-- Finding id to its recorded scope, for what the run may cite. -/
def FindingBucket.liveFindings (bucket : FindingBucket) : List (String × String) :=
  bucket.citable.map fun finding => (finding.row.findingId, finding.row.scopeSlug)

def FindingBucket.states (bucket : FindingBucket) : List (String × FindingState) :=
  bucket.citable.map fun finding => (finding.row.findingId, finding.liveness.state)

/-- The fact kind and actor a run's `gone` lands as, for each citable finding. -/
def FindingBucket.goneSettlements (bucket : FindingBucket) :
    List (String × FactKind × Option String) :=
  bucket.citable.map fun finding => (finding.row.findingId,
    Finding.runGone ⟨finding.row.findingId, finding.liveness.state, finding.liveness.actor⟩)

/-! ## The checks -/

section Checks

variable (run : RunContext) (liveFindings : List (String × String)) (exitedIds : List String)
  (resolutions : CommitResolutions)

def checkKnownId (findingId : String) (scope : Option String) (fault : GardenDeliveryFault) :
    Checked Unit :=
  if !isFindingIdShaped findingId then
    .error ⟨s!"finding id {quoted findingId} is not a well-formed fin_<ULID> id", fault⟩
  else
    match get liveFindings findingId with
    | none =>
      if findingId ∈ exitedIds then
        .error ⟨s!"finding {quoted findingId} has been exited on routine " ++
          s!"{quoted run.routineName} and cannot be transformed by a run — only a person's " ++
          "reopen can revive it", fault⟩
      else
        .error ⟨s!"finding {quoted findingId} is not live on routine {quoted run.routineName}",
          fault⟩
    | some liveScope =>
      match scope with
      | none => .ok ()
      | some declared =>
        if liveScope = declared then .ok ()
        else
          .error ⟨s!"finding {quoted findingId} is outside the declared scope " ++
            s!"{quoted declared} (its own scope is {quoted liveScope})", fault⟩

/-- The first blank one of some named texts. -/
def firstBlank (texts : List (String × String)) : Option String :=
  (texts.find? fun text => stripped text.1 = "").map (·.2)

/-- One `add` op; answers what it resolved of its `introduced` commit. -/
def checkAdd (singleRepo : Option String) (op : FindingAddOp) :
    Checked (List ((String × String) × Option Instant)) :=
  match firstBlank [(op.class_, "class"), (op.locus, "locus"), (op.summary, "summary")] with
  | some field => refuseDelta s!"a finding addition has a blank {field}"
  | none =>
    if op.ref.any isFindingIdShaped then
      refuseDelta ("add op ref " ++ quoted (op.ref.getD "") ++ " is shaped like a finding id and " ++
        "cannot be used as a submission-local ref")
    else
      match op.introduced with
      | none => .ok []
      | some introduced =>
        match singleRepo with
        | some repo =>
          (resolved repo introduced resolutions).map fun resolution =>
            [((repo, introduced), resolution.bind (·.authoredAt))]
        | none =>
          (checkCommitWellformed introduced "a finding addition's introduced commit").map fun _ =>
            []

/-- One op naming a finding, given those the delta named before it. -/
def checkTransformation (scope : String) (seenIds : List String) (id : String)
    (note : Option String) : Checked Unit := do
  checkKnownId run liveFindings exitedIds id (some scope) .delta
  if id ∈ seenIds then
    refuseDelta s!"finding {quoted id} is named by more than one op in this delta"
  else if note.any fun text => stripped text = "" then
    refuseDelta s!"finding {quoted id}'s gone fact must carry a non-empty note"
  else .ok ()

/-- The ops of one delta, in order. -/
def checkOps (scope : String) (singleRepo : Option String) :
    List String → List FindingOp → Checked (List ((String × String) × Option Instant))
  | _, [] => .ok []
  | seenIds, .add op :: ops => do
    return (← checkAdd resolutions singleRepo op) ++ (← checkOps scope singleRepo seenIds ops)
  | seenIds, .observed id :: ops => do
    checkTransformation run liveFindings exitedIds scope seenIds id none
    checkOps scope singleRepo (id :: seenIds) ops
  | seenIds, .gone id note :: ops => do
    checkTransformation run liveFindings exitedIds scope seenIds id (some note)
    checkOps scope singleRepo (id :: seenIds) ops

def checkDelta (delta : DeliveredDelta) : Checked (List ((String × String) × Option Instant)) :=
  if delta.scope ≠ run.scopeSlug then
    refuseDelta (s!"delta declares scope {quoted delta.scope}, this run's declared scope is " ++
      quoted run.scopeSlug)
  else do
    delta.revisions.forM fun (repo, sha) => (resolved repo sha resolutions).map fun _ => ()
    checkOps run liveFindings exitedIds resolutions delta.scope (singleRepoOf delta) []
      delta.findings

/-- The refs some `add` ops carry, each carried once. -/
def checkRefs : List String → List String → Checked (List String)
  | seen, [] => .ok seen
  | seen, ref :: refs =>
    if ref ∈ seen then
      refuseDelta s!"add op ref {quoted ref} is carried more than once in this delivery"
    else checkRefs (ref :: seen) refs

/-- Every ref the deltas' `add` ops carry. -/
def checkAddRefs (deltas : List DeliveredDelta) : Checked (List String) :=
  checkRefs [] (deltas.flatMap fun delta => delta.findings.filterMap FindingOp.ref)

/-- One citation of a proposal, given those before it. -/
def checkCitations (ref : String) (knownRefs : List String) :
    List String → List String → Checked Unit
  | _, [] => .ok ()
  | seen, entry :: entries =>
    if entry ∈ seen then
      refuseProposals s!"proposal {quoted ref} cites {quoted entry} more than once"
    else if isFindingIdShaped entry then do
      checkKnownId run liveFindings exitedIds entry none .proposals
      checkCitations ref knownRefs (entry :: seen) entries
    else if entry ∉ knownRefs then
      refuseProposals (s!"proposal cites {quoted entry}, which is neither a live finding id nor " ++
        "a ref carried by an add op in this delivery's own deltas")
    else checkCitations ref knownRefs (entry :: seen) entries

def checkProposal (knownRefs : List String) (proposal : ProposalCandidate) : Checked Unit :=
  match firstBlank [(proposal.title, "title"), (proposal.class_, "class"),
    (proposal.body, "body")] with
  | some field => refuseProposals s!"proposal {quoted proposal.ref} has a blank {field}"
  | none => checkCitations run liveFindings exitedIds proposal.ref knownRefs [] proposal.findings

end Checks

/-- One artifact's candidates carry distinct refs. -/
def checkProposalRefs (artifactName : String) : List String → List ProposalCandidate → Checked Unit
  | _, [] => .ok ()
  | seen, proposal :: proposals =>
    if proposal.ref ∈ seen then
      refuseProposals (s!"artifact {quoted artifactName} carries the proposal ref " ++
        s!"{quoted proposal.ref} more than once")
    else checkProposalRefs artifactName (proposal.ref :: seen) proposals

/-- What a passing validation hands the materialization. -/
structure ValidatedDelivery where
  run : RunContext
  deltas : List DeliveredDelta
  proposals : List ProposalCandidate
  proposalSources : List String
  introducedAt : List ((String × String) × Option Instant)
  goneSettlements : List (String × FactKind × Option String)
  expect : List (String × FindingState)
  deriving DecidableEq, Repr

/-- A refusal among a delivery's failures. -/
def Checked.orFail {α : Type} : Checked α → Except DeliveryFailure α
  | .ok value => .ok value
  | .error refusal => .error (.rejected refusal)

/-- The findings the ops of some deltas transform, an id for each op. -/
def transformedIds (deltas : List DeliveredDelta) : List String :=
  deltas.flatMap fun delta => delta.findings.filterMap FindingOp.transforms

/-- The ids a delivery cites. -/
def citedIds (parsed : ParsedArtifacts) : List String :=
  transformedIds parsed.deltas ++ parsed.proposals.flatMap (·.findings)

/-- The checks of a delivery; answers what its `add` ops' commits resolved to. -/
def checkDelivery (run : RunContext) (parsed : ParsedArtifacts) (bucket : FindingBucket)
    (resolutions : CommitResolutions) (resolveExited : List String → List String) :
    Checked (List ((String × String) × Option Instant)) := do
  let live := bucket.liveFindings
  parsed.candidatesByArtifact.forM fun (name, candidates) => checkProposalRefs name [] candidates
  let absent := (citedIds parsed).filter fun id => isFindingIdShaped id ∧ id ∉ live.map (·.1)
  let exitedIds := if absent = [] then [] else resolveExited absent
  let introducedAt ← parsed.deltas.mapM (checkDelta run live exitedIds resolutions)
  let knownRefs ← checkAddRefs parsed.deltas
  parsed.proposals.forM (checkProposal run live exitedIds knownRefs)
  return introducedAt.flatten

/-- The state each transformed finding was judged in. -/
def expectedStates (deltas : List DeliveredDelta) (bucket : FindingBucket) :
    Except DeliveryFailure (List (String × FindingState)) :=
  (transformedIds deltas).mapM fun id =>
    match get bucket.states id with
    | some state => .ok (id, state)
    | none => .error (.keyError id)

def validateDelivery (run : RunContext) (parsed : ParsedArtifacts) (bucket : FindingBucket)
    (resolutions : CommitResolutions) (resolveExited : List String → List String) :
    Except DeliveryFailure ValidatedDelivery := do
  let introducedAt ← Checked.orFail (checkDelivery run parsed bucket resolutions resolveExited)
  let expect ← expectedStates parsed.deltas bucket
  return {
    run
    deltas := parsed.deltas
    proposals := parsed.proposals
    proposalSources := parsed.proposalSources
    introducedAt
    goneSettlements := bucket.goneSettlements
    expect }

end Blizzard.DeliveryValidation
