import Blizzard.GraphDocuments

/-! # Completion rules

What one node-step's completion does, decided on loaded values: the edge it takes and where that
edge lands, or the refusal the runner is answered with. -/
namespace Blizzard.CompletionPlans
open HubTables StatusLadder WorkflowGraph GraphDocuments SourceText

/-- An artifact submitted with a completion; `attached` marks an explicit attach. -/
structure CompletionArtifact where
  name : String
  kind : ArtifactKind
  forge : Option String := none
  repo : Option String := none
  branchName : Option String := none
  commitHash : Option String := none
  content : Option String := none
  attached : Bool := false
  deriving DecidableEq, Repr

structure CheckOutcome where
  command : String
  passed : Bool
  deriving DecidableEq, Repr

/-- A node-step's completion. `decisionId` names the gate decision a resolving transition
carries. -/
structure Completion where
  choice : String
  epoch : ℤ
  runnerId : RunnerId
  fromNodeId : String
  checkResults : List CheckOutcome := []
  artifacts : List CompletionArtifact := []
  decisionId : Option String := none
  routeToken : Option String := none
  leaseId : Option String := none
  deriving DecidableEq, Repr

/-- A gate decision as its chunk's edge reads it. -/
structure GateDecision where
  decisionId : String
  chunkId : ChunkId
  nodeId : String
  epoch : ℤ
  resolvedChoice : Option String := none
  transitioned : Bool := false
  deriving DecidableEq, Repr

def GateDecision.resolved (decision : GateDecision) : Bool := decision.resolvedChoice.isSome

def GateDecision.isOpen (decision : GateDecision) : Bool :=
  !decision.resolved && !decision.transitioned

/-- Why a resolving transition naming this gate cannot leave `nodeId`. -/
def GateDecision.resolvingRefusal (decision : GateDecision) (chunkId : ChunkId)
    (nodeId nodeName : String) (epoch : ℤ) (choice : String) : Option String :=
  if decision.chunkId ≠ chunkId ∨ decision.nodeId ≠ nodeId then
    some s!"decision {decision.decisionId} does not match node `{nodeName}`"
  else if decision.epoch ≠ epoch then
    some (s!"decision {decision.decisionId} belongs to epoch {decision.epoch}, not current " ++
      s!"visit {epoch}")
  else
    match decision.resolvedChoice with
    | none => some s!"decision {decision.decisionId} is not yet resolved"
    | some resolved =>
      if choice ≠ resolved then some s!"choice `{choice}` is not the resolved choice `{resolved}`"
      else none

/-! ## The two completion gates -/

/-- A `requires_checks` choice taken while any check is red. -/
def checksViolated (requiresChecks : Bool) (results : List CheckOutcome) : Bool :=
  requiresChecks && results.any (!·.passed)

/-- The `produces` specs a submission's artifacts do not cover: an asset by an attached artifact
or a commit of its own name, a commit by any commit. -/
def unmet (artifacts : List CompletionArtifact) (specs : List ProducesSpec) :
    List ProducesSpec :=
  let satisfied := (artifacts.filter fun a => a.attached || a.kind = .gitCommit).map (·.name)
  specs.filter fun spec =>
    if spec.kind = .gitCommit then !artifacts.any (·.kind = .gitCommit)
    else decide (spec.name ∉ satisfied)

/-- The rollout brake on the `produces` backstop. -/
inductive ProducesMode | warn | enforce
  deriving DecidableEq, Repr

/-- The failure detail a submission that misses a declared name is rejected with. -/
def producesRejection (node : Node) (artifacts : List CompletionArtifact) (mode : ProducesMode) :
    Option String :=
  let missing := (unmet artifacts node.produces).map (·.name)
  if missing = [] then none
  else
    match mode with
    | .enforce => some (s!"node `{node.name}` declares produces {quotedList missing} with no " ++
        "explicit `blizzard runner attach` and no covering git commit")
    | .warn => none

/-! ## Plans -/

/-- A completion refused before anything is recorded. -/
inductive CompletionRefused
  | signoffRequired (nodeName : String)
  | gateDecisionOpen (decisionId nodeName : String)
  | gateResolutionUnapplied (decisionId nodeName resolvedChoice : String)
  | unknownChoice (nodeName choice : String)
  | unknownGateChoice (nodeName choice : String)
  | redCheck (choice : String)
  | producesUnmet (detail : String)
  | decisionRefused (detail : String)
  | unknownDestination (choice toNodeName : String)
  deriving DecidableEq, Repr

/-- The failure the runner is answered with. -/
def CompletionRefused.detail : CompletionRefused → String
  | .signoffRequired nodeName =>
      s!"human signoff required: node `{nodeName}` is a gate — resolve its decision"
  | .gateDecisionOpen decisionId nodeName =>
      s!"decision {decisionId} is open at node `{nodeName}` — resolve it"
  | .gateResolutionUnapplied decisionId nodeName resolvedChoice =>
      s!"decision {decisionId} at node `{nodeName}` is resolved to `{resolvedChoice}` — submit " ++
        "its resolving transition with decision_id"
  | .unknownChoice nodeName choice => s!"node {nodeName} has no choice `{choice}`"
  | .unknownGateChoice nodeName choice => s!"gate `{nodeName}` has no choice `{choice}`"
  | .redCheck choice => s!"choice `{choice}` requires green checks but a check is red"
  | .producesUnmet detail | .decisionRefused detail => detail
  | .unknownDestination choice toNodeName =>
      s!"choice `{choice}` routes to unknown node {toNodeName}"

/-- Whether a refusal is for a choice or a node the graph does not know. -/
def CompletionRefused.unknown : CompletionRefused → Bool
  | .unknownChoice _ _ | .unknownGateChoice _ _ | .unknownDestination _ _ => true
  | _ => false

/-- The edge a completion takes and where it lands in its own graph: `none` when the edge crosses
graphs or escalates. -/
structure CompletionPlan where
  edge : Edge
  toNodeId : Option String
  deriving DecidableEq, Repr

def CompletionPlan.escalates (plan : CompletionPlan) : Bool := plan.edge.escalates

def CompletionPlan.migrates (plan : CompletionPlan) : Bool :=
  plan.toNodeId.isNone && !plan.edge.escalates

/-- The plan of a completion that takes `edge`. -/
def planAlong (graph : Graph) (edge : Edge) (choice : String) :
    Except CompletionRefused CompletionPlan :=
  if edge.targetGraph.isSome || edge.escalates then .ok { edge, toNodeId := none }
  else
    match destination graph edge with
    | none => .error (.unknownDestination choice edge.toNodeName)
    | some toNodeId => .ok { edge, toNodeId := some toNodeId }

/-- A gate at this node-step that no transition has carried yet: open, or resolved and awaiting
its resolving transition. -/
def gateRefusal (openGate : Option GateDecision) (fromNode : Node) : Option CompletionRefused :=
  match openGate with
  | none => none
  | some gate =>
    if gate.isOpen then some (.gateDecisionOpen gate.decisionId fromNode.name)
    else
      match gate.resolvedChoice with
      | some choice =>
        if gate.transitioned then none
        else some (.gateResolutionUnapplied gate.decisionId fromNode.name choice)
      | none => none

/-- A completion carrying no decision id. -/
def CompletionPlan.plain (graph : Graph) (fromNode : Node) (submission : Completion)
    (openGate : Option GateDecision) (mode : ProducesMode) :
    Except CompletionRefused CompletionPlan :=
  if fromNode.judgedBy = .human then .error (.signoffRequired fromNode.name)
  else
    match gateRefusal openGate fromNode with
    | some refused => .error refused
    | none =>
      match graph.edgeForChoice fromNode.nodeId submission.choice with
      | none => .error (.unknownChoice fromNode.name submission.choice)
      | some edge =>
        let selected := fromNode.choices.find? fun c => c.name = submission.choice
        if selected.any fun c => checksViolated c.requiresChecks submission.checkResults then
          .error (.redCheck submission.choice)
        else
          match producesRejection fromNode submission.artifacts mode with
          | some detail => .error (.producesUnmet detail)
          | none => planAlong graph edge submission.choice

/-- The resolving transition out of a gate: the named decision must be this gate's, resolved, and
from this visit. -/
def CompletionPlan.resolving (graph : Graph) (gateNode : Node) (submission : Completion)
    (decision : Option GateDecision) (chunkId : ChunkId) (visitEpoch : Option ℤ) :
    Except CompletionRefused CompletionPlan :=
  let refusal := match decision with
    | none =>
      let named := submission.decisionId.getD "None"
      some s!"decision {named} does not match node `{gateNode.name}`"
    | some decision =>
      decision.resolvingRefusal chunkId gateNode.nodeId gateNode.name
        (visitEpoch.getD submission.epoch) submission.choice
  match refusal with
  | some detail => .error (.decisionRefused detail)
  | none =>
    match graph.edgeForChoice gateNode.nodeId submission.choice with
    | none => .error (.unknownGateChoice gateNode.name submission.choice)
    | some edge => planAlong graph edge submission.choice

/-! ## What a plan depends on -/

theorem gateRefusal_known {openGate : Option GateDecision} {fromNode : Node}
    {refused : CompletionRefused} (h : gateRefusal openGate fromNode = some refused) :
    refused.unknown = false := by
  unfold gateRefusal at h
  split at h
  · cases h
  · split at h
    · cases h
      rfl
    · split at h
      · split at h
        · cases h
        · cases h
          rfl
      · cases h

theorem planAlong_known {graph : Graph} {edge : Edge} {choice : String}
    (known : edge.targetGraph.isSome ∨ edge.escalates ∨ (destination graph edge).isSome)
    {refused : CompletionRefused} : planAlong graph edge choice ≠ .error refused := by
  unfold planAlong
  split
  · simp
  · next hstays =>
    simp only [Bool.or_eq_true, not_or, Bool.not_eq_true] at hstays
    cases hdest : destination graph edge with
    | none => simp [hstays, hdest] at known
    | some toNodeId => simp

/-- Where a plan lands is the destination of the edge it takes. -/
theorem planAlong_lands {graph : Graph} {edge : Edge} {choice : String} {plan : CompletionPlan}
    (h : planAlong graph edge choice = .ok plan) :
    plan.edge = edge ∧ ∀ toNodeId, plan.toNodeId = some toNodeId →
      destination graph edge = some toNodeId := by
  unfold planAlong at h
  split at h
  · cases h
    simp
  · split at h
    · cases h
    · next toNodeId hdest =>
      cases h
      exact ⟨rfl, fun t ht => hdest.trans ht⟩

/-- A plain completion out of a node whose choice keys a known edge is never refused for a choice
or a node the graph does not know. -/
theorem plain_known {graph : Graph} {fromNode : Node} {submission : Completion} {edge : Edge}
    (keyed : graph.edgeForChoice fromNode.nodeId submission.choice = some edge)
    (known : edge.targetGraph.isSome ∨ edge.escalates ∨ (destination graph edge).isSome)
    (openGate : Option GateDecision) (mode : ProducesMode) {refused : CompletionRefused}
    (h : CompletionPlan.plain graph fromNode submission openGate mode = .error refused) :
    refused.unknown = false := by
  unfold CompletionPlan.plain at h
  split at h
  · cases h
    rfl
  · split at h
    · next refusal hgate =>
      cases h
      exact gateRefusal_known hgate
    · simp only [keyed] at h
      split at h
      · cases h
        rfl
      · split at h
        · cases h
          rfl
        · exact absurd h (planAlong_known known)

theorem resolving_known {graph : Graph} {gateNode : Node} {submission : Completion} {edge : Edge}
    (keyed : graph.edgeForChoice gateNode.nodeId submission.choice = some edge)
    (known : edge.targetGraph.isSome ∨ edge.escalates ∨ (destination graph edge).isSome)
    (decision : Option GateDecision) (chunkId : ChunkId) (visitEpoch : Option ℤ)
    {refused : CompletionRefused}
    (h : CompletionPlan.resolving graph gateNode submission decision chunkId visitEpoch
      = .error refused) : refused.unknown = false := by
  unfold CompletionPlan.resolving at h
  simp only at h
  split at h
  · cases h
    rfl
  · simp only [keyed] at h
    exact absurd h (planAlong_known known)

/-- A plain plan takes the edge its choice keys. -/
theorem plain_along {graph : Graph} {fromNode : Node} {submission : Completion}
    {openGate : Option GateDecision} {mode : ProducesMode} {plan : CompletionPlan}
    (h : CompletionPlan.plain graph fromNode submission openGate mode = .ok plan) :
    ∃ edge, graph.edgeForChoice fromNode.nodeId submission.choice = some edge ∧
      planAlong graph edge submission.choice = .ok plan := by
  unfold CompletionPlan.plain at h
  split at h
  · cases h
  · split at h
    · cases h
    · split at h
      · cases h
      · next edge hedge =>
        simp only at h
        split at h
        · cases h
        · split at h
          · cases h
          · exact ⟨edge, hedge, h⟩

theorem resolving_along {graph : Graph} {gateNode : Node} {submission : Completion}
    {decision : Option GateDecision} {chunkId : ChunkId} {visitEpoch : Option ℤ}
    {plan : CompletionPlan}
    (h : CompletionPlan.resolving graph gateNode submission decision chunkId visitEpoch
      = .ok plan) : ∃ edge, graph.edgeForChoice gateNode.nodeId submission.choice = some edge ∧
      planAlong graph edge submission.choice = .ok plan := by
  unfold CompletionPlan.resolving at h
  simp only at h
  split at h
  · cases h
  · split at h
    · cases h
    · next edge hedge => exact ⟨edge, hedge, h⟩

end Blizzard.CompletionPlans
