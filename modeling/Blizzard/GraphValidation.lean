import Mathlib.Data.List.Dedup
import Blizzard.GraphDocuments

/-! # Mint-time graph validation

The rules a parsed definition passes before it is minted. Each check returns the errors it found,
in the order the validator collects them; a definition with none is accepted. -/
namespace Blizzard.GraphValidation
open HubTables WorkflowGraph GraphDocuments SourceText

/-! ## The hub action catalogue -/

/-- Answers that end a pass without moving the chunk. -/
def reservedWaits : List String := ["pending", "awaiting-merge"]

/-- One action as graph validation and the executor see it. -/
structure ActionSpec where
  name : String
  args : List String := []
  requiredArgs : List String := []
  answers : List String := []
  answersFromArg : Option String := none
  deriving DecidableEq, Repr

/-- The values a node passes for one argument, none where it passes it not at all. -/
def argOf (actionArgs : List (String × List String)) (arg : String) : List String :=
  ((actionArgs.find? fun entry => entry.1 = arg).map Prod.snd).getD []

/-- The choices a node passing `actionArgs` may be answered with. -/
def ActionSpec.answersFor (spec : ActionSpec) (actionArgs : List (String × List String)) :
    List String :=
  match spec.answersFromArg with
  | none => spec.answers
  | some arg => argOf actionArgs arg

def ActionSpec.canWaitFor (spec : ActionSpec) (actionArgs : List (String × List String)) : Bool :=
  (spec.answersFor actionArgs).any (· ∈ reservedWaits)

/-- The actions a hub knows, keyed by name. -/
abbrev HubActionCatalogue := List ActionSpec

def HubActionCatalogue.get (catalogue : HubActionCatalogue) (name : String) : Option ActionSpec :=
  catalogue.find? fun spec => spec.name = name

def shippedCatalogue : HubActionCatalogue :=
  [{ name := "land",
     answers := ["landed", "conflict", "failure", "inherited-failure", "pending",
       "awaiting-merge"] },
   { name := "record-findings", answers := ["recorded", "invalid", "failure"] },
   { name := "garden-deliver", args := ["delta", "proposals"],
     answers := ["recorded", "invalid", "invalid-proposals", "failure"] },
   { name := "pass", answers := ["success"] }]

/-- The reserved choice a nonzero exit, a refusal or a poll timeout routes. -/
def hubDefaultFailureChoice : String := "failure"

/-! ## Rules over the whole document -/

def isAsciiAlphanumeric (c : Char) : Bool := c.isAlphanum

/-- A trailing `.` and one to eight alphanumerics. -/
def hasFileExtension (content : List Char) : Bool :=
  let last := content.reverse
  let extension := last.takeWhile isAsciiAlphanumeric
  decide (1 ≤ extension.length ∧ extension.length ≤ 8) &&
    decide ((last.drop extension.length).head? = some '.')

/-- An `artifacts` value that still reads as a bare path: one whitespace-free token, with no URL
scheme, carrying a `/` or a filename extension. -/
def isUninlinedFileReference (content : String) : Bool :=
  let chars := content.toList
  if chars = [] ∨ chars.any isWhitespace ∨ chars.tails.any ("://".toList.isPrefixOf ·) then false
  else decide ('/' ∈ chars) || hasFileExtension chars

/-- Alphanumerics with single internal `-`, `_` or `.` separators. -/
def isValidGraphArtifactName (name : String) : Bool :=
  let chars := name.toList
  let separator := fun c => c = '-' || c = '_' || c = '.'
  chars.all (fun c => isAsciiAlphanumeric c || separator c) &&
    chars.head?.any isAsciiAlphanumeric && chars.getLast?.any isAsciiAlphanumeric &&
    (chars.zip chars.tail).all fun (c, d) => !(separator c && separator d)

/-- The blank and duplicate entries of an ordered harness preference: what is wrong with the
entry at each position, `none` for a blank one and its text for a duplicate. -/
def harnessProblems (entries : List String) : List (Nat × Option String) :=
  let texts := entries.map stripped
  (texts.zipIdx 1).filterMap fun (entry, position) =>
    if entry = "" then some (position, none)
    else if entry ∈ texts.take (position - 1) then some (position, some entry)
    else none

section document
variable (doc : GraphDoc)

def nodeNames : List String := doc.nodes.map (·.name)

def sessionNames : List String := doc.sessions.map Prod.fst

def checkEntry : List String :=
  if doc.entry ∈ nodeNames doc then []
  else [s!"entry `{doc.entry}` does not name an existing node"]

def checkReservedNames : List String :=
  if reservedEscalate ∈ nodeNames doc then
    [s!"node `{reservedEscalate}`: the name is reserved for the escalation target"]
  else []

def checkHarnesses (name : String) (harnesses : List String) : List String :=
  (harnessProblems harnesses).map fun (position, duplicate) =>
    match duplicate with
    | none => s!"session `{name}`: `harnesses` entries must be non-empty strings — entry " ++
        s!"{position} is blank"
    | some entry => s!"session `{name}`: `harnesses` entries must be unique — duplicate `{entry}`"

/-- A bound of a declared session's rotation must be positive. -/
def checkRotate (name field : String) (value : Option Int) : List String :=
  match value with
  | some n =>
    if n ≤ 0 then [s!"session `{name}`: `rotate.{field}` must be a positive number"] else []
  | none => []

/-- A declared text of a session must not be blank. -/
def checkDeclared (name field : String) (value : Option String) : List String :=
  match value with
  | some text =>
    if blank text then [s!"session `{name}`: `{field}` must be a non-empty string"] else []
  | none => []

def checkDecl (name : String) (decl : SessionDecl) : List String :=
  (decl.model.filter (· = "")).map
      (fun _ => s!"session `{name}`: `model` entries must be non-empty strings") ++
    checkDeclared name "effort" decl.effort ++
    checkDeclared name "compaction_window" decl.compactionWindow ++
    checkHarnesses name decl.harnesses ++
    match decl.rotate with
    | none => []
    | some rotate =>
      checkRotate name "max_context_tokens" rotate.maxContextTokens ++
        checkRotate name "max_transcript_bytes" rotate.maxTranscriptBytes ++
        checkRotate name "max_invocations" rotate.maxInvocations

def checkSessions : List String :=
  doc.sessions.flatMap fun (name, decl) =>
    (if name ∈ nodeNames doc then
      [s!"session `{name}`: a session name may not collide with a node name — " ++
        s!"`resume:{name}` would resolve to the session and never the node"]
    else []) ++ checkDecl name decl

def checkArtifacts : List String :=
  let producesNames := doc.nodes.flatMap fun node => node.produces.map (·.name)
  doc.artifacts.flatMap fun (name, content) =>
    (if isValidGraphArtifactName name then []
    else
      [s!"artifact `{name}`: name must be alphanumerics with internal `-`, `_`, `.` only — " ++
        "non-empty, no leading/trailing separator, no two separators in a row, no `/`"]) ++
    (if name ∈ producesNames then
      [s!"artifact `{name}`: collides with a node's `produces:` name"]
    else []) ++
    if isUninlinedFileReference content then
      [s!"artifact `{name}`: value `{content}` is a file path, not content — a definition " ++
        "posted without a directory to resolve against must carry the file's text inline"]
    else []

end document

/-! ## Rules over one node -/

section node
variable (node : NodeDoc)

/-- The choices a node authors, none where it declares no judgement. -/
def choiceDocs : List ChoiceDoc := (node.judgement.map (·.choices)).getD []

def checkRun : List String :=
  if !node.namesRun then []
  else if node.executor = .hub then
    [s!"hub node `{node.name}`: `run:` is retired — name an `action:` in its place"]
  else [s!"node `{node.name}`: `run:` is only legal on a hub node (`executor: hub`)"]

/-- Whether a node passes any `with` argument. -/
def passesArgs : Bool := !node.actionArgs.isEmpty || !node.malformedActionArgs.isEmpty

/-- The texts of one list that are not in another, in order and once each. -/
def without (texts removed : List String) : List String :=
  sortedTexts (texts.filter (· ∉ removed)).dedup

/-- What a node naming a catalogued action passes it and authors for its answers. -/
def checkActionSpec (spec : ActionSpec) : List String :=
  let passed := node.actionArgs.map Prod.fst
  let authored := (choiceDocs node).map (·.name)
  node.malformedActionArgs.map
      (fun key => s!"hub node `{node.name}`: `with.{key}` must be a string or a list of strings") ++
    (without passed spec.args).map
      (fun key => s!"hub node `{node.name}`: action `{spec.name}` declares no argument `{key}`") ++
    (without spec.requiredArgs (passed ++ node.malformedActionArgs)).map
      (fun key => s!"hub node `{node.name}`: action `{spec.name}` requires argument `with.{key}`") ++
    (without (spec.answersFor node.actionArgs) (reservedWaits ++ authored)).map
      fun answer => s!"hub node `{node.name}`: action `{spec.name}` can answer `{answer}`, " ++
        "which the node authors no choice for"

def checkAction (catalogue : HubActionCatalogue) : List String :=
  if node.executor ≠ .hub then
    (if node.action.isSome then
      [s!"node `{node.name}`: `action:` is only legal on a hub node (`executor: hub`)"]
    else []) ++
    if passesArgs node then
      [s!"node `{node.name}`: `with:` is only legal on a hub node (`executor: hub`)"]
    else []
  else
    match node.action with
    | none =>
      (if !node.namesRun then
        [s!"hub node `{node.name}`: a hub node must name an `action:`"]
      else []) ++
      if passesArgs node then
        [s!"hub node `{node.name}`: `with:` is only legal on a node that names an `action:`"]
      else []
    | some action =>
      match catalogue.get action with
      | none =>
        let names := quotedList (sortedTexts (catalogue.map (·.name)).dedup)
        [s!"hub node `{node.name}`: unknown action `{action}` — expected one of {names}"]
      | some spec => checkActionSpec node spec

def checkReservedWaits : List String :=
  ((choiceDocs node).filter fun choice => choice.name ∈ reservedWaits).map fun choice =>
    s!"node `{node.name}` choice `{choice.name}`: `{choice.name}` is a reserved wait and may " ++
      "not be authored as a choice"

/-- Whether a node's action can be answered a reserved wait. -/
def canWait (catalogue : HubActionCatalogue) : Bool :=
  decide (node.executor = .hub) &&
    ((node.action.bind catalogue.get).map fun spec => spec.canWaitFor node.actionArgs).getD false

def checkPoll (catalogue : HubActionCatalogue) : List String :=
  let interval := node.pollIntervalSeconds
  let timeout := node.pollTimeoutSeconds
  (if (interval.isSome || timeout.isSome) && !canWait node catalogue then
    [s!"node `{node.name}`: `poll_interval`/`poll_timeout` are only legal on a hub command node " ++
      "that can wait (an `action:` that can answer a reserved wait)"]
  else []) ++
  (if interval.any (· ≤ 0) then
    [s!"node `{node.name}`: `poll_interval` must be a positive number of seconds"]
  else []) ++
  (if timeout.any (· ≤ 0) then
    [s!"node `{node.name}`: `poll_timeout` must be a positive number of seconds"]
  else []) ++
  match interval, timeout with
  | some interval, some timeout =>
    if timeout < interval then
      [s!"node `{node.name}`: `poll_timeout` must be >= `poll_interval`"]
    else []
  | _, _ => []

/-- A declared and non-empty prompt. -/
def hasPrompt (prompt : Option String) : Bool := prompt.any (· ≠ "")

def checkJudgementKind : List String :=
  match node.executor, node.judgement with
  | .runner, none => [s!"node `{node.name}`: a runner node must declare a judgement"]
  | .runner, some judgement =>
    if judgement.by_ = .worker ∧ !hasPrompt judgement.prompt then
      [s!"node `{node.name}`: a worker-judged node must declare `judgement.prompt`"]
    else if judgement.by_ = .human ∧ hasPrompt judgement.prompt then
      [s!"node `{node.name}`: a human-judged (gate) node must not declare `judgement.prompt`"]
    else []
  | .hub, judgement =>
    (if node.prompt.isSome then
      [s!"hub node `{node.name}`: a hub command node must not declare `prompt`"]
    else []) ++
    (if !node.checks.isEmpty then
      [s!"hub node `{node.name}`: a hub command node must not declare `checks`"]
    else []) ++
    (if judgement.any fun judgement => hasPrompt judgement.prompt then
      [s!"hub node `{node.name}`: a hub command node must not declare `judgement.prompt`"]
    else []) ++
    (if judgement.any fun judgement => judgement.by_ = .human then
      [s!"hub node `{node.name}`: a hub executor cannot have a human judgement"]
    else []) ++
    match judgement with
    | none =>
      [s!"hub node `{node.name}`: a hub command node must declare a judgement " ++
        "(its outcome choices — at least the edges its commands route)"]
    | some judgement =>
      if judgement.choices.all fun choice => choice.name ≠ hubDefaultFailureChoice then
        [s!"hub node `{node.name}`: a hub command node must author the reserved " ++
          s!"`{hubDefaultFailureChoice}` choice — a nonzero exit, a refusal, or a poll timeout " ++
          "routes it"]
      else []

def checkChecksGating : List String :=
  (if node.checks.isEmpty && node.checksCwd.isSome then
    [s!"node `{node.name}`: `checks_cwd` is only legal on a node that declares `checks:`"]
  else []) ++
  (if node.checks.isEmpty && node.checksTimeout.isSome then
    [s!"node `{node.name}`: `checks_timeout` is only legal on a node that declares `checks:`"]
  else []) ++
  (if node.checksTimeout.any (· ≤ 0) then
    [s!"node `{node.name}`: `checks_timeout` must be a positive number of seconds"]
  else []) ++
  (choiceDocs node).flatMap fun choice =>
    if !choice.requiresChecks then []
    else
      (if node.checks.isEmpty then
        [s!"node `{node.name}` choice `{choice.name}`: `requires_checks` is only legal on a " ++
          "choice whose node declares `checks:`"]
      else []) ++
      if node.judgement.any fun judgement => judgement.by_ = .human then
        [s!"node `{node.name}` choice `{choice.name}`: `requires_checks` is not legal on a " ++
          "human-judged (gate) node"]
      else []

/-- What is wrong with where one choice points. -/
def checkTarget (names : List String) (choice : ChoiceDoc) : List String :=
  match choice.to_ with
  | none => [s!"node `{node.name}` choice `{choice.name}`: missing `to`"]
  | some target =>
    if (ChoiceTarget.of target).malformed then
      [s!"node `{node.name}` choice `{choice.name}`: malformed cross-graph target " ++
        s!"`to: {target}` — expected `graph:<name>`"]
    else if (ChoiceTarget.of target).node = some reservedEscalate then
      if node.executor = .hub then
        [s!"hub node `{node.name}` choice `{choice.name}`: `to: {reservedEscalate}` is only legal " ++
          "on a runner node — a hub node's outcomes route through the hub's own causes"]
      else []
    else
      match (ChoiceTarget.of target).node with
      | some toNode =>
        if toNode ≠ reservedTerminal ∧ toNode ∉ names then
          [s!"node `{node.name}` choice `{choice.name}`: `to: {target}` resolves to no node " ++
            s!"(and is not the reserved terminal `{reservedTerminal}` or the reserved " ++
            s!"escalation `{reservedEscalate}`)"]
        else []
      | none => []

def checkChoiceTargets (names : List String) : List String :=
  (choiceDocs node).flatMap fun choice =>
    (if choice.description.all (· = "") then
      [s!"node `{node.name}` choice `{choice.name}`: missing `description`"]
    else []) ++ checkTarget node names choice

def checkSessionRef (names sessions : List String) : List String :=
  if node.sessionMalformed then
    [s!"node `{node.name}`: malformed session value — expected `fresh`, `resume`, " ++
      "`resume:<node>`, `fresh:<session>`, or `resume:<session>`"]
  else
    match node.sessionSource, node.session with
    | none, _ => []
    | some source, .fresh =>
      if source ∈ sessions then []
      else
        [s!"node `{node.name}`: session `fresh:{source}` names no declared session " ++
          "(`fresh:<name>` must name a `sessions:` entry, never a node)"]
    | some source, .resume =>
      if source ∈ sessions ∨ source ∈ names then []
      else
        [s!"node `{node.name}`: session `resume:{source}` names neither a declared session nor " ++
          "a node"]

def checkRetries : List String :=
  match node.retriesExhausted with
  | some exhausted =>
    if exhausted = "escalate" then []
    else [s!"node `{node.name}`: retries.exhausted must be `escalate`, got `{exhausted}`"]
  | none => []

def checkRetiredKeys (hubVersion : String) : List String :=
  node.retiredKeys.map fun key =>
    s!"node `{node.name}`: retired key `{key}` — this hub (blizzard {hubVersion}) no longer " ++
      "accepts it"

/-- Every error of one node. -/
def nodeCheck (hubVersion : String) (catalogue : HubActionCatalogue)
    (names sessions : List String) : List String :=
  checkRun node ++ checkAction node catalogue ++ checkReservedWaits node ++
    checkPoll node catalogue ++ checkJudgementKind node ++ checkChecksGating node ++
    checkChoiceTargets node names ++ checkSessionRef node names sessions ++ checkRetries node ++
    checkRetiredKeys node hubVersion

end node

/-- Every error of a definition. -/
def validate (hubVersion : String) (catalogue : HubActionCatalogue) (doc : GraphDoc) :
    List String :=
  checkEntry doc ++ checkReservedNames doc ++ checkSessions doc ++ checkArtifacts doc ++
    doc.nodes.flatMap fun node =>
      nodeCheck node hubVersion catalogue (nodeNames doc) (sessionNames doc)

/-! ## What an accepted definition satisfies -/

/-- What the errors of one node's checks being empty says about its choices. -/
structure NodeAccepted (catalogue : HubActionCatalogue) (names : List String)
    (node : NodeDoc) : Prop where
  targets : ∀ choice ∈ choiceDocs node, ∃ target, choice.to_ = some target ∧
    (ChoiceTarget.of target).malformed = false ∧
    ((ChoiceTarget.of target).node = some reservedEscalate → node.executor ≠ .hub) ∧
    ∀ toNode, (ChoiceTarget.of target).node = some toNode →
      toNode = reservedEscalate ∨ toNode = reservedTerminal ∨ toNode ∈ names
  failure : node.executor = .hub → hubDefaultFailureChoice ∈ (choiceDocs node).map (·.name)
  answers : node.executor = .hub → ∃ action spec, node.action = some action ∧
    catalogue.get action = some spec ∧
    ∀ answer ∈ spec.answersFor node.actionArgs, answer ∉ reservedWaits →
      answer ∈ (choiceDocs node).map (·.name)

theorem checkTarget_accepted {node : NodeDoc} {names : List String} {choice : ChoiceDoc}
    (h : checkTarget node names choice = []) : ∃ target, choice.to_ = some target ∧
      (ChoiceTarget.of target).malformed = false ∧
      ((ChoiceTarget.of target).node = some reservedEscalate → node.executor ≠ .hub) ∧
      ∀ toNode, (ChoiceTarget.of target).node = some toNode →
        toNode = reservedEscalate ∨ toNode = reservedTerminal ∨ toNode ∈ names := by
  unfold checkTarget at h
  cases hto : choice.to_ with
  | none => simp [hto] at h
  | some target =>
    simp only [hto] at h
    refine ⟨target, rfl, ?_⟩
    cases hmal : (ChoiceTarget.of target).malformed
    · simp only [hmal, Bool.false_eq_true, if_false] at h
      refine ⟨rfl, ?_, ?_⟩
      · intro hesc hhub
        simp [hesc, hhub] at h
      · intro toNode hnode
        by_cases hesc : toNode = reservedEscalate
        · exact .inl hesc
        · right
          have hresolves : ¬(toNode ≠ reservedTerminal ∧ toNode ∉ names) := by
            intro hbad
            simp [hnode, hesc, hbad] at h
          tauto
    · simp [hmal] at h

theorem mem_without {texts removed : List String} {x : String} :
    x ∈ without texts removed ↔ x ∈ texts ∧ x ∉ removed := by
  simp [without, sortedTexts, List.mem_dedup]

theorem checkAction_accepted {node : NodeDoc} {catalogue : HubActionCatalogue}
    (h : checkAction node catalogue = []) (hrun : checkRun node = [])
    (hub : node.executor = .hub) : ∃ action spec, node.action = some action ∧
      catalogue.get action = some spec ∧
      ∀ answer ∈ spec.answersFor node.actionArgs, answer ∉ reservedWaits →
        answer ∈ (choiceDocs node).map (·.name) := by
  have hnames : node.namesRun = false := by
    cases hn : node.namesRun
    · rfl
    · simp [checkRun, hn, hub] at hrun
  unfold checkAction at h
  simp only [hub, ne_eq, not_true_eq_false, if_false] at h
  cases haction : node.action with
  | none => simp [haction, hnames] at h
  | some action =>
    simp only [haction] at h
    cases hspec : catalogue.get action with
    | none => simp [hspec] at h
    | some spec =>
      simp only [hspec, checkActionSpec, List.append_eq_nil_iff, List.map_eq_nil_iff] at h
      refine ⟨action, spec, rfl, hspec, fun answer hanswer hwait => ?_⟩
      by_contra hauthored
      have hmem : answer ∈ without (spec.answersFor node.actionArgs)
          (reservedWaits ++ (choiceDocs node).map (·.name)) := by
        apply mem_without.mpr
        exact ⟨hanswer, by simp only [List.mem_append, not_or]; exact ⟨hwait, hauthored⟩⟩
      rw [h.2] at hmem
      exact List.not_mem_nil hmem

theorem checkJudgementKind_accepted {node : NodeDoc} (h : checkJudgementKind node = [])
    (hub : node.executor = .hub) :
    hubDefaultFailureChoice ∈ (choiceDocs node).map (·.name) := by
  unfold checkJudgementKind at h
  simp only [hub, List.append_eq_nil_iff] at h
  obtain ⟨-, hchoices⟩ := h
  cases hjudgement : node.judgement with
  | none => simp [hjudgement] at hchoices
  | some judgement =>
    simp only [hjudgement, ite_eq_right_iff, reduceCtorEq, imp_false, Bool.not_eq_true,
      List.all_eq_false, decide_eq_true_eq, not_not] at hchoices
    obtain ⟨choice, hchoice, hname⟩ := hchoices
    simp only [choiceDocs, hjudgement, Option.map_some, Option.getD_some, List.mem_map]
    exact ⟨choice, hchoice, hname⟩

theorem nodeCheck_accepted {hubVersion : String} {catalogue : HubActionCatalogue}
    {names sessions : List String} {node : NodeDoc}
    (h : nodeCheck node hubVersion catalogue names sessions = []) :
    NodeAccepted catalogue names node := by
  simp only [nodeCheck, List.append_eq_nil_iff] at h
  obtain ⟨⟨⟨⟨⟨⟨⟨⟨⟨hrun, haction⟩, -⟩, -⟩, hkind⟩, -⟩, htargets⟩, -⟩, -⟩, -⟩ := h
  refine ⟨?_, checkJudgementKind_accepted hkind, checkAction_accepted haction hrun⟩
  intro choice hchoice
  have hboth := List.flatMap_eq_nil_iff.mp htargets choice hchoice
  exact checkTarget_accepted (List.append_eq_nil_iff.mp hboth).2

/-- An accepted definition's entry names a node, no node has the escalation's name, and every
node is accepted. -/
theorem validate_accepted {hubVersion : String} {catalogue : HubActionCatalogue}
    {doc : GraphDoc} (h : validate hubVersion catalogue doc = []) :
    doc.entry ∈ nodeNames doc ∧ reservedEscalate ∉ nodeNames doc ∧
      ∀ node ∈ doc.nodes, NodeAccepted catalogue (nodeNames doc) node := by
  simp only [validate, List.append_eq_nil_iff] at h
  obtain ⟨⟨⟨⟨hentry, hreserved⟩, -⟩, -⟩, hnodes⟩ := h
  refine ⟨?_, ?_, ?_⟩
  · by_contra hmissing
    simp [checkEntry, hmissing] at hentry
  · intro hname
    simp [checkReservedNames, hname] at hreserved
  · intro node hnode
    exact nodeCheck_accepted (List.flatMap_eq_nil_iff.mp hnodes node hnode)

end Blizzard.GraphValidation
