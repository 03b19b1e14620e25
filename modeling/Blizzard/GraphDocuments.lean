import Blizzard.SourceText
import Blizzard.WorkflowGraph

/-! # Authored graph documents

The plain-data shape a graph is written in and its parse from a decoded config document.
A mapping's keys become names through `str`, so keys that differ as values may become one name. -/
namespace Blizzard.GraphDocuments
open HubTables WorkflowGraph SourceText

/-- A decoded config value. A float, a list and a map carry the text `str` prints for them. -/
inductive Value
  | null
  | bool (b : Bool)
  | int (n : Int)
  | float (text : String)
  | str (s : String)
  | list (text : String) (items : List Value)
  | map (text : String) (entries : List (Value × Value))

/-- `str(value)`. -/
def Value.text : Value → String
  | .null => "None"
  | .bool true => "True"
  | .bool false => "False"
  | .int n => toString n
  | .float text => text
  | .str s => s
  | .list text _ => text
  | .map text _ => text

/-- `type(value).__name__`. -/
def Value.typeName : Value → String
  | .null => "NoneType"
  | .bool _ => "bool"
  | .int _ => "int"
  | .float _ => "float"
  | .str _ => "str"
  | .list _ _ => "list"
  | .map _ _ => "dict"

/-- `bool(value)`. -/
def Value.truthy : Value → Bool
  | .null => false
  | .bool b => b
  | .int n => decide (n ≠ 0)
  | .float text => decide (text ∉ ["0.0", "-0.0"])
  | .str s => decide (s ≠ "")
  | .list _ items => !items.isEmpty
  | .map _ entries => !entries.isEmpty

/-- `repr(value)`. -/
def Value.repr : Value → String
  | .str s => quoted s
  | value => value.text

/-- Where a definition cannot be read: the message of the error it raises. -/
abbrev Read (α : Type) := Except String α

/-! ## The coercions the documents share -/

/-- One authored mapping. -/
abbrev Body := List (Value × Value)

def parserOf (value : Value) (place : String) : Read Body :=
  match value with
  | .map _ entries => .ok entries
  | other => .error s!"expected a map at {place}, got {other.typeName}"

/-- `body.get(key)`: `none` where the key is absent. -/
def Body.get (body : Body) (key : String) : Option Value :=
  (body.find? fun entry => match entry.1 with
    | .str s => decide (s = key)
    | _ => false).map Prod.snd

/-- A value that is neither absent nor null. -/
def Body.given (body : Body) (key : String) : Option Value :=
  match body.get key with
  | some .null | none => none
  | some value => some value

def Body.text (body : Body) (key : String) : Option String := (body.given key).map Value.text

def Body.number (body : Body) (key : String) : Read (Option Int) :=
  match body.given key with
  | none => .ok none
  | some value =>
    match intOfText value.text with
    | some n => .ok (some n)
    | none => .error s!"invalid literal for int() with base 10: {quoted value.text}"

def Body.items (body : Body) (key : String) : Read (List Value) :=
  match body.given key with
  | none => .ok []
  | some (.list _ items) => .ok items
  | some other => .error s!"expected a list, got {other.typeName}"

/-- One entry set in a `dict`: a key already there keeps its place. -/
def dictSet {β : Type} (dict : List (String × β)) (key : String) (value : β) :
    List (String × β) :=
  if dict.any (fun entry => entry.1 = key) then
    dict.map fun entry => if entry.1 = key then (key, value) else entry
  else dict ++ [(key, value)]

/-- The `dict` of a sequence of entries, the last of one key standing. -/
def dictOf {β : Type} (entries : List (String × β)) : List (String × β) :=
  entries.foldl (fun dict entry => dictSet dict entry.1 entry.2) []

/-! ## Documents -/

/-- The cross-graph target prefix of a choice's `to`. -/
def graphTargetPrefix : String := "graph:"

/-- What a choice's `to` points at: a node or a reserved name, another graph, or neither. -/
structure ChoiceTarget where
  node : Option String := none
  graph : Option String := none
  deriving DecidableEq, Repr

def ChoiceTarget.of (target : String) : ChoiceTarget :=
  if graphTargetPrefix.toList.isPrefixOf target.toList then
    let name := target.toList.drop graphTargetPrefix.toList.length
    if name = [] ∨ ':' ∈ name then {} else { graph := some (String.ofList name) }
  else { node := some target }

def ChoiceTarget.malformed (target : ChoiceTarget) : Bool :=
  target.node.isNone && target.graph.isNone

structure ChoiceDoc where
  name : String
  description : Option String
  to_ : Option String
  promptAddendum : Option String := none
  targetGraph : Option String := none
  model : Option String := none
  requiresChecks : Bool := false
  deriving DecidableEq, Repr

def ChoiceDoc.of (key raw : Value) : Read ChoiceDoc := do
  let body ← parserOf raw key.repr
  let target := body.text "to"
  return {
    name := key.text
    description := body.text "description"
    to_ := target
    promptAddendum := body.text "prompt_addendum"
    targetGraph := target.bind fun text => (ChoiceTarget.of text).graph
    model := body.text "model"
    requiresChecks := ((body.get "requires_checks").map Value.truthy).getD false }

structure JudgementDoc where
  prompt : Option String
  by_ : JudgedBy
  choices : List ChoiceDoc
  deriving DecidableEq, Repr

def judgedByOf (text : String) : Read JudgedBy :=
  if text = "worker" then .ok .worker
  else if text = "human" then .ok .human
  else .error s!"{quoted text} is not a valid JudgedBy"

/-- The mapping under `choices`, empty where the judgement authors none. -/
def choicesBody (body : Body) : Read Body :=
  match body.get "choices" with
  | none => .ok []
  | some (.map _ entries) => .ok entries
  | some _ => .error "`judgement.choices` must be a map of choice name -> entry"

def JudgementDoc.of (raw : Option Value) : Read (Option JudgementDoc) :=
  match raw with
  | none | some .null => .ok none
  | some (.map _ body) => do
    let judge ← judgedByOf (((Body.get body "by").map Value.text).getD "worker")
    let entries ← choicesBody body
    let choices ← entries.mapM fun entry => ChoiceDoc.of entry.1 entry.2
    return some { prompt := Body.text body "prompt", by_ := judge, choices }
  | some _ => .error "`judgement` must be a map"

def producesOf (node : String) (raw : Value) : Read ProducesSpec :=
  match raw with
  | .str s => .ok { name := s, kind := .asset }
  | raw => do
    let body ← parserOf raw (quoted s!"node {quoted node} `produces` entry")
    match body.get "name" with
    | none => .error s!"node {quoted node}: a `produces` entry must declare `name`"
    | some name =>
      let kind := ((body.get "kind").map Value.text).getD "asset"
      if kind = "asset" then .ok { name := name.text, kind := .asset }
      else if kind = "git_commit" then .ok { name := name.text, kind := .gitCommit }
      else
        let given := ((body.get "kind").map Value.repr).getD (quoted "asset")
        .error (s!"node {quoted node} produces `{name.text}`: unknown kind {given} — expected " ++
          "`asset` or `git_commit`")

/-- Per-node session freshness. -/
inductive SessionMode | resume | fresh
  deriving DecidableEq, Repr

/-- What an authored `session` names; under `malformed` no field may be relied on. -/
structure SessionRef where
  mode : SessionMode
  source : Option String := none
  malformed : Bool := false
  deriving DecidableEq, Repr

/-- What follows a prefix, where something does. -/
def afterPrefix (lead raw : String) : Option String :=
  if lead.toList.isPrefixOf raw.toList then
    let name := raw.toList.drop lead.toList.length
    if name = [] then none else some (String.ofList name)
  else none

def SessionRef.of (raw : String) : SessionRef :=
  if raw = "fresh" then { mode := .fresh }
  else if raw = "resume" then { mode := .resume }
  else
    match afterPrefix "resume:" raw, afterPrefix "fresh:" raw with
    | some name, _ => { mode := .resume, source := some name }
    | none, some name => { mode := .fresh, source := some name }
    | none, none => { mode := .resume, malformed := true }

structure NodeDoc where
  name : String
  executor : Executor
  prompt : Option String := none
  checks : List String := []
  produces : List ProducesSpec := []
  session : SessionMode := .resume
  retriesExhausted : Option String := none
  judgement : Option JudgementDoc := none
  namesRun : Bool := false
  action : Option String := none
  actionArgs : List (String × List String) := []
  malformedActionArgs : List String := []
  pollIntervalSeconds : Option Int := none
  pollTimeoutSeconds : Option Int := none
  sessionSource : Option String := none
  sessionMalformed : Bool := false
  checksCwd : Option String := none
  checksTimeout : Option Int := none
  retiredKeys : List String := []
  deriving DecidableEq, Repr

def executorOf (text : String) : Read Executor :=
  if text = "runner" then .ok .runner
  else if text = "hub" then .ok .hub
  else .error s!"{quoted text} is not a valid Executor"

/-- The texts of a list of strings, `none` where an item is not a string. -/
def stringItems (items : List Value) : Option (List String) :=
  items.mapM fun item => match item with
    | .str s => some s
    | _ => none

/-- The values of one `with` entry: a string, or a list of strings. -/
def argValues : Value → Option (List String)
  | .str s => some [s]
  | .list _ items => stringItems items
  | _ => none

def actionArgsOf (node : String) (raw : Option Value) :
    Read (List (String × List String) × List String) :=
  match raw with
  | none | some .null => .ok ([], [])
  | some raw => do
    let body ← parserOf raw (quoted s!"node {quoted node} `with`")
    let args := body.filterMap fun entry => (argValues entry.2).map fun v => (entry.1.text, v)
    let malformed := body.filterMap fun entry =>
      if (argValues entry.2).isNone then some entry.1.text else none
    return (dictOf args, sortedTexts malformed)

def retriesExhaustedOf (raw : Option Value) : Option String :=
  match raw with
  | some (.map _ body) => Body.text body "exhausted"
  | _ => none

/-- Node keys an earlier hub read and this one refuses at mint. -/
def retiredNodeKeys : List String := ["proposes_work_items"]

def NodeDoc.of (key raw : Value) : Read NodeDoc := do
  let body ← parserOf raw key.repr
  let name := key.text
  let executor ← executorOf (((body.get "executor").map Value.text).getD "runner")
  let session := SessionRef.of (((body.get "session").map Value.text).getD "resume")
  let checks ← body.items "checks"
  let produces ← body.items "produces"
  let produces ← produces.mapM (producesOf name)
  let pollIntervalSeconds ← body.number "poll_interval"
  let pollTimeoutSeconds ← body.number "poll_timeout"
  let checksTimeout ← body.number "checks_timeout"
  let args ← actionArgsOf name (body.get "with")
  let judgement ← JudgementDoc.of (body.get "judgement")
  return {
    name, executor, produces, judgement, pollIntervalSeconds, pollTimeoutSeconds, checksTimeout
    prompt := body.text "prompt"
    checks := checks.map Value.text
    session := session.mode
    retriesExhausted := retriesExhaustedOf (body.get "retries")
    namesRun := (body.get "run").isSome
    action := body.text "action"
    actionArgs := args.1
    malformedActionArgs := args.2
    sessionSource := session.source
    sessionMalformed := session.malformed
    checksCwd := body.text "checks_cwd"
    retiredKeys := retiredNodeKeys.filter fun key => (body.get key).isSome }

/-- One declared session's rotation bounds. -/
structure RotatePolicy where
  maxContextTokens : Option Int := none
  maxTranscriptBytes : Option Int := none
  maxInvocations : Option Int := none
  deriving DecidableEq, Repr

def RotatePolicy.of (session : String) (raw : Value) : Read RotatePolicy := do
  let body ← parserOf raw (quoted s!"session {quoted session} `rotate`")
  let maxContextTokens ← body.number "max_context_tokens"
  let maxTranscriptBytes ← body.number "max_transcript_bytes"
  let maxInvocations ← body.number "max_invocations"
  return { maxContextTokens, maxTranscriptBytes, maxInvocations }

def sessionKnownKeys : List String := ["compaction_window", "effort", "harnesses", "model", "rotate"]

/-- One graph-level named session declaration. -/
structure SessionDecl where
  name : String
  model : List String := []
  effort : Option String := none
  rotate : Option RotatePolicy := none
  compactionWindow : Option String := none
  harnesses : List String := []
  deriving DecidableEq, Repr

/-- A list of texts, one string standing for a list of itself. -/
def textsOf (body : Body) (key : String) : Read (List String) :=
  match body.get key with
  | some (.str s) => .ok [s]
  | _ => do
    let items ← body.items key
    return items.map Value.text

def SessionDecl.of (hubVersion : String) (key raw : Value) : Read SessionDecl := do
  let body ← parserOf raw (quoted s!"session {key.repr}")
  let name := key.text
  let unknown := sortedTexts <| (body.filter fun entry => match entry.1 with
    | .str s => decide (s ∉ sessionKnownKeys)
    | _ => true).map fun entry => entry.1.text
  if !unknown.isEmpty then
    let listed := ", ".intercalate unknown
    .error (s!"session {quoted name}: unknown key(s) {listed} — this hub (blizzard {hubVersion}) " ++
      s!"recognizes only {quotedList sessionKnownKeys}")
  else
    let model ← textsOf body "model"
    let empty := match body.get "harnesses" with
      | some (.list _ []) => true
      | _ => false
    if empty then
      .error (s!"session {quoted name}: `harnesses` must not be an empty list — omit the key to " ++
        "accept every harness")
    else
      let harnesses ← textsOf body "harnesses"
      let rotate ← match body.given "rotate" with
        | none => .ok none
        | some raw => (RotatePolicy.of name raw).map some
      return {
        name, model, harnesses, rotate
        effort := body.text "effort"
        compactionWindow := body.text "compaction_window" }

/-- A whole graph definition as authored. -/
structure GraphDoc where
  name : String
  entry : String
  nodes : List NodeDoc
  sessions : List (String × SessionDecl) := []
  artifacts : List (String × String) := []
  deriving DecidableEq, Repr

def sessionsOf (hubVersion : String) (raw : Option Value) : Read (List (String × SessionDecl)) :=
  match raw with
  | none | some .null => .ok []
  | some raw => do
    let body ← parserOf raw (quoted "`sessions`")
    let decls ← body.mapM fun entry => do
      let decl ← SessionDecl.of hubVersion entry.1 entry.2
      return (entry.1.text, decl)
    return dictOf decls

def artifactsOf (raw : Option Value) : Read (List (String × String)) :=
  match raw with
  | none | some .null => .ok []
  | some raw => do
    let body ← parserOf raw (quoted "`artifacts`")
    let artifacts ← body.mapM fun entry => match entry.2 with
      | .str content => .ok (entry.1.text, content)
      | other =>
        let place := quoted s!"`artifacts.{entry.1.text}`"
        .error s!"expected text at {place}, got {other.typeName}"
    return dictOf artifacts

/-- A required key of the definition. -/
def required (raw : Body) (key : String) : Read Value :=
  match raw.get key with
  | some value => .ok value
  | none => .error s!"graph definition missing required key: {quoted key}"

/-- The mapping under `nodes`. -/
def nodesBody (raw : Body) : Read Body := do
  match ← required raw "nodes" with
  | .map _ entries => return entries
  | _ => .error "`nodes` must be a map of node name -> node"

def GraphDoc.of (hubVersion : String) (raw : Body) : Read GraphDoc := do
  let name ← required raw "name"
  let entry ← required raw "entry"
  let nodes ← nodesBody raw
  let nodes ← nodes.mapM fun entry => NodeDoc.of entry.1 entry.2
  let sessions ← sessionsOf hubVersion (raw.get "sessions")
  let artifacts ← artifactsOf (raw.get "artifacts")
  return { name := name.text, entry := entry.text, nodes, sessions, artifacts }

end Blizzard.GraphDocuments
