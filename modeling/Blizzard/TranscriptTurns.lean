import Blizzard.HubTables
import Blizzard.JsonTexts

/-! # A transcript's turns on the wire

The turns a harness reads, the wire turn each becomes, and the turns a window
synthesizes for what belongs to a call already shipped: a late output, a late
sidechain. -/
namespace Blizzard.TranscriptTurns
open HubTables QueueCursors JsonTexts

inductive TurnKind | env | asst | tool | thinking
  deriving DecidableEq, Repr

inductive ToolInputShape | object | absent | string | other
  deriving DecidableEq, Repr

/-- A tool call; its input is the parsed object. -/
structure ToolCall where
  name : String
  input : Fields
  inputUnparsed : Option String
  inputShape : ToolInputShape
  toolUseId : Option String
  output : Option String
  outputTruncated : Bool

/-- A turn, but for the conversation nested under it. -/
structure TurnFields where
  kind : TurnKind
  timestamp : Option Instant
  text : String
  tool : Option ToolCall
  thinkingRedacted : Bool
  truncated : Bool

/-- A subagent's conversation, but for its turns. -/
structure SidechainFields where
  agentId : Option String
  agentType : Option String
  link : String

/-- A turn, and one that spawned a sidechain. -/
inductive NormalizedTurn
  | plain (fields : TurnFields)
  | spawning (fields : TurnFields) (sidechain : SidechainFields) (turns : List NormalizedTurn)

structure SidechainConversation extends SidechainFields where
  turns : List NormalizedTurn

structure LateToolOutput where
  toolUseId : String
  output : String
  outputTruncated : Bool

/-- One window of a session, as far as its records read it. -/
structure TranscriptBatch where
  turns : List NormalizedTurn
  lateToolOutputs : List LateToolOutput := []
  unlinkedSidechains : List SidechainConversation := []
  normalizerVersion : String
  harnessVersion : Option String

structure WireTool where
  name : String
  input : Fields
  inputUnparsed : Option String
  inputShape : ToolInputShape
  toolUseId : Option String
  output : Option String
  outputTruncated : Bool
  inputTruncated : Bool
  outputPatch : Bool

structure WireFields where
  index : ℕ
  kind : String
  timestamp : Option String
  text : String
  tool : Option WireTool
  thinkingRedacted : Bool
  truncated : Bool

structure WireSidechain where
  agentId : Option String
  agentType : Option String
  link : String
  parentToolUseId : Option String

inductive WireTurn
  | plain (fields : WireFields)
  | spawning (fields : WireFields) (sidechain : WireSidechain) (turns : List WireTurn)

/-! ## From a batch to the wire -/

def kindValue : TurnKind → String
  | .env => "env"
  | .asst => "asst"
  | .tool => "tool"
  | .thinking => "thinking"

def toolWire (tool : ToolCall) : WireTool :=
  { name := tool.name, input := tool.input, inputUnparsed := tool.inputUnparsed,
    inputShape := tool.inputShape, toolUseId := tool.toolUseId, output := tool.output,
    outputTruncated := tool.outputTruncated, inputTruncated := false, outputPatch := false }

/-- `turn_wire` but for the sidechain; `isoUtc` is the text of an instant. -/
def fieldsWire (isoUtc : Instant → String) (index : ℕ) (turn : TurnFields) : WireFields :=
  { index, kind := kindValue turn.kind, timestamp := turn.timestamp.map isoUtc, text := turn.text,
    tool := turn.tool.map toolWire, thinkingRedacted := turn.thinkingRedacted,
    truncated := turn.truncated }

/-- `sidechain_wire` but for the turns. -/
def sidechainWire (sidechain : SidechainFields) : WireSidechain :=
  { agentId := sidechain.agentId, agentType := sidechain.agentType, link := sidechain.link,
    parentToolUseId := none }

mutual

def turnWire (isoUtc : Instant → String) (index : ℕ) : NormalizedTurn → WireTurn
  | .plain fields => .plain (fieldsWire isoUtc index fields)
  | .spawning fields sidechain turns =>
    .spawning (fieldsWire isoUtc index fields) (sidechainWire sidechain)
      (turnsWire isoUtc 0 turns)

/-- The turns of a list, numbered from an index on. -/
def turnsWire (isoUtc : Instant → String) (index : ℕ) : List NormalizedTurn → List WireTurn
  | [] => []
  | turn :: rest => turnWire isoUtc index turn :: turnsWire isoUtc (index + 1) rest

end

/-- The call that spawned a sidechain, where some window named the pair. -/
def parentOf (parents : String → Option String) (sidechain : SidechainConversation) :
    Option String :=
  sidechain.agentId.bind parents

def outputPatchWire (late : LateToolOutput) (index : ℕ) : WireTurn :=
  .plain
    { index, kind := "tool", timestamp := none, text := "",
      tool := some
        { name := "", input := [], inputUnparsed := none, inputShape := .absent,
          toolUseId := some late.toolUseId, output := some late.output,
          outputTruncated := late.outputTruncated, inputTruncated := false, outputPatch := true },
      thinkingRedacted := false, truncated := false }

def lateSidechainWire (isoUtc : Instant → String) (sidechain : SidechainConversation) (index : ℕ)
    (parentToolUseId : String) : WireTurn :=
  .spawning
    { index, kind := "sidechain", timestamp := none, text := "", tool := none,
      thinkingRedacted := false, truncated := false }
    { sidechainWire sidechain.toSidechainFields with
      link := "agent-id-late", parentToolUseId := some parentToolUseId }
    (turnsWire isoUtc 0 sidechain.turns)

def outputPatchWires (index : ℕ) : List LateToolOutput → List WireTurn
  | [] => []
  | late :: rest => outputPatchWire late index :: outputPatchWires (index + 1) rest

/-- Late sidechains in turn; one whose parent no window named is left out. -/
def lateSidechainWires (isoUtc : Instant → String) (parents : String → Option String)
    (index : ℕ) : List SidechainConversation → List WireTurn
  | [] => []
  | sidechain :: rest =>
    match parentOf parents sidechain with
    | none => lateSidechainWires isoUtc parents index rest
    | some parent =>
      lateSidechainWire isoUtc sidechain index parent ::
        lateSidechainWires isoUtc parents (index + 1) rest

def lateLinkWires (isoUtc : Instant → String) (parents : String → Option String)
    (batch : TranscriptBatch) (start : ℕ) : List WireTurn :=
  let outputs := outputPatchWires start batch.lateToolOutputs
  outputs ++
    lateSidechainWires isoUtc parents (start + outputs.length) batch.unlinkedSidechains

/-! ## The JSON of a wire turn -/

def textJson : Option String → Json
  | none => .null
  | some text => .string text

def shapeValue : ToolInputShape → String
  | .object => "object"
  | .absent => "absent"
  | .string => "string"
  | .other => "other"

def toolJson (tool : WireTool) : Json :=
  .object
    [("name", .string tool.name), ("input", .object tool.input),
      ("input_unparsed", textJson tool.inputUnparsed),
      ("input_shape", .string (shapeValue tool.inputShape)),
      ("tool_use_id", textJson tool.toolUseId), ("output", textJson tool.output),
      ("output_truncated", .bool tool.outputTruncated),
      ("input_truncated", .bool tool.inputTruncated), ("output_patch", .bool tool.outputPatch)]

def fieldsJson (turn : WireFields) (sidechain : Json) : Json :=
  .object
    [("index", .number (intText turn.index)), ("kind", .string turn.kind),
      ("timestamp", textJson turn.timestamp), ("text", .string turn.text),
      ("tool", (turn.tool.map toolJson).getD .null),
      ("thinking_redacted", .bool turn.thinkingRedacted), ("sidechain", sidechain),
      ("truncated", .bool turn.truncated)]

def sidechainJson (sidechain : WireSidechain) (turns : List Json) : Json :=
  .object
    [("agent_id", textJson sidechain.agentId), ("agent_type", textJson sidechain.agentType),
      ("link", .string sidechain.link), ("turns", .array turns),
      ("parent_tool_use_id", textJson sidechain.parentToolUseId)]

mutual

def turnJson : WireTurn → Json
  | .plain fields => fieldsJson fields .null
  | .spawning fields sidechain turns =>
    fieldsJson fields (sidechainJson sidechain (turnsJson turns))

def turnsJson : List WireTurn → List Json
  | [] => []
  | turn :: rest => turnJson turn :: turnsJson rest

end

theorem turnsJson_eq (turns : List WireTurn) : turnsJson turns = turns.map turnJson := by
  induction turns with
  | nil => rfl
  | cons turn rest ih => rw [turnsJson, ih, List.map_cons]

end Blizzard.TranscriptTurns
