import Blizzard.TranscriptTurns

/-! # Shrinking a record's turns

The texts of a turn that may be cut, one pass's cut of them all, with the marks
it leaves, and what a shrunk turn is to the turn it came from. The floats of a
pass are rationals, rounded by a parameter. -/
namespace Blizzard.TranscriptShrink
open JsonTexts TranscriptTurns

/-! ## One cut of every text -/

def cutTool (cut : Cut) (tool : WireTool) : WireTool :=
  { tool with
    input := cut.fields tool.input
    inputUnparsed := tool.inputUnparsed.map cut.text
    output := tool.output.map cut.text
    outputTruncated := tool.outputTruncated || tool.output.any cut.shortens
    inputTruncated := tool.inputTruncated ||
      (cut.shortensFields tool.input || tool.inputUnparsed.any cut.shortens) }

def cutFields (cut : Cut) (turn : WireFields) : WireFields :=
  { turn with
    text := cut.text turn.text
    truncated := turn.truncated || cut.shortens turn.text
    tool := turn.tool.map (cutTool cut) }

mutual

/-- Every text of a turn and of the turns nested under it, cut; the marks say where. -/
def cutTurn (cut : Cut) : WireTurn → WireTurn
  | .plain fields => .plain (cutFields cut fields)
  | .spawning fields sidechain turns =>
    .spawning (cutFields cut fields) sidechain (cutTurns cut turns)

def cutTurns (cut : Cut) : List WireTurn → List WireTurn
  | [] => []
  | turn :: rest => cutTurn cut turn :: cutTurns cut rest

end

/-! ## The candidates of a pass -/

/-- A text that carries anything. -/
def carried (text : String) : List String := if text = "" then [] else [text]

mutual

/-- `_walk_shrinkable_strings`: the texts inside a value. -/
def leaves : Json → List String
  | .string text => carried text
  | .array items => leavesItems items
  | .object fields => leavesFields fields
  | .null => []
  | .bool _ => []
  | .number _ => []

def leavesItems : List Json → List String
  | [] => []
  | item :: rest => leaves item ++ leavesItems rest

def leavesFields : Fields → List String
  | [] => []
  | (_, value) :: rest => leaves value ++ leavesFields rest

end

def toolTexts (tool : WireTool) : List String :=
  carried (tool.output.getD "") ++ leavesFields tool.input ++ carried (tool.inputUnparsed.getD "")

def fieldsTexts (turn : WireFields) : List String :=
  carried turn.text ++ (turn.tool.map toolTexts).getD []

mutual

/-- The texts of `_shrink_candidates` in a turn and the turns nested under it. -/
def turnTexts : WireTurn → List String
  | .plain fields => fieldsTexts fields
  | .spawning fields _ turns => fieldsTexts fields ++ turnsTexts turns

def turnsTexts : List WireTurn → List String
  | [] => []
  | turn :: rest => turnTexts turn ++ turnsTexts rest

end

/-- `_byte_cost`. -/
def byteCost (text : String) : ℕ := (dumpsString text).length

/-! ## One pass -/

/-- `int` of a float. -/
def truncated (x : ℚ) : ℤ := if 0 ≤ x then ⌊x⌋ else ⌈x⌉

/-- The length of `text[:end_]` of a text of this length. -/
def sliceLength (length : ℕ) (end_ : ℤ) : ℕ :=
  if 0 ≤ end_ then min end_.toNat length else length - end_.natAbs

/-- What a pass keeps of every text, by its share of the overshoot; `double` rounds to a float. -/
def keepFraction (double : ℚ → ℚ) (cap : ℤ) (size shrinkable : ℕ) : ℚ :=
  let target := truncated (double (double cap / double (115 / 100)))
  let overshoot := (size : ℤ) - target
  max 0 (double ((((shrinkable : ℤ) - overshoot : ℤ) : ℚ) / shrinkable))

/-- The length a pass leaves a text of this length. -/
def passLength (double : ℚ → ℚ) (keep : ℚ) (length : ℕ) : ℕ :=
  let newLength := truncated (double (double length * keep))
  if length = 0 then 0
  else if newLength < length then sliceLength length newLength
  else length

theorem sliceLength_le (length : ℕ) (end_ : ℤ) : sliceLength length end_ ≤ length := by
  rw [sliceLength]
  split <;> omega

theorem passLength_le (double : ℚ → ℚ) (keep : ℚ) (length : ℕ) :
    passLength double keep length ≤ length := by
  rw [passLength]
  split
  · omega
  · split
    · exact sliceLength_le _ _
    · omega

/-- A pass shortens just the texts whose new length is less. -/
theorem passLength_lt_iff {double : ℚ → ℚ} {keep : ℚ} {length : ℕ} (some_ : length ≠ 0) :
    passLength double keep length < length ↔
      truncated (double (double length * keep)) < length := by
  rw [passLength, if_neg some_]
  split
  · rename_i less
    rw [sliceLength]
    split <;> omega
  · rename_i not_
    omega

def passCut (double : ℚ → ℚ) (cap : ℤ) (size shrinkable : ℕ) : Cut :=
  ⟨passLength double (keepFraction double cap size shrinkable), passLength_le _ _⟩

/-! ## What a shrunk turn is -/

/-- An optional text, shortened to a prefix of itself. -/
def ShortenedText : Option String → Option String → Prop :=
  Option.Rel fun text shorter => shorter.toList <+: text.toList

/-- A call whose texts are prefixes of another's, marked just where they differ. -/
structure ShrunkTool (tool shrunk : WireTool) : Prop where
  output : ShortenedText tool.output shrunk.output
  input : ShortenedFields tool.input shrunk.input
  inputUnparsed : ShortenedText tool.inputUnparsed shrunk.inputUnparsed
  outputTruncated : shrunk.outputTruncated = true ↔
    tool.outputTruncated = true ∨ shrunk.output ≠ tool.output
  inputTruncated : shrunk.inputTruncated = true ↔ tool.inputTruncated = true ∨
    shrunk.input ≠ tool.input ∨ shrunk.inputUnparsed ≠ tool.inputUnparsed
  others : shrunk =
    { tool with
      input := shrunk.input, inputUnparsed := shrunk.inputUnparsed, output := shrunk.output,
      outputTruncated := shrunk.outputTruncated, inputTruncated := shrunk.inputTruncated }

structure ShrunkFields (turn shrunk : WireFields) : Prop where
  text : shrunk.text.toList <+: turn.text.toList
  truncated : shrunk.truncated = true ↔ turn.truncated = true ∨ shrunk.text ≠ turn.text
  tool : Option.Rel ShrunkTool turn.tool shrunk.tool
  others : shrunk =
    { turn with text := shrunk.text, truncated := shrunk.truncated, tool := shrunk.tool }

mutual

/-- A turn with every text of it, and of those nested under it, a prefix of what it was. -/
inductive ShrunkTurn : WireTurn → WireTurn → Prop
  | plain {fields shrunk : WireFields} (own : ShrunkFields fields shrunk) :
      ShrunkTurn (.plain fields) (.plain shrunk)
  | spawning {fields shrunk : WireFields} {sidechain : WireSidechain}
      {turns others : List WireTurn} (own : ShrunkFields fields shrunk)
      (nested : ShrunkTurns turns others) :
      ShrunkTurn (.spawning fields sidechain turns) (.spawning shrunk sidechain others)

inductive ShrunkTurns : List WireTurn → List WireTurn → Prop
  | nil : ShrunkTurns [] []
  | cons {turn shrunk : WireTurn} {turns others : List WireTurn} (first : ShrunkTurn turn shrunk)
      (rest : ShrunkTurns turns others) : ShrunkTurns (turn :: turns) (shrunk :: others)

end

theorem shortenedText (cut : Cut) (text : Option String) :
    ShortenedText text (text.map cut.text) := by
  cases text with
  | none => exact .none
  | some text => exact .some (Cut.text_prefix text)

theorem any_shortens_iff (cut : Cut) (text : Option String) :
    text.any cut.shortens = true ↔ text.map cut.text ≠ text := by
  cases text with
  | none => simp
  | some text => simp [Cut.shortens_iff]

theorem cutTool_shrunk (cut : Cut) (tool : WireTool) : ShrunkTool tool (cutTool cut tool) where
  output := shortenedText cut tool.output
  input := cut.shortenedFields tool.input
  inputUnparsed := shortenedText cut tool.inputUnparsed
  outputTruncated := by
    rw [cutTool, Bool.or_eq_true, any_shortens_iff]
  inputTruncated := by
    rw [cutTool, Bool.or_eq_true, Bool.or_eq_true, any_shortens_iff, cut.shortensFields_iff]
  others := rfl

theorem cutFields_shrunk (cut : Cut) (turn : WireFields) :
    ShrunkFields turn (cutFields cut turn) where
  text := Cut.text_prefix turn.text
  truncated := by
    rw [cutFields, Bool.or_eq_true, Cut.shortens_iff]
  tool := by
    rw [cutFields]
    cases turn.tool with
    | none => exact .none
    | some tool => exact .some (cutTool_shrunk cut tool)
  others := rfl

mutual

theorem cutTurn_shrunk (cut : Cut) : ∀ turn, ShrunkTurn turn (cutTurn cut turn)
  | .plain fields => .plain (cutFields_shrunk cut fields)
  | .spawning fields _ turns => .spawning (cutFields_shrunk cut fields) (cutTurns_shrunk cut turns)

theorem cutTurns_shrunk (cut : Cut) : ∀ turns, ShrunkTurns turns (cutTurns cut turns)
  | [] => .nil
  | turn :: rest => .cons (cutTurn_shrunk cut turn) (cutTurns_shrunk cut rest)

end

/-! ## Cuts in turn -/

theorem any_andThen (first second : Cut) (text : Option String) :
    text.any (first.andThen second).shortens =
      (text.any first.shortens || (text.map first.text).any second.shortens) := by
  cases text with
  | none => rfl
  | some text => exact Cut.andThen_shortens text

theorem map_andThen (first second : Cut) (text : Option String) :
    text.map (first.andThen second).text = (text.map first.text).map second.text := by
  cases text with
  | none => rfl
  | some text => exact congrArg some (Cut.andThen_text text)

theorem cutTool_andThen (first second : Cut) (tool : WireTool) :
    cutTool (first.andThen second) tool = cutTool second (cutTool first tool) := by
  simp only [cutTool, any_andThen, map_andThen, Cut.andThen_fields, Cut.andThen_shortensFields,
    WireTool.mk.injEq, true_and, and_true]
  exact ⟨(Bool.or_assoc _ _ _).symm, by ac_rfl⟩

theorem cutFields_andThen (first second : Cut) (turn : WireFields) :
    cutFields (first.andThen second) turn = cutFields second (cutFields first turn) := by
  have tools : turn.tool.map (cutTool (first.andThen second)) =
      (turn.tool.map (cutTool first)).map (cutTool second) := by
    cases turn.tool with
    | none => rfl
    | some tool => exact congrArg some (cutTool_andThen first second tool)
  simp only [cutFields, tools, Cut.andThen_text, Cut.andThen_shortens, Bool.or_assoc]

mutual

theorem cutTurn_andThen (first second : Cut) : ∀ turn,
    cutTurn (first.andThen second) turn = cutTurn second (cutTurn first turn)
  | .plain fields => by simp only [cutTurn, cutFields_andThen]
  | .spawning fields sidechain turns => by
    simp only [cutTurn, cutFields_andThen, cutTurns_andThen first second turns]

theorem cutTurns_andThen (first second : Cut) : ∀ turns,
    cutTurns (first.andThen second) turns = cutTurns second (cutTurns first turns)
  | [] => rfl
  | turn :: rest => by
    simp only [cutTurns, cutTurn_andThen first second turn, cutTurns_andThen first second rest]

end

theorem whole_shortens (text : String) : Cut.whole.shortens text = false := by
  simp [Cut.shortens, Cut.whole]

theorem cutTool_whole (tool : WireTool) : cutTool .whole tool = tool := by
  have fields : Cut.whole.shortensFields tool.input = false := by
    rw [← Bool.not_eq_true, Cut.shortensFields_iff, Cut.whole_fields]
    simp
  have none_ : ∀ text : Option String, text.any Cut.whole.shortens = false := by
    intro text
    cases text <;> simp [whole_shortens]
  have same : ∀ text : Option String, text.map Cut.whole.text = text := by
    intro text
    cases text <;> simp [Cut.whole_text]
  simp only [cutTool, fields, none_, same, Cut.whole_fields, Bool.or_false]

theorem cutFields_whole (turn : WireFields) : cutFields .whole turn = turn := by
  have tools : turn.tool.map (cutTool .whole) = turn.tool := by
    cases turn.tool with
    | none => rfl
    | some tool => exact congrArg some (cutTool_whole tool)
  simp only [cutFields, tools, Cut.whole_text, whole_shortens, Bool.or_false]

mutual

theorem cutTurn_whole : ∀ turn, cutTurn .whole turn = turn
  | .plain fields => by rw [cutTurn, cutFields_whole]
  | .spawning fields sidechain turns => by rw [cutTurn, cutFields_whole, cutTurns_whole turns]

theorem cutTurns_whole : ∀ turns, cutTurns .whole turns = turns
  | [] => rfl
  | turn :: rest => by rw [cutTurns, cutTurn_whole turn, cutTurns_whole rest]

end

theorem ShrunkTurns.refl (turns : List WireTurn) : ShrunkTurns turns turns := by
  have shrunk := cutTurns_shrunk .whole turns
  rwa [cutTurns_whole] at shrunk

theorem ShrunkTurns.append {a b c d : List WireTurn} (first : ShrunkTurns a b)
    (second : ShrunkTurns c d) : ShrunkTurns (a ++ c) (b ++ d) := by
  induction a generalizing b with
  | nil =>
    cases first
    exact second
  | cons turn rest ih =>
    cases first with
    | cons head tail => exact .cons head (ih tail)

end Blizzard.TranscriptShrink
