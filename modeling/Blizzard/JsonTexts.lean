import Mathlib
import Blizzard.QueueCursors

/-! # JSON values and the size of their text

The text of a JSON value in ASCII, as `json.dumps` writes it, and its size in
bytes: of an array by its items, of an object by its fields. Cutting every text
inside a value keeps its shape; two cuts in turn are one. -/
namespace Blizzard.JsonTexts
open QueueCursors

/-- A JSON value; a number is held as its text. -/
inductive Json
  | null
  | bool (value : Bool)
  | number (text : List Char)
  | string (text : String)
  | array (items : List Json)
  | object (fields : List (String × Json))

abbrev Fields := List (String × Json)

/-! ## The text and its size -/

def dumpsString (text : String) : List Char :=
  quoteMark :: (text.toList.flatMap escaped ++ [quoteMark])

def openBrace : Char := Char.ofNat 123
def closeBrace : Char := Char.ofNat 125

/-- Parts in turn, a comma and a space between. -/
def separated (parts : List (List Char)) : List Char :=
  [',', ' '].intercalate parts

mutual

/-- `json.dumps`. -/
def dumps : Json → List Char
  | .null => ['n', 'u', 'l', 'l']
  | .bool true => ['t', 'r', 'u', 'e']
  | .bool false => ['f', 'a', 'l', 's', 'e']
  | .number text => text
  | .string text => dumpsString text
  | .array items => '[' :: (separated (dumpsItems items) ++ [']'])
  | .object fields => openBrace :: (separated (dumpsFields fields) ++ [closeBrace])

def dumpsItems : List Json → List (List Char)
  | [] => []
  | item :: rest => dumps item :: dumpsItems rest

def dumpsFields : List (String × Json) → List (List Char)
  | [] => []
  | (key, value) :: rest => (dumpsString key ++ ':' :: ' ' :: dumps value) :: dumpsFields rest

end

/-- The bytes of a text in UTF-8. -/
def byteSize (text : List Char) : ℕ := (text.map Char.utf8Size).sum

def encodedSize (value : Json) : ℕ := byteSize (dumps value)

@[simp] theorem byteSize_nil : byteSize [] = 0 := rfl

@[simp] theorem byteSize_cons (c : Char) (text : List Char) :
    byteSize (c :: text) = c.utf8Size + byteSize text := by
  simp [byteSize]

@[simp] theorem byteSize_append (a b : List Char) : byteSize (a ++ b) = byteSize a + byteSize b := by
  simp [byteSize]

theorem utf8Size_ascii {c : Char} (ascii : c.toNat ≤ 127) : c.utf8Size = 1 := by
  rw [Char.utf8Size, if_pos]
  exact ascii

/-- Separators stand between parts only. -/
theorem byteSize_separated (parts : List (List Char)) :
    byteSize (separated parts) = (parts.map byteSize).sum + 2 * (parts.length - 1) := by
  induction parts with
  | nil => rfl
  | cons first rest ih =>
    cases rest with
    | nil => simp [separated]
    | cons second rest =>
      have joined : separated (first :: second :: rest) =
          first ++ (',' :: ' ' :: separated (second :: rest)) := by
        simp [separated]
      have comma : (',').utf8Size = 1 := rfl
      have space : (' ').utf8Size = 1 := rfl
      rw [joined, byteSize_append, byteSize_cons, byteSize_cons, ih, comma, space]
      simp only [List.map_cons, List.sum_cons, List.length_cons]
      omega

theorem dumpsItems_eq (items : List Json) : dumpsItems items = items.map dumps := by
  induction items with
  | nil => rfl
  | cons item rest ih => rw [dumpsItems, ih, List.map_cons]

/-- The size of a field: its key, a colon, a space, its value. -/
def fieldSize (field : String × Json) : ℕ :=
  byteSize (dumpsString field.1) + 2 + encodedSize field.2

theorem dumpsFields_sizes (fields : Fields) :
    (dumpsFields fields).map byteSize = fields.map fieldSize := by
  induction fields with
  | nil => rfl
  | cons field rest ih =>
    have colon : (':').utf8Size = 1 := rfl
    have space : (' ').utf8Size = 1 := rfl
    rw [dumpsFields, List.map_cons, List.map_cons, ih, byteSize_append, byteSize_cons, byteSize_cons,
      colon, space, fieldSize, encodedSize]
    congr 1
    omega

/-- The size of an array: brackets, its items, what separates them. -/
theorem encodedSize_array (items : List Json) :
    encodedSize (.array items) = 2 + (items.map encodedSize).sum + 2 * (items.length - 1) := by
  have opened : ('[').utf8Size = 1 := rfl
  have closed : (']').utf8Size = 1 := rfl
  rw [encodedSize, dumps, byteSize_cons, byteSize_append, byteSize_cons, byteSize_nil,
    byteSize_separated, dumpsItems_eq, List.map_map, List.length_map, opened, closed]
  change 1 + ((items.map encodedSize).sum + 2 * (items.length - 1) + (1 + 0)) = _
  omega

theorem encodedSize_object (fields : Fields) :
    encodedSize (.object fields) = 2 + (fields.map fieldSize).sum + 2 * (fields.length - 1) := by
  have opened : openBrace.utf8Size = 1 := by decide
  have closed : closeBrace.utf8Size = 1 := by decide
  have length : (dumpsFields fields).length = fields.length := by
    have sizes := congrArg List.length (dumpsFields_sizes fields)
    simpa using sizes
  rw [encodedSize, dumps, byteSize_cons, byteSize_append, byteSize_cons, byteSize_nil,
    byteSize_separated, dumpsFields_sizes, length, opened, closed]
  omega

/-! ## Whole numbers -/

/-- An integer's decimal text. -/
def intText (n : ℤ) : List Char :=
  if n < 0 then '-' :: Nat.toDigits 10 n.natAbs else Nat.toDigits 10 n.natAbs

theorem byteSize_digits (n : ℕ) : byteSize (Nat.toDigits 10 n) = (Nat.toDigits 10 n).length := by
  have each : ∀ c ∈ Nat.toDigits 10 n, c.utf8Size = 1 := by
    intro c of
    have digit := Nat.isDigit_of_mem_toDigits (by omega) (by omega) of
    apply utf8Size_ascii
    have below : c.toNat ≤ 57 := by
      rw [Char.isDigit, Bool.and_eq_true, decide_eq_true_eq, decide_eq_true_eq] at digit
      exact digit.2
    omega
  rw [byteSize, List.map_congr_left each]
  simp

theorem digits_mono {n m : ℕ} (le : n ≤ m) :
    (Nat.toDigits 10 n).length ≤ (Nat.toDigits 10 m).length := by
  have pos : 0 < (Nat.toDigits 10 m).length := Nat.length_toDigits_pos
  apply (Nat.length_toDigits_le_iff (by omega) pos).mpr
  have below : m < 10 ^ (Nat.toDigits 10 m).length :=
    (Nat.length_toDigits_le_iff (by omega) pos).mp (Nat.le_refl _)
  omega

/-- A number no larger is written in no more bytes. -/
theorem encodedSize_int_mono {n m : ℤ} (nonneg : 0 ≤ n) (le : n ≤ m) :
    encodedSize (.number (intText n)) ≤ encodedSize (.number (intText m)) := by
  have below : ¬ n < 0 := by omega
  have below' : ¬ m < 0 := by omega
  simp only [encodedSize, dumps, intText, if_neg below, if_neg below', byteSize_digits]
  exact digits_mono (by omega)

/-! ## Cuts -/

/-- A cut leaves, of a text of each length, so many characters at its front. -/
structure Cut where
  keep : ℕ → ℕ
  within : ∀ n, keep n ≤ n

/-- The cut that leaves every text. -/
def Cut.whole : Cut := ⟨id, fun _ => Nat.le_refl _⟩

/-- One cut, then another. -/
def Cut.andThen (first second : Cut) : Cut :=
  ⟨fun n => second.keep (first.keep n), fun n =>
    Nat.le_trans (second.within _) (first.within n)⟩

def Cut.text (cut : Cut) (text : String) : String :=
  String.ofList (text.toList.take (cut.keep text.length))

/-- Whether a cut shortens a text. -/
def Cut.shortens (cut : Cut) (text : String) : Bool :=
  decide (cut.keep text.length < text.length)

mutual

/-- Every text inside a value, cut; keys stay. -/
def Cut.json (cut : Cut) : Json → Json
  | .string text => .string (cut.text text)
  | .array items => .array (cut.items items)
  | .object fields => .object (cut.fields fields)
  | .null => .null
  | .bool value => .bool value
  | .number text => .number text

def Cut.items (cut : Cut) : List Json → List Json
  | [] => []
  | item :: rest => cut.json item :: cut.items rest

def Cut.fields (cut : Cut) : Fields → Fields
  | [] => []
  | (key, value) :: rest => (key, cut.json value) :: cut.fields rest

end

mutual

def Cut.shortensJson (cut : Cut) : Json → Bool
  | .string text => cut.shortens text
  | .array items => cut.shortensItems items
  | .object fields => cut.shortensFields fields
  | .null => false
  | .bool _ => false
  | .number _ => false

def Cut.shortensItems (cut : Cut) : List Json → Bool
  | [] => false
  | item :: rest => cut.shortensJson item || cut.shortensItems rest

def Cut.shortensFields (cut : Cut) : Fields → Bool
  | [] => false
  | (_, value) :: rest => cut.shortensJson value || cut.shortensFields rest

end

mutual

/-- A value that is another but for texts cut to prefixes of themselves. -/
inductive Shortened : Json → Json → Prop
  | null : Shortened .null .null
  | bool (value : Bool) : Shortened (.bool value) (.bool value)
  | number (text : List Char) : Shortened (.number text) (.number text)
  | string {text shorter : String} (front : shorter.toList <+: text.toList) :
      Shortened (.string text) (.string shorter)
  | array {items shorter : List Json} (each : ShortenedItems items shorter) :
      Shortened (.array items) (.array shorter)
  | object {fields shorter : Fields} (each : ShortenedFields fields shorter) :
      Shortened (.object fields) (.object shorter)

inductive ShortenedItems : List Json → List Json → Prop
  | nil : ShortenedItems [] []
  | cons {item shorter : Json} {items others : List Json} (first : Shortened item shorter)
      (rest : ShortenedItems items others) : ShortenedItems (item :: items) (shorter :: others)

inductive ShortenedFields : Fields → Fields → Prop
  | nil : ShortenedFields [] []
  | cons {key : String} {value shorter : Json} {fields others : Fields}
      (first : Shortened value shorter) (rest : ShortenedFields fields others) :
      ShortenedFields ((key, value) :: fields) ((key, shorter) :: others)

end

variable {cut first second : Cut}

theorem Cut.text_toList (text : String) :
    (cut.text text).toList = text.toList.take (cut.keep text.length) := by
  simp [Cut.text]

theorem Cut.text_length (cut : Cut) (text : String) : (cut.text text).length = cut.keep text.length := by
  have le := cut.within text.length
  rw [← String.length_toList, Cut.text_toList, List.length_take, String.length_toList]
  omega

theorem Cut.text_prefix (text : String) : (cut.text text).toList <+: text.toList := by
  rw [Cut.text_toList]
  exact List.take_prefix _ _

/-- A cut marks just the texts it changes. -/
theorem Cut.shortens_iff (text : String) : cut.shortens text = true ↔ cut.text text ≠ text := by
  rw [Cut.shortens, decide_eq_true_eq]
  constructor
  · intro below same
    have length := Cut.text_length cut text
    rw [same] at length
    omega
  · intro differs
    by_contra whole
    have le := cut.within text.length
    apply differs
    apply String.toList_inj.mp
    rw [Cut.text_toList]
    apply List.take_of_length_le
    rw [String.length_toList]
    omega

theorem Cut.andThen_text (text : String) :
    (first.andThen second).text text = second.text (first.text text) := by
  apply String.toList_inj.mp
  rw [Cut.text_toList, Cut.text_toList, Cut.text_toList, Cut.text_length, List.take_take]
  congr 1
  exact (Nat.min_eq_left (second.within _)).symm

theorem Cut.andThen_shortens (text : String) :
    (first.andThen second).shortens text = (first.shortens text || second.shortens (first.text text)) := by
  have le := first.within text.length
  have le' := second.within (first.keep text.length)
  simp only [Cut.shortens, Cut.text_length, Cut.andThen, ← Bool.decide_or]
  congr 1
  apply propext
  omega

theorem Cut.whole_text (text : String) : Cut.whole.text text = text := by
  by_contra differs
  have := (Cut.shortens_iff text).mpr differs
  simp [Cut.shortens, Cut.whole] at this

mutual

theorem Cut.whole_json : ∀ value, Cut.whole.json value = value
  | .null => rfl
  | .bool _ => rfl
  | .number _ => rfl
  | .string text => by rw [Cut.json, Cut.whole_text]
  | .array items => by rw [Cut.json, Cut.whole_items items]
  | .object fields => by rw [Cut.json, Cut.whole_fields fields]

theorem Cut.whole_items : ∀ items, Cut.whole.items items = items
  | [] => rfl
  | item :: rest => by rw [Cut.items, Cut.whole_json item, Cut.whole_items rest]

theorem Cut.whole_fields : ∀ fields, Cut.whole.fields fields = fields
  | [] => rfl
  | (key, value) :: rest => by rw [Cut.fields, Cut.whole_json value, Cut.whole_fields rest]

end

mutual

theorem Cut.shortened (cut : Cut) : ∀ value, Shortened value (cut.json value)
  | .null => .null
  | .bool value => .bool value
  | .number text => .number text
  | .string text => .string (Cut.text_prefix text)
  | .array items => .array (cut.shortenedItems items)
  | .object fields => .object (cut.shortenedFields fields)

theorem Cut.shortenedItems (cut : Cut) : ∀ items, ShortenedItems items (cut.items items)
  | [] => .nil
  | item :: rest => .cons (cut.shortened item) (cut.shortenedItems rest)

theorem Cut.shortenedFields (cut : Cut) : ∀ fields, ShortenedFields fields (cut.fields fields)
  | [] => .nil
  | (_, value) :: rest => .cons (cut.shortened value) (cut.shortenedFields rest)

end

mutual

theorem Cut.shortensJson_iff (cut : Cut) :
    ∀ value, cut.shortensJson value = true ↔ cut.json value ≠ value
  | .null => by simp [Cut.shortensJson, Cut.json]
  | .bool value => by simp [Cut.shortensJson, Cut.json]
  | .number text => by simp [Cut.shortensJson, Cut.json]
  | .string text => by simp [Cut.shortensJson, Cut.json, Cut.shortens_iff]
  | .array items => by simp [Cut.shortensJson, Cut.json, cut.shortensItems_iff items]
  | .object fields => by simp [Cut.shortensJson, Cut.json, cut.shortensFields_iff fields]

theorem Cut.shortensItems_iff (cut : Cut) :
    ∀ items, cut.shortensItems items = true ↔ cut.items items ≠ items
  | [] => by simp [Cut.shortensItems, Cut.items]
  | item :: rest => by
    simp [Cut.shortensItems, Cut.items, cut.shortensJson_iff item, cut.shortensItems_iff rest,
      imp_iff_not_or]

theorem Cut.shortensFields_iff (cut : Cut) :
    ∀ fields, cut.shortensFields fields = true ↔ cut.fields fields ≠ fields
  | [] => by simp [Cut.shortensFields, Cut.fields]
  | (key, value) :: rest => by
    simp [Cut.shortensFields, Cut.fields, cut.shortensJson_iff value, cut.shortensFields_iff rest,
      imp_iff_not_or]

end

mutual

theorem Cut.andThen_json (first second : Cut) :
    ∀ value, (first.andThen second).json value = second.json (first.json value)
  | .null => rfl
  | .bool _ => rfl
  | .number _ => rfl
  | .string text => by simp only [Cut.json, Cut.andThen_text]
  | .array items => by simp only [Cut.json, Cut.andThen_items first second items]
  | .object fields => by simp only [Cut.json, Cut.andThen_fields first second fields]

theorem Cut.andThen_items (first second : Cut) :
    ∀ items, (first.andThen second).items items = second.items (first.items items)
  | [] => rfl
  | item :: rest => by
    simp only [Cut.items, Cut.andThen_json first second item, Cut.andThen_items first second rest]

theorem Cut.andThen_fields (first second : Cut) :
    ∀ fields, (first.andThen second).fields fields = second.fields (first.fields fields)
  | [] => rfl
  | (key, value) :: rest => by
    simp only [Cut.fields, Cut.andThen_json first second value,
      Cut.andThen_fields first second rest]

end

mutual

theorem Cut.andThen_shortensJson (first second : Cut) : ∀ value,
    (first.andThen second).shortensJson value =
      (first.shortensJson value || second.shortensJson (first.json value))
  | .null => rfl
  | .bool _ => rfl
  | .number _ => rfl
  | .string text => by simp only [Cut.shortensJson, Cut.json, Cut.andThen_shortens]
  | .array items => by
    simp only [Cut.shortensJson, Cut.json, Cut.andThen_shortensItems first second items]
  | .object fields => by
    simp only [Cut.shortensJson, Cut.json, Cut.andThen_shortensFields first second fields]

theorem Cut.andThen_shortensItems (first second : Cut) : ∀ items,
    (first.andThen second).shortensItems items =
      (first.shortensItems items || second.shortensItems (first.items items))
  | [] => rfl
  | item :: rest => by
    simp only [Cut.shortensItems, Cut.items, Cut.andThen_shortensJson first second item,
      Cut.andThen_shortensItems first second rest]
    ac_rfl

theorem Cut.andThen_shortensFields (first second : Cut) : ∀ fields,
    (first.andThen second).shortensFields fields =
      (first.shortensFields fields || second.shortensFields (first.fields fields))
  | [] => rfl
  | (key, value) :: rest => by
    simp only [Cut.shortensFields, Cut.fields, Cut.andThen_shortensJson first second value,
      Cut.andThen_shortensFields first second rest]
    ac_rfl

end

end Blizzard.JsonTexts
