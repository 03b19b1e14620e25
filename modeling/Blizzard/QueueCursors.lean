import Mathlib.Data.Rat.Defs
import Blizzard.Base64Text

/-! # The queue's cursor

A cursor is the JSON array of an effective position and a chunk id, as unpadded
base64. Its reader takes any JSON text that holds those two; every other text is
refused by the reader's own checks. How a float is written is a parameter. -/
namespace Blizzard.QueueCursors
open Base64Text

/-- How a float is written as a JSON number, and the value a number token has. -/
structure FloatText where
  repr : ℚ → List Char
  parse : List Char → Option ℚ

def numberChar (c : Char) : Bool :=
  c.isDigit || decide (c ∈ ['+', '-', '.', 'e', 'E'])

/-- A float's text is a number token, and is read back as the float. -/
structure FloatText.Reads (text : FloatText) (x : ℚ) : Prop where
  token : ∀ c ∈ text.repr x, numberChar c = true
  back : text.parse (text.repr x) = some x

def quoteMark : Char := Char.ofNat 34
def backslash : Char := Char.ofNat 92

/-! ## Writing -/

def hexDigit (n : ℕ) : Char := "0123456789abcdef".toList.getD n '0'

def unicodeEscape (n : ℕ) : List Char :=
  [backslash, 'u', hexDigit (n / 4096 % 16), hexDigit (n / 256 % 16), hexDigit (n / 16 % 16),
    hexDigit (n % 16)]

/-- A character of a JSON string in ASCII. -/
def escaped (c : Char) : List Char :=
  if c = quoteMark then [backslash, quoteMark]
  else if c = backslash then [backslash, backslash]
  else if c = '\n' then [backslash, 'n']
  else if c = '\r' then [backslash, 'r']
  else if c = '\t' then [backslash, 't']
  else if c = Char.ofNat 12 then [backslash, 'f']
  else if c = Char.ofNat 8 then [backslash, 'b']
  else if 32 ≤ c.toNat ∧ c.toNat ≤ 126 then [c]
  else if c.toNat < 65536 then unicodeEscape c.toNat
  else
    unicodeEscape (55296 + (c.toNat - 65536) / 1024) ++
      unicodeEscape (56320 + (c.toNat - 65536) % 1024)

/-- The JSON array of a position and an id, with no space. -/
def dumps (text : FloatText) (position : ℚ) (chunkId : String) : List Char :=
  '[' :: (text.repr position ++
    ',' :: quoteMark :: (chunkId.toList.flatMap escaped ++ [quoteMark, ']']))

def encodeCursor (text : FloatText) (position : ℚ) (chunkId : String) : String :=
  String.ofList (strip (encode (String.ofList (dumps text position chunkId)).toUTF8.data.toList))

/-! ## Reading -/

def hexValue (c : Char) : Option ℕ :=
  if '0' ≤ c ∧ c ≤ '9' then some (c.toNat - 48)
  else if 'a' ≤ c ∧ c ≤ 'f' then some (c.toNat - 87)
  else if 'A' ≤ c ∧ c ≤ 'F' then some (c.toNat - 55)
  else none

def readHex4 : List Char → Option (ℕ × List Char)
  | a :: b :: c :: d :: rest =>
    match hexValue a, hexValue b, hexValue c, hexValue d with
    | some a, some b, some c, some d => some (a * 4096 + b * 256 + c * 16 + d, rest)
    | _, _, _, _ => none
  | _ => none

/-- The second half of a surrogate pair. -/
def readLow : List Char → Option (ℕ × List Char)
  | slash :: u :: rest =>
    if slash = backslash ∧ u = 'u' then
      match readHex4 rest with
      | some (low, rest) => if 56320 ≤ low ∧ low < 57344 then some (low, rest) else none
      | none => none
    else none
  | _ => none

/-- The character of a unicode escape; a surrogate on its own is none. -/
def readCodePoint (cs : List Char) : Option (Char × List Char) :=
  match readHex4 cs with
  | none => none
  | some (high, rest) =>
    if 55296 ≤ high ∧ high < 56320 then
      (readLow rest).map fun low =>
        (Char.ofNat (65536 + (high - 55296) * 1024 + (low.1 - 56320)), low.2)
    else if 56320 ≤ high ∧ high < 57344 then none
    else some (Char.ofNat high, rest)

def simpleEscape (c : Char) : Option Char :=
  if c = quoteMark then some quoteMark
  else if c = backslash then some backslash
  else if c = '/' then some '/'
  else if c = 'n' then some '\n'
  else if c = 'r' then some '\r'
  else if c = 't' then some '\t'
  else if c = 'f' then some (Char.ofNat 12)
  else if c = 'b' then some (Char.ofNat 8)
  else none

/-- The escape after a backslash. -/
def readEscape : List Char → Option (Char × List Char)
  | [] => none
  | c :: rest =>
    match simpleEscape c with
    | some plain => some (plain, rest)
    | none => if c = 'u' then readCodePoint rest else none

/-- A JSON string after its opening quote, and what follows it. -/
def readString : ℕ → List Char → Option (List Char × List Char)
  | 0, _ => none
  | _ + 1, [] => none
  | fuel + 1, c :: rest =>
    if c = quoteMark then some ([], rest)
    else if c = backslash then
      (readEscape rest).bind fun escape =>
        (readString fuel escape.2).map fun read => (escape.1 :: read.1, read.2)
    else if c.toNat < 32 then none
    else (readString fuel rest).map fun read => (c :: read.1, read.2)

def skipSpace (cs : List Char) : List Char :=
  cs.dropWhile fun c => decide (c ∈ [' ', '\n', '\r', '\t'])

/-- A character the text must go on with, and what follows it. -/
def expect (wanted : Char) (cs : List Char) : Option (List Char) :=
  match skipSpace cs with
  | [] => none
  | c :: rest => if c = wanted then some rest else none

/-- A JSON array of a number and a string. -/
def loads (text : FloatText) (cs : List Char) : Option (ℚ × String) :=
  (expect '[' cs).bind fun rest =>
    (text.parse ((skipSpace rest).takeWhile numberChar)).bind fun position =>
      (expect ',' ((skipSpace rest).dropWhile numberChar)).bind fun rest =>
        (expect quoteMark rest).bind fun rest =>
          (readString (rest.length + 1) rest).bind fun read =>
            (expect ']' read.2).bind fun rest =>
              if skipSpace rest = [] then some (position, String.ofList read.1) else none

/-- The pair a cursor holds; none for a malformed one. -/
def decodeCursor (text : FloatText) (cursor : String) : Option (ℚ × String) :=
  (decode (pad cursor.toList)).bind fun bytes =>
    (String.fromUTF8? ⟨bytes.toArray⟩).bind fun raw => loads text raw.toList

/-! ## The round trip -/

variable {text : FloatText} {position : ℚ} {rest : List Char} {fuel : ℕ}

theorem hexValue_hexDigit {n : ℕ} (below : n < 16) : hexValue (hexDigit n) = some n := by
  have all : ∀ n : Fin 16, hexValue (hexDigit n) = some n.val := by decide +kernel
  exact all ⟨n, below⟩

theorem readHex4_unicodeEscape {n : ℕ} (below : n < 65536) :
    readHex4 (hexDigit (n / 4096 % 16) :: hexDigit (n / 256 % 16) :: hexDigit (n / 16 % 16) ::
      hexDigit (n % 16) :: rest) = some (n, rest) := by
  have small : ∀ m : ℕ, m % 16 < 16 := fun m => Nat.mod_lt m (by decide)
  simp only [readHex4, hexValue_hexDigit (small _), Option.some.injEq, Prod.mk.injEq, and_true]
  omega

theorem simpleEscape_u : simpleEscape 'u' = none := by decide

theorem char_valid (c : Char) :
    c.toNat < 55296 ∨ 57343 < c.toNat ∧ c.toNat < 1114112 := c.valid

/-- A character of the basic plane is read back from its escape. -/
theorem readEscape_basic {c : Char} (below : c.toNat < 65536) (rest : List Char) :
    readEscape ((unicodeEscape c.toNat).tail ++ rest) = some (c, rest) := by
  have valid := char_valid c
  have single : ¬ (55296 ≤ c.toNat ∧ c.toNat < 56320) := by omega
  have whole : ¬ (56320 ≤ c.toNat ∧ c.toNat < 57344) := by omega
  simp only [unicodeEscape, List.tail_cons, List.cons_append, List.nil_append, readEscape,
    simpleEscape_u, if_true, readCodePoint, readHex4_unicodeEscape below, if_neg single,
    if_neg whole, Char.ofNat_toNat]

/-- A character beyond the basic plane is read back from its surrogate pair. -/
theorem readEscape_pair {c : Char} {high low : ℕ} (first : 55296 ≤ high ∧ high < 56320)
    (second : 56320 ≤ low ∧ low < 57344)
    (code : 65536 + (high - 55296) * 1024 + (low - 56320) = c.toNat) :
    readEscape ((unicodeEscape high).tail ++ (unicodeEscape low ++ rest)) = some (c, rest) := by
  simp only [unicodeEscape, List.tail_cons, List.cons_append, List.nil_append, readEscape,
    simpleEscape_u, if_true, readCodePoint, readHex4_unicodeEscape (show high < 65536 by omega),
    if_pos first, readLow, and_self, readHex4_unicodeEscape (show low < 65536 by omega),
    if_pos second, Option.map_some, code, Char.ofNat_toNat]

theorem readEscape_astral {c : Char} (above : ¬ c.toNat < 65536) (rest : List Char) :
    readEscape ((unicodeEscape (55296 + (c.toNat - 65536) / 1024)).tail ++
      (unicodeEscape (56320 + (c.toNat - 65536) % 1024) ++ rest)) = some (c, rest) := by
  have valid := char_valid c
  exact readEscape_pair (by omega) (by omega) (by omega)

/-- One character of a written string is read back, and the rest after it. -/
theorem readString_escaped (c : Char) (fuel : ℕ) (rest : List Char) :
    readString (fuel + 1) (escaped c ++ rest) =
      (readString fuel rest).map fun read => (c :: read.1, read.2) := by
  have slash : backslash ≠ quoteMark := by decide
  have short : ∀ e, simpleEscape e = some c → readString (fuel + 1) (backslash :: e :: rest) =
      (readString fuel rest).map fun read => (c :: read.1, read.2) := by
    intro e is
    simp only [readString, if_neg slash, if_true, readEscape, is, Option.bind_some]
  rw [escaped]
  split
  · rename_i same
    subst same
    exact short quoteMark (by decide)
  split
  · rename_i same
    subst same
    exact short backslash (by decide)
  split
  · rename_i same
    subst same
    exact short 'n' (by decide)
  split
  · rename_i same
    subst same
    exact short 'r' (by decide)
  split
  · rename_i same
    subst same
    exact short 't' (by decide)
  split
  · rename_i same
    subst same
    exact short 'f' (by decide)
  split
  · rename_i same
    subst same
    exact short 'b' (by decide)
  split
  · rename_i notQuote notSlash _ _ _ _ _ plain
    simp only [List.cons_append, List.nil_append, readString, if_neg notQuote, if_neg notSlash,
      if_neg (show ¬ c.toNat < 32 by omega)]
  split
  · rename_i basic
    have read := readEscape_basic basic rest
    rw [show unicodeEscape c.toNat = backslash :: (unicodeEscape c.toNat).tail from rfl,
      List.cons_append, readString, if_neg slash, if_pos rfl, read, Option.bind_some]
  · rename_i astral
    have read := readEscape_astral astral rest
    rw [show unicodeEscape (55296 + (c.toNat - 65536) / 1024) =
      backslash :: (unicodeEscape (55296 + (c.toNat - 65536) / 1024)).tail from rfl,
      List.append_assoc, List.cons_append, readString, if_neg slash, if_pos rfl, read,
      Option.bind_some]

theorem readString_flatMap (cs : List Char) {fuel : ℕ} (enough : cs.length < fuel)
    (rest : List Char) :
    readString fuel (cs.flatMap escaped ++ quoteMark :: rest) = some (cs, rest) := by
  induction cs generalizing fuel with
  | nil =>
    obtain ⟨fuel, rfl⟩ : ∃ n, fuel = n + 1 := ⟨fuel - 1, by omega⟩
    simp [readString]
  | cons c cs ih =>
    obtain ⟨fuel, rfl⟩ : ∃ n, fuel = n + 1 := ⟨fuel - 1, by omega⟩
    rw [List.length_cons] at enough
    rw [List.flatMap_cons, List.append_assoc, readString_escaped, ih (by omega)]
    rfl

theorem skipSpace_cons {c : Char} (plain : c ∉ [' ', '\n', '\r', '\t']) (cs : List Char) :
    skipSpace (c :: cs) = c :: cs := by
  rw [skipSpace, List.dropWhile_cons_of_neg]
  simpa using plain

theorem expect_cons {c : Char} (plain : c ∉ [' ', '\n', '\r', '\t']) (cs : List Char) :
    expect c (c :: cs) = some cs := by
  rw [expect, skipSpace_cons plain]
  simp

theorem length_le_flatMap (cs : List Char) : cs.length ≤ (cs.flatMap escaped).length := by
  induction cs with
  | nil => simp
  | cons c cs ih =>
    have pos : 1 ≤ (escaped c).length := by
      rw [escaped]
      split_ifs <;> simp [unicodeEscape]
    rw [List.flatMap_cons, List.length_append, List.length_cons]
    omega

theorem skipSpace_token {token : List Char} (chars : ∀ c ∈ token, numberChar c = true)
    (rest : List Char) : skipSpace (token ++ ',' :: rest) = token ++ ',' :: rest := by
  cases token with
  | nil => exact skipSpace_cons (by decide) rest
  | cons c token =>
    apply skipSpace_cons
    have number := chars c List.mem_cons_self
    rintro space
    have none_ : ∀ c ∈ [' ', '\n', '\r', '\t'], numberChar c = false := by
      simp only [List.forall_mem_cons]
      exact ⟨rfl, rfl, rfl, rfl, fun _ of => nomatch of⟩
    rw [none_ c space] at number
    cases number

/-- What a cursor holds is read back. -/
theorem decodeCursor_encodeCursor (reads : text.Reads position) (chunkId : String) :
    decodeCursor text (encodeCursor text position chunkId) = some (position, chunkId) := by
  have utf8 : ∀ s : String, String.fromUTF8? ⟨s.toUTF8.data.toList.toArray⟩ = some s := by
    intro s
    have valid : s.toUTF8.IsValidUTF8 := s.isValidUTF8
    rw [Array.toArray_toList]
    show String.fromUTF8? s.toUTF8 = some s
    rw [String.fromUTF8?, dif_pos valid]
    rfl
  rw [decodeCursor, encodeCursor, String.toList_ofList, pad_strip_encode, decode_encode,
    Option.bind_some, utf8, Option.bind_some, String.toList_ofList, loads, dumps,
    expect_cons (by decide), Option.bind_some]
  have comma : numberChar ',' = false := by decide
  have token := skipSpace_token reads.token
    (quoteMark :: (chunkId.toList.flatMap escaped ++ [quoteMark, ']']))
  have long := length_le_flatMap chunkId.toList
  rw [token, List.takeWhile_append_of_pos reads.token, List.dropWhile_append_of_pos reads.token,
    List.takeWhile_cons_of_neg (by simp [comma]), List.dropWhile_cons_of_neg (by simp [comma]),
    List.append_nil, reads.back, Option.bind_some, expect_cons (by decide), Option.bind_some,
    expect_cons (by decide), Option.bind_some, readString_flatMap _ (by
      rw [List.length_append]
      omega), Option.bind_some, expect_cons (by decide), Option.bind_some]
  simp [skipSpace]

end Blizzard.QueueCursors
