import Mathlib.Data.List.Sort

/-! # Texts

How the source reads and prints texts: `repr`, `int`, `strip` and `sorted`. -/
namespace Blizzard.SourceText

/-- `repr` of a text of printing characters. -/
def quoted (s : String) : String :=
  let quote := if '\'' ∈ s.toList ∧ '"' ∉ s.toList then '"' else '\''
  let escaped := s.toList.flatMap fun c => if c = '\\' ∨ c = quote then ['\\', c] else [c]
  String.ofList (quote :: escaped ++ [quote])

/-- `repr` of a list of such texts. -/
def quotedList (texts : List String) : String :=
  "[" ++ ", ".intercalate (texts.map quoted) ++ "]"

/-- The characters `str.split` and `str.strip` take for whitespace. -/
def isWhitespace (c : Char) : Bool :=
  c.toNat ∈ [0x85, 0xA0, 0x1680, 0x2028, 0x2029, 0x202F, 0x205F, 0x3000] ||
    (0x09 ≤ c.toNat && c.toNat ≤ 0x0D) || (0x1C ≤ c.toNat && c.toNat ≤ 0x20) ||
    (0x2000 ≤ c.toNat && c.toNat ≤ 0x200A)

/-- `text.strip()`. -/
def stripped (text : String) : String :=
  String.ofList (((text.toList.dropWhile isWhitespace).reverse.dropWhile isWhitespace).reverse)

def blank (text : String) : Bool := text.toList.all isWhitespace

/-- `int(text)` on ASCII digits: a sign, single underscores between digits. -/
def intOfText (s : String) : Option Int :=
  let signed := (stripped s).toList
  let negative := signed.head? = some '-'
  let digits := if signed.head? = some '-' ∨ signed.head? = some '+' then signed.tail else signed
  let separated := (digits.zip digits.tail).all fun (c, d) => !(c = '_' && d = '_')
  if digits.all (fun c => c.isDigit || c = '_') && separated &&
      digits.head?.any Char.isDigit && digits.getLast?.any Char.isDigit then
    let n := (digits.filter Char.isDigit).foldl (fun n c => 10 * n + (c.toNat - '0'.toNat)) 0
    some (if negative then -(n : Int) else n)
  else none

/-- Texts in the order of `sorted`. -/
def sortedTexts (texts : List String) : List String := texts.insertionSort (· ≤ ·)

end Blizzard.SourceText
