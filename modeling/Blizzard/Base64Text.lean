import Mathlib.Data.List.DropRight

/-! # URL-safe base64

Bytes as text of sixty-four characters, four for every three bytes. The reader
skips what is no character of either alphabet and takes the padding it is given;
text stripped of its padding is restored by its length alone. -/
namespace Blizzard.Base64Text

def alphabet : List Char :=
  "ABCDEFGHIJKLMNOPQRSTUVWXYZabcdefghijklmnopqrstuvwxyz0123456789-_".toList

def digit (n : ℕ) : Char := alphabet.getD n 'A'

/-- A character's value; the standard alphabet's own two are read as the URL-safe ones. -/
def value (c : Char) : Option ℕ :=
  if c = '+' then some 62 else if c = '/' then some 63 else alphabet.findIdx? (· = c)

def encode : List UInt8 → List Char
  | [] => []
  | [a] => [digit (a.toNat / 4), digit (a.toNat % 4 * 16), '=', '=']
  | [a, b] =>
    [digit (a.toNat / 4), digit (a.toNat % 4 * 16 + b.toNat / 16), digit (b.toNat % 16 * 4), '=']
  | a :: b :: c :: rest =>
    digit (a.toNat / 4) :: digit (a.toNat % 4 * 16 + b.toNat / 16) ::
      digit (b.toNat % 16 * 4 + c.toNat / 64) :: digit (c.toNat % 64) :: encode rest

/-- How far a group of four is read, with the bits no byte has taken yet. -/
inductive Quad
  | zero | one (left : ℕ) | two (left : ℕ) | three (left : ℕ)
  deriving DecidableEq, Repr

def Quad.position : Quad → ℕ
  | .zero => 0
  | .one _ => 1
  | .two _ => 2
  | .three _ => 3

/-- Read on from a place in a group; padding that completes the group ends the text, and text that
ends within a group is refused. -/
def decodeFrom : Quad → ℕ → List Char → Option (List UInt8)
  | quad, _, [] => if quad.position = 0 then some [] else none
  | quad, pads, c :: cs =>
    if c = '=' then
      if 2 ≤ quad.position then
        if 4 ≤ quad.position + (pads + 1) then some [] else decodeFrom quad (pads + 1) cs
      else decodeFrom quad pads cs
    else
      match value c, quad with
      | none, _ => decodeFrom quad pads cs
      | some v, .zero => decodeFrom (.one v) 0 cs
      | some v, .one left =>
        (decodeFrom (.two (v % 16)) 0 cs).map (UInt8.ofNat (left * 4 + v / 16) :: ·)
      | some v, .two left =>
        (decodeFrom (.three (v % 4)) 0 cs).map (UInt8.ofNat (left * 16 + v / 4) :: ·)
      | some v, .three left => (decodeFrom .zero 0 cs).map (UInt8.ofNat (left * 64 + v) :: ·)

def decode (cs : List Char) : Option (List UInt8) := decodeFrom .zero 0 cs

def isPadding (c : Char) : Bool := decide (c = '=')

/-- The text without its padding. -/
def strip (cs : List Char) : List Char := cs.rdropWhile isPadding

/-- The text padded to groups of four. -/
def pad (cs : List Char) : List Char := cs ++ List.replicate ((4 - cs.length % 4) % 4) '='

theorem value_digit {n : ℕ} (below : n < 64) : value (digit n) = some n := by
  have all : ∀ n : Fin 64, value (digit n) = some n.val := by decide +kernel
  exact all ⟨n, below⟩

theorem digit_ne_padding {n : ℕ} (below : n < 64) : digit n ≠ '=' := by
  have all : ∀ n : Fin 64, digit n ≠ '=' := by decide +kernel
  exact all ⟨n, below⟩

section Steps
variable {n left pads : ℕ} {cs : List Char}

/-- A character that is no padding is read by its value. -/
theorem decodeFrom_cons {quad : Quad} {c : Char} (plain : c ≠ '=') :
    decodeFrom quad pads (c :: cs) =
      match value c, quad with
      | none, _ => decodeFrom quad pads cs
      | some v, .zero => decodeFrom (.one v) 0 cs
      | some v, .one left =>
        (decodeFrom (.two (v % 16)) 0 cs).map (UInt8.ofNat (left * 4 + v / 16) :: ·)
      | some v, .two left =>
        (decodeFrom (.three (v % 4)) 0 cs).map (UInt8.ofNat (left * 16 + v / 4) :: ·)
      | some v, .three left => (decodeFrom .zero 0 cs).map (UInt8.ofNat (left * 64 + v) :: ·) :=
  if_neg plain

theorem decodeFrom_zero (below : n < 64) :
    decodeFrom .zero pads (digit n :: cs) = decodeFrom (.one n) 0 cs := by
  rw [decodeFrom_cons (digit_ne_padding below), value_digit below]

theorem decodeFrom_one (below : n < 64) :
    decodeFrom (.one left) pads (digit n :: cs) =
      (decodeFrom (.two (n % 16)) 0 cs).map (UInt8.ofNat (left * 4 + n / 16) :: ·) := by
  rw [decodeFrom_cons (digit_ne_padding below), value_digit below]

theorem decodeFrom_two (below : n < 64) :
    decodeFrom (.two left) pads (digit n :: cs) =
      (decodeFrom (.three (n % 4)) 0 cs).map (UInt8.ofNat (left * 16 + n / 4) :: ·) := by
  rw [decodeFrom_cons (digit_ne_padding below), value_digit below]

theorem decodeFrom_three (below : n < 64) :
    decodeFrom (.three left) pads (digit n :: cs) =
      (decodeFrom .zero 0 cs).map (UInt8.ofNat (left * 64 + n) :: ·) := by
  rw [decodeFrom_cons (digit_ne_padding below), value_digit below]

theorem decodeFrom_padding {quad : Quad} (within : 2 ≤ quad.position) :
    decodeFrom quad pads ('=' :: cs) =
      if 4 ≤ quad.position + (pads + 1) then some [] else decodeFrom quad (pads + 1) cs :=
  if_pos within

theorem decodeFrom_two_end : decodeFrom (.two left) pads ['=', '='] = some [] := by
  have within : 2 ≤ (Quad.two left).position := le_refl 2
  have full : 4 ≤ (Quad.two left).position + (pads + 1 + 1) := by
    show 4 ≤ 2 + (pads + 1 + 1)
    omega
  rw [decodeFrom_padding within, decodeFrom_padding within, if_pos full, ite_self]

theorem decodeFrom_three_end : decodeFrom (.three left) pads ['='] = some [] := by
  have within : 2 ≤ (Quad.three left).position := Nat.le_succ 2
  have full : 4 ≤ (Quad.three left).position + (pads + 1) := by
    show 4 ≤ 3 + (pads + 1)
    omega
  rw [decodeFrom_padding within, if_pos full]

end Steps

theorem ofNat_eq (a : UInt8) {n : ℕ} (same : n = a.toNat) : UInt8.ofNat n = a := by
  rw [same, UInt8.ofNat_toNat]

/-- What is encoded is read back. -/
theorem decode_encode (bytes : List UInt8) : decode (encode bytes) = some bytes := by
  rw [decode]
  induction bytes using encode.induct with
  | case1 => rfl
  | case2 a =>
    have small := a.toNat_lt
    rw [encode, decodeFrom_zero (by omega), decodeFrom_one (by omega), decodeFrom_two_end]
    have first := ofNat_eq a (n := a.toNat / 4 * 4 + a.toNat % 4 * 16 / 16) (by omega)
    rw [Option.map_some, first]
  | case3 a b =>
    have smallA := a.toNat_lt
    have smallB := b.toNat_lt
    rw [encode, decodeFrom_zero (by omega), decodeFrom_one (by omega), decodeFrom_two (by omega),
      decodeFrom_three_end]
    have first := ofNat_eq a
      (n := a.toNat / 4 * 4 + (a.toNat % 4 * 16 + b.toNat / 16) / 16) (by omega)
    have second := ofNat_eq b
      (n := (a.toNat % 4 * 16 + b.toNat / 16) % 16 * 16 + b.toNat % 16 * 4 / 4) (by omega)
    simp only [Option.map_some, first, second]
  | case4 a b c rest ih =>
    have smallA := a.toNat_lt
    have smallB := b.toNat_lt
    have smallC := c.toNat_lt
    rw [encode, decodeFrom_zero (by omega), decodeFrom_one (by omega), decodeFrom_two (by omega),
      decodeFrom_three (by omega), ih]
    have first := ofNat_eq a
      (n := a.toNat / 4 * 4 + (a.toNat % 4 * 16 + b.toNat / 16) / 16) (by omega)
    have second := ofNat_eq b
      (n := (a.toNat % 4 * 16 + b.toNat / 16) % 16 * 16 +
        (b.toNat % 16 * 4 + c.toNat / 64) / 4) (by omega)
    have third := ofNat_eq c
      (n := (b.toNat % 16 * 4 + c.toNat / 64) % 4 * 64 + c.toNat % 64) (by omega)
    simp only [Option.map_some, first, second, third]

/-- The padding an encoding ends with is what its other characters lack of full groups. -/
theorem encode_parts (bytes : List UInt8) : ∃ core k, encode bytes = core ++ List.replicate k '=' ∧
    (∀ c ∈ core, c ≠ '=') ∧ k = (4 - core.length % 4) % 4 := by
  induction bytes using encode.induct with
  | case1 => exact ⟨[], 0, rfl, by simp, rfl⟩
  | case2 a =>
    have small := a.toNat_lt
    refine ⟨[digit (a.toNat / 4), digit (a.toNat % 4 * 16)], 2, rfl, ?_, rfl⟩
    simp only [List.mem_cons, List.not_mem_nil, or_false, forall_eq_or_imp, forall_eq]
    exact ⟨digit_ne_padding (by omega), digit_ne_padding (by omega)⟩
  | case3 a b =>
    have smallA := a.toNat_lt
    have smallB := b.toNat_lt
    refine ⟨[digit (a.toNat / 4), digit (a.toNat % 4 * 16 + b.toNat / 16),
      digit (b.toNat % 16 * 4)], 1, rfl, ?_, rfl⟩
    simp only [List.mem_cons, List.not_mem_nil, or_false, forall_eq_or_imp, forall_eq]
    exact ⟨digit_ne_padding (by omega), digit_ne_padding (by omega), digit_ne_padding (by omega)⟩
  | case4 a b c rest ih =>
    have smallA := a.toNat_lt
    have smallB := b.toNat_lt
    have smallC := c.toNat_lt
    obtain ⟨core, k, parts, plain, count⟩ := ih
    refine ⟨digit (a.toNat / 4) :: digit (a.toNat % 4 * 16 + b.toNat / 16) ::
      digit (b.toNat % 16 * 4 + c.toNat / 64) :: digit (c.toNat % 64) :: core, k, ?_, ?_, ?_⟩
    · rw [encode, parts]
      rfl
    · simp only [List.mem_cons, forall_eq_or_imp]
      exact ⟨digit_ne_padding (by omega), digit_ne_padding (by omega), digit_ne_padding (by omega),
        digit_ne_padding (by omega), plain⟩
    · simp only [List.length_cons]
      omega

theorem strip_replicate {core : List Char} (plain : ∀ c ∈ core, c ≠ '=') (k : ℕ) :
    strip (core ++ List.replicate k '=') = core := by
  induction k with
  | zero =>
    rw [List.replicate_zero, List.append_nil, strip, List.rdropWhile_eq_self_iff]
    intro some_
    simpa [isPadding] using plain _ (List.getLast_mem some_)
  | succ k ih =>
    rw [List.replicate_succ', ← List.append_assoc, strip, List.rdropWhile_concat_pos _ _ _ (by rfl)]
    exact ih

/-- Padding restores a stripped encoding. -/
theorem pad_strip_encode (bytes : List UInt8) : pad (strip (encode bytes)) = encode bytes := by
  obtain ⟨core, k, parts, plain, count⟩ := encode_parts bytes
  rw [parts, strip_replicate plain, pad, ← count]

end Blizzard.Base64Text
