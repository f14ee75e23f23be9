import Mathlib

/-!
# JSON texts

The grammar of JSON over bytes.  White space, digits and the other parts of a text
carry the proof that they are what they should be, and a value is known by the way
it is written and by how deep it is nested.  The characters of a string are decoded
by the rules of JSON; a surrogate that stands alone has no value.
-/

namespace Katana
namespace Library
namespace JsonText

abbrev Text := List UInt8

def QUOTE : UInt8 := 0x22
def BACKSLASH : UInt8 := 0x5c
def COMMA : UInt8 := 0x2c
def COLON : UInt8 := 0x3a
def OPEN_BRACE : UInt8 := 0x7b
def CLOSE_BRACE : UInt8 := 0x7d
def OPEN_BRACKET : UInt8 := 0x5b
def CLOSE_BRACKET : UInt8 := 0x5d

def isSpace (c : UInt8) : Bool :=
  c = 0x09 || c = 0x0a || c = 0x0d || c = 0x20

def isDigit (c : UInt8) : Bool :=
  0x30 ≤ c && c ≤ 0x39

/-- Bytes that stand for themselves in a string. -/
def isPlain (c : UInt8) : Bool :=
  0x20 ≤ c && c ≠ QUOTE && c ≠ BACKSLASH

/-- The byte that a backslash and one more character stand for. -/
def shortEscape (e : UInt8) : Option UInt8 :=
  if e = QUOTE || e = BACKSLASH || e = 0x2f then some e
  else if e = 0x62 then some 0x08
  else if e = 0x66 then some 0x0c
  else if e = 0x6e then some 0x0a
  else if e = 0x72 then some 0x0d
  else if e = 0x74 then some 0x09
  else none

def hexValue (c : UInt8) : Option ℕ :=
  if isDigit c then some (c.toNat - 0x30)
  else if 0x61 ≤ c && c ≤ 0x66 then some (c.toNat - 0x57)
  else if 0x41 ≤ c && c ≤ 0x46 then some (c.toNat - 0x37)
  else none

/-! ## Decoding -/

/-- The UTF-8 encoding of a code point. -/
def utf8 (n : ℕ) : Text :=
  if n < 0x80 then [n.toUInt8]
  else if n < 0x800 then [(0xc0 + n / 0x40).toUInt8, (0x80 + n % 0x40).toUInt8]
  else if n < 0x10000 then
    [(0xe0 + n / 0x1000).toUInt8, (0x80 + n / 0x40 % 0x40).toUInt8, (0x80 + n % 0x40).toUInt8]
  else
    [(0xf0 + n / 0x40000).toUInt8, (0x80 + n / 0x1000 % 0x40).toUInt8,
      (0x80 + n / 0x40 % 0x40).toUInt8, (0x80 + n % 0x40).toUInt8]

/-- The code unit of four hexadecimal digits, and what follows them. -/
def hexUnit : Text → Option (ℕ × Text)
  | a :: b :: c :: d :: rest =>
      match hexValue a, hexValue b, hexValue c, hexValue d with
      | some a, some b, some c, some d => some (((a * 16 + b) * 16 + c) * 16 + d, rest)
      | _, _, _, _ => none
  | _ => none

def isHighSurrogate (unit : ℕ) : Bool :=
  0xd800 ≤ unit && unit < 0xdc00

def isLowSurrogate (unit : ℕ) : Bool :=
  0xdc00 ≤ unit && unit < 0xe000

/-- The code point of a high and a low surrogate. -/
def joinSurrogates (high low : ℕ) : ℕ :=
  0x10000 + (high - 0xd800) * 0x400 + (low - 0xdc00)

/-- The low surrogate that has to follow a high one. -/
def lowSurrogate : Text → Option (ℕ × Text)
  | c :: d :: rest =>
      if c = BACKSLASH && d = 0x75 then
        (hexUnit rest).filter fun result => isLowSurrogate result.1
      else none
  | _ => none

/-- Behind a backslash and a `u`. -/
def decodeUnicode (text : Text) : Option (Text × Text) :=
  match hexUnit text with
  | none => none
  | some (unit, rest) =>
      if isHighSurrogate unit then
        (lowSurrogate rest).map fun result => (utf8 (joinSurrogates unit result.1), result.2)
      else if isLowSurrogate unit then none
      else some (utf8 unit, rest)

/-- The bytes of one character of a string, and what follows it. -/
def decodeChar (c : UInt8) (rest : Text) : Option (Text × Text) :=
  if c = BACKSLASH then
    match rest with
    | [] => none
    | e :: rest =>
        if e = 0x75 then decodeUnicode rest else (shortEscape e).map fun byte => ([byte], rest)
  else if isPlain c then some ([c], rest)
  else none

/-- Each pass takes a byte or more. -/
def decodeWith : ℕ → Text → Option Text
  | _, [] => some []
  | 0, _ :: _ => none
  | passes + 1, c :: rest =>
      match decodeChar c rest with
      | none => none
      | some (bytes, behind) => (decodeWith passes behind).map (bytes ++ ·)

/-- What the text between the quotes of a string stands for. -/
def decodeString (text : Text) : Option Text :=
  decodeWith text.length text

theorem hexUnit_length {text rest : Text} {unit : ℕ} (h : hexUnit text = some (unit, rest)) :
    rest.length ≤ text.length := by
  unfold hexUnit at h
  split at h
  next =>
    split at h
    next =>
      cases h
      simp only [List.length_cons]
      omega
    next => cases h
  next => cases h

theorem lowSurrogate_length {text rest : Text} {unit : ℕ}
    (h : lowSurrogate text = some (unit, rest)) : rest.length ≤ text.length := by
  unfold lowSurrogate at h
  split at h
  next c d behind =>
    split at h
    next =>
      have hrest := hexUnit_length (Option.filter_eq_some_iff.mp h).1
      simp only [List.length_cons]
      omega
    next => cases h
  next => cases h

theorem decodeUnicode_length {text bytes behind : Text}
    (h : decodeUnicode text = some (bytes, behind)) : behind.length ≤ text.length := by
  unfold decodeUnicode at h
  split at h
  next => cases h
  next unit rest hunit =>
    have hrest := hexUnit_length hunit
    split at h
    next =>
      rw [Option.map_eq_some_iff] at h
      rcases h with ⟨⟨low, after⟩, hlow, heq⟩
      rw [← (Prod.mk.inj heq).2]
      exact (lowSurrogate_length hlow).trans hrest
    next =>
      split at h
      next => cases h
      next =>
        rw [← (Prod.mk.inj (Option.some.inj h)).2]
        exact hrest

theorem decodeChar_length {c : UInt8} {rest bytes behind : Text}
    (h : decodeChar c rest = some (bytes, behind)) : behind.length ≤ rest.length := by
  unfold decodeChar at h
  split_ifs at h
  · split at h
    next => cases h
    next e rest =>
      rw [List.length_cons]
      split at h
      next => exact (decodeUnicode_length h).trans (Nat.le_succ _)
      next =>
        rw [Option.map_eq_some_iff] at h
        rcases h with ⟨byte, -, heq⟩
        cases heq
        exact Nat.le_succ _
  · cases h
    exact le_rfl

theorem decodeWith_eq : ∀ (passes : ℕ) (text : Text), text.length ≤ passes →
    decodeWith passes text = decodeString text := by
  intro passes
  induction passes using Nat.strong_induction_on with
  | _ passes ih =>
      intro text hlength
      cases text with
      | nil => cases passes <;> rfl
      | cons c rest =>
          rw [List.length_cons] at hlength
          rw [decodeString, List.length_cons]
          cases passes with
          | zero => omega
          | succ passes =>
              rw [decodeWith, decodeWith]
              cases hchar : decodeChar c rest with
              | none => rfl
              | some result =>
                  have hbehind : result.2.length ≤ rest.length := decodeChar_length hchar
                  dsimp only
                  rw [ih passes (by omega) _ (by omega), ih rest.length (by omega) _ hbehind]

@[simp] theorem decodeString_nil : decodeString [] = some [] := rfl

/-- A string is decoded character by character. -/
theorem decodeString_cons {c : UInt8} {rest bytes behind : Text}
    (h : decodeChar c rest = some (bytes, behind)) :
    decodeString (c :: rest) = (decodeString behind).map (bytes ++ ·) := by
  rw [decodeString, List.length_cons, decodeWith, h]
  dsimp only
  rw [decodeWith_eq _ _ (decodeChar_length h)]

/-! ## The parts of a text -/

structure Space where
  text : Text
  blank : ∀ c ∈ text, isSpace c = true

def Space.none : Space where
  text := []
  blank := List.forall_mem_nil _

structure Digits where
  text : Text
  nonempty : text ≠ []
  digits : ∀ c ∈ text, isDigit c = true

structure Exponent where
  letter : UInt8
  sign : Option UInt8
  digits : Digits
  letter_eq : letter = 0x65 ∨ letter = 0x45
  sign_eq : ∀ c ∈ sign, c = 0x2b ∨ c = 0x2d

def Exponent.text (e : Exponent) : Text :=
  e.letter :: (e.sign.toList ++ e.digits.text)

/-- A number; the digits in front of the point do not begin with a zero that is not
the only one. -/
structure Number where
  minus : Bool
  whole : Digits
  frac : Option Digits
  exponent : Option Exponent
  zero : whole.text.head? = some 0x30 → whole.text.length = 1

/-- What follows the digits in front of the point. -/
def Number.behind (n : Number) : Text :=
  (match n.frac with
    | none => []
    | some digits => 0x2e :: digits.text) ++
  match n.exponent with
    | none => []
    | some exponent => exponent.text

def Number.text (n : Number) : Text :=
  (if n.minus then [0x2d] else []) ++ n.whole.text ++ n.behind

theorem Number.text_ne_nil (n : Number) : n.text ≠ [] := by
  simp [Number.text, n.whole.nonempty]

/-- The bytes of a number are digits, signs, a point and the letter of an exponent. -/
theorem Number.mem_text (n : Number) {c : UInt8} (hc : c ∈ n.text) :
    isDigit c = true ∨ c ∈ [0x2b, 0x2d, 0x2e, 0x45, 0x65] := by
  rw [Number.text, List.mem_append, List.mem_append] at hc
  rcases hc with (hminus | hwhole) | hbehind
  · split at hminus
    · rw [List.mem_singleton.mp hminus]
      simp
    · cases hminus
  · exact .inl (n.whole.digits c hwhole)
  · rw [Number.behind, List.mem_append] at hbehind
    rcases hbehind with hfrac | hexponent
    · split at hfrac
      next => cases hfrac
      next digits _ =>
        rcases List.mem_cons.mp hfrac with rfl | hdigit
        · simp
        · exact .inl (digits.digits c hdigit)
    · split at hexponent
      next => cases hexponent
      next exponent _ =>
        rw [Exponent.text, List.mem_cons, List.mem_append] at hexponent
        rcases hexponent with rfl | hsign | hdigit
        · rcases exponent.letter_eq with hletter | hletter <;> simp [hletter]
        · have heq := exponent.sign_eq c (Option.mem_toList.mp hsign)
          rcases heq with rfl | rfl <;> simp
        · exact .inl (exponent.digits.digits c hdigit)

/-- What may stand between the quotes of a string. -/
inductive StringText : Text → Prop
  | nil : StringText []
  | plain {c : UInt8} {text : Text} (hc : isPlain c = true) (h : StringText text) :
      StringText (c :: text)
  | short {e : UInt8} {text : Text} (he : (shortEscape e).isSome = true) (h : StringText text) :
      StringText (BACKSLASH :: e :: text)
  | unicode {a b c d : UInt8} {text : Text} (hdigits : ∀ x ∈ [a, b, c, d], (hexValue x).isSome = true)
      (h : StringText text) : StringText (BACKSLASH :: 0x75 :: a :: b :: c :: d :: text)

def quoted (text : Text) : Text :=
  QUOTE :: text ++ [QUOTE]

/-- A value between white space. -/
structure Element where
  before : Space
  value : Text
  after : Space

def Element.text (e : Element) : Text :=
  e.before.text ++ (e.value ++ e.after.text)

structure Member where
  before : Space
  name : Text
  between : Space
  element : Element
  string : StringText name

def Member.text (m : Member) : Text :=
  m.before.text ++ (quoted m.name ++ (m.between.text ++ COLON :: m.element.text))

/-- The texts with a comma between them. -/
def commaSeparated : List Text → Text
  | [] => []
  | [text] => text
  | text :: next :: rest => text ++ COMMA :: commaSeparated (next :: rest)

def arrayText (body : Text) : Text :=
  OPEN_BRACKET :: body ++ [CLOSE_BRACKET]

def objectText (body : Text) : Text :=
  OPEN_BRACE :: body ++ [CLOSE_BRACE]

/-- `true`, `false` and `null`. -/
def literals : List Text :=
  [[0x74, 0x72, 0x75, 0x65], [0x66, 0x61, 0x6c, 0x73, 0x65], [0x6e, 0x75, 0x6c, 0x6c]]

/-- The text is a value of at most so many levels. -/
inductive IsValue : ℕ → Text → Prop
  | literal {depth : ℕ} {text : Text} (h : text ∈ literals) : IsValue depth text
  | number {depth : ℕ} (n : Number) : IsValue depth n.text
  | string {depth : ℕ} {text : Text} (h : StringText text) : IsValue depth (quoted text)
  | emptyArray {depth : ℕ} (space : Space) : IsValue (depth + 1) (arrayText space.text)
  | array {depth : ℕ} (elements : List Element) (h : ∀ e ∈ elements, IsValue depth e.value) :
      IsValue (depth + 1) (arrayText (commaSeparated (elements.map Element.text)))
  | emptyObject {depth : ℕ} (space : Space) : IsValue (depth + 1) (objectText space.text)
  | object {depth : ℕ} (members : List Member)
      (h : ∀ m ∈ members, IsValue depth m.element.value) :
      IsValue (depth + 1) (objectText (commaSeparated (members.map Member.text)))

end JsonText
end Library
end Katana
