import Katana.Json.Fields
import Katana.Serde.NumberReaders

/-!
# The parse functions at a value

Each parse function of a field does one of three things at a value, whatever follows
it: it returns an error, it stores what it has read and leaves the cursor behind the
value, or it leaves the cursor within a number, at a byte where no member begins.
-/

namespace Katana
namespace Json

open Library Serde
open Library.JsonText (IsValue StringText Space Number Element Member arrayText objectText
  commaSeparated literals)
open Http (Byte bytesOf isDigit fromChars)

/-- What a reader makes of a value: nothing, or a result, and what it leaves of the
value. -/
inductive Reading (α : Type) where
  | refused
  | taken (result : α) (left : List Byte)

/-- The next byte belongs to a number or a literal. -/
def Lost (cur : JsonCursor) : Prop :=
  ∃ c tail, cur = c :: tail ∧ isScalarByte c = true

section Reads

variable {α : Type}

def Reads (read : JsonCursor → Option α × JsonCursor) (value : List Byte) : Reading α → Prop
  | .refused => ∀ rest, EndsValue rest → (read (value ++ rest)).1 = none
  | .taken result left => (left = [] ∨ Lost left) ∧
      ∀ rest, EndsValue rest → read (value ++ rest) = (some result, left ++ rest)

/-- The first bytes of literals, arrays and objects. -/
def isOther (c : Byte) : Bool :=
  c = 0x74 || c = 0x66 || c = 0x6e || c = OPEN_BRACKET || c = OPEN_BRACE

theorem value_cases {depth : ℕ} {value : List Byte} (h : IsValue depth value) :
    (∃ n : Number, value = n.text) ∨ (∃ text, StringText text ∧ value = JsonText.quoted text) ∨
      ∃ c tail, value = c :: tail ∧ isOther c = true := by
  cases h with
  | literal h =>
      right
      right
      simp only [literals, List.mem_cons, List.not_mem_nil, or_false] at h
      rcases h with rfl | rfl | rfl <;> exact ⟨_, _, rfl, rfl⟩
  | number n => exact .inl ⟨n, rfl⟩
  | string h => exact .inr (.inl ⟨_, h, rfl⟩)
  | emptyArray space => exact .inr (.inr ⟨_, _, rfl, rfl⟩)
  | array elements h => exact .inr (.inr ⟨_, _, rfl, rfl⟩)
  | emptyObject space => exact .inr (.inr ⟨_, _, rfl, rfl⟩)
  | object members h => exact .inr (.inr ⟨_, _, rfl, rfl⟩)

theorem isOther_facts {c : Byte} (hc : isOther c = true) : isJsonWhitespace c = false ∧
    c ≠ QUOTE ∧ isDigit 10 c = false ∧ c ≠ 0x2d ∧ c ≠ 0x2b ∧ c ≠ 0x2e := by
  simp only [isOther, Bool.or_eq_true, decide_eq_true_eq] at hc
  rcases hc with (((rfl | rfl) | rfl) | rfl) | rfl <;> decide

theorem quoted_append (text rest : List Byte) :
    JsonText.quoted text ++ rest = QUOTE :: (text ++ QUOTE :: rest) := by
  simp [JsonText.quoted, QUOTE, JsonText.QUOTE]

theorem skipWs_quoted (text rest : List Byte) :
    JsonCursor.skipWs (JsonText.quoted text ++ rest) = JsonText.quoted text ++ rest := by
  rw [quoted_append]
  exact skipWs_cons rfl

/-- Numbers and the other values have no quote in front. -/
theorem number_start_facts (n : Number) (rest : List Byte) : ∃ c tail, n.text ++ rest = c :: tail ∧
    isJsonWhitespace c = false ∧ c ≠ QUOTE ∧ isScalarByte c = true := by
  rcases number_start n rest with ⟨c, tail, htext, hc, -, -⟩
  have hfacts := isScalarByte_facts hc
  exact ⟨c, tail, htext, hfacts.1, hfacts.2.2.1, hc⟩

theorem string_other {c : Byte} {tail : List Byte} (hspace : isJsonWhitespace c = false)
    (hquote : c ≠ QUOTE) : JsonCursor.string (c :: tail) = (none, c :: tail) := by
  simp only [JsonCursor.string, skipWs_cons hspace, if_neg hquote]

theorem reads_string {depth : ℕ} {value : List Byte} (h : IsValue depth value) :
    ∃ r, Reads JsonCursor.string value r := by
  rcases value_cases h with ⟨n, rfl⟩ | ⟨text, htext, rfl⟩ | ⟨c, tail, rfl, hc⟩
  · refine ⟨.refused, fun rest _ => ?_⟩
    rcases number_start_facts n rest with ⟨c, tail, hnumber, hspace, hquote, -⟩
    rw [hnumber, string_other hspace hquote]
  · exact ⟨.taken text [], .inl rfl, fun rest _ => string_quoted htext rest⟩
  · refine ⟨.refused, fun rest _ => ?_⟩
    have hfacts := isOther_facts hc
    rw [List.cons_append, string_other hfacts.1 hfacts.2.1]

/-! ## Numbers -/

theorem fromChars_other {c : Byte} {tail : List Byte} (hc : isDigit 10 c = false) :
    fromChars 10 (c :: tail) = (none, c :: tail) := by
  simp [fromChars, hc]

theorem parseSize_other {c : Byte} {tail : List Byte} (hc : isOther c = true) :
    (parseSize (c :: tail)).1 = none := by
  have hfacts := isOther_facts hc
  unfold parseSize
  simp only [skipWs_cons hfacts.1, if_neg hfacts.2.1, fromChars_other hfacts.2.2.1]

theorem parseSize_quoted {text : List Byte} (htext : StringText text) (rest : List Byte) :
    parseSize (JsonText.quoted text ++ rest) = ((fromChars 10 text).1, rest) := by
  have hstring := string_quoted htext rest
  rw [quoted_append] at hstring ⊢
  unfold parseSize
  simp only [skipWs_cons (show isJsonWhitespace QUOTE = false from rfl), if_true, hstring]

/-- What is left of a number begins with a point or with the letter of an exponent. -/
theorem behind_lost (n : Number) : n.behind = [] ∨ Lost n.behind := by
  unfold JsonText.Number.behind
  cases n.frac with
  | some digits => exact .inr ⟨0x2e, _, rfl, rfl⟩
  | none =>
      cases n.exponent with
      | none => exact .inl rfl
      | some exponent =>
          refine .inr ⟨exponent.letter, _, rfl, ?_⟩
          rcases exponent.letter_eq with heq | heq <;> rw [heq] <;> rfl

theorem reads_parseSize {depth : ℕ} {value : List Byte} (h : IsValue depth value) :
    ∃ r, Reads parseSize value r := by
  rcases value_cases h with ⟨n, rfl⟩ | ⟨text, htext, rfl⟩ | ⟨c, tail, rfl, hc⟩
  · by_cases hread : n.minus = false ∧ wholeValue n < 2 ^ 64
    · refine ⟨.taken (wholeValue n) n.behind, behind_lost n, fun rest hrest => ?_⟩
      rw [parseSize_number n hrest.apart, if_pos hread]
    · refine ⟨.refused, fun rest hrest => ?_⟩
      rw [parseSize_number n hrest.apart, if_neg hread]
  · cases hvalue : (fromChars 10 text).1 with
    | none =>
        refine ⟨.refused, fun rest _ => ?_⟩
        rw [parseSize_quoted htext, hvalue]
    | some size =>
        refine ⟨.taken size [], .inl rfl, fun rest _ => ?_⟩
        rw [parseSize_quoted htext, hvalue]
        rfl
  · exact ⟨.refused, fun rest _ => parseSize_other hc⟩

theorem parseDouble_other {c : Byte} {tail : List Byte} (hc : isOther c = true) :
    (parseDouble (c :: tail)).1 = none := by
  have hfacts := isOther_facts hc
  have hsign : (c = 0x2d || c = 0x2b) = false := by
    simp [hfacts]
  have hscan : scanMantissa {} (c :: tail) = some ({}, c :: tail) := by
    simp [scanMantissa, hfacts]
  unfold parseDouble
  simp only [skipWs_cons hfacts.1, if_neg hfacts.2.1, hsign, Bool.false_eq_true, if_false, hscan,
    Bool.not_false, if_true]

theorem parseDouble_quoted {text : List Byte} (htext : StringText text) (rest : List Byte) :
    parseDouble (JsonText.quoted text ++ rest) = ((fromCharsDouble text).map (·.1), rest) := by
  have hstring := string_quoted htext rest
  rw [quoted_append] at hstring ⊢
  unfold parseDouble
  simp only [skipWs_cons (show isJsonWhitespace QUOTE = false from rfl), if_true, hstring]

theorem reads_parseDouble {depth : ℕ} {value : List Byte} (h : IsValue depth value) :
    ∃ r, Reads parseDouble value r := by
  rcases value_cases h with ⟨n, rfl⟩ | ⟨text, htext, rfl⟩ | ⟨c, tail, rfl, hc⟩
  · rcases parseDouble_number n with hnone | ⟨number, hsome⟩
    · exact ⟨.refused, fun rest hrest => hnone rest hrest.apart⟩
    · exact ⟨.taken number [], .inl rfl, fun rest hrest => hsome rest hrest.apart⟩
  · cases hvalue : (fromCharsDouble text).map (·.1) with
    | none =>
        refine ⟨.refused, fun rest _ => ?_⟩
        rw [parseDouble_quoted htext, hvalue]
    | some number =>
        refine ⟨.taken number [], .inl rfl, fun rest _ => ?_⟩
        rw [parseDouble_quoted htext, hvalue]
        rfl
  · exact ⟨.refused, fun rest _ => parseDouble_other hc⟩

/-! ## Booleans -/

theorem bytesOf_true : bytesOf "true" = [0x74, 0x72, 0x75, 0x65] := rfl

theorem bytesOf_false : bytesOf "false" = [0x66, 0x61, 0x6c, 0x73, 0x65] := rfl

theorem parseBool_other {c : Byte} {tail : List Byte} (hspace : isJsonWhitespace c = false)
    (htrue : c ≠ 0x74) (hfalse : c ≠ 0x66) (hquote : c ≠ QUOTE) :
    (parseBool (c :: tail)).1 = none := by
  unfold parseBool
  simp [skipWs_cons hspace, bytesOf_true, bytesOf_false, htrue, hfalse, hquote]

/-- What a string that is read as a boolean stands for. -/
def quotedBool (text : List Byte) : Option Bool :=
  if trimView text = bytesOf "true" then some true
  else if trimView text = bytesOf "false" then some false
  else none

theorem parseBool_quoted {text : List Byte} (htext : StringText text) (rest : List Byte) :
    parseBool (JsonText.quoted text ++ rest) = (quotedBool text, rest) := by
  have hstring := string_quoted htext rest
  have htrue : (QUOTE :: (text ++ QUOTE :: rest)).take 4 ≠ bytesOf "true" := by
    rw [bytesOf_true, List.take_succ_cons]
    intro heq
    cases (List.cons.inj heq).1
  have hfalse : (QUOTE :: (text ++ QUOTE :: rest)).take 5 ≠ bytesOf "false" := by
    rw [bytesOf_false, List.take_succ_cons]
    intro heq
    cases (List.cons.inj heq).1
  rw [quoted_append] at hstring ⊢
  unfold parseBool
  simp only [skipWs_cons (show isJsonWhitespace QUOTE = false from rfl), List.isEmpty_cons,
    Bool.false_eq_true, if_false, if_neg htrue, if_neg hfalse, List.head?_cons, if_true, hstring]
  rfl

theorem reads_parseBool {depth : ℕ} {value : List Byte} (h : IsValue depth value) :
    ∃ r, Reads parseBool value r := by
  have hbracket (tail : List Byte) : (parseBool (OPEN_BRACKET :: tail)).1 = none :=
    parseBool_other rfl (by decide) (by decide) (by decide)
  have hbrace (tail : List Byte) : (parseBool (OPEN_BRACE :: tail)).1 = none :=
    parseBool_other rfl (by decide) (by decide) (by decide)
  cases h with
  | literal h =>
      simp only [literals, List.mem_cons, List.not_mem_nil, or_false] at h
      rcases h with rfl | rfl | rfl
      · exact ⟨.taken true [], .inl rfl, fun rest _ => rfl⟩
      · exact ⟨.taken false [], .inl rfl, fun rest _ => rfl⟩
      · refine ⟨.refused, fun rest _ => ?_⟩
        exact parseBool_other rfl (by decide) (by decide) (by decide)
  | number n =>
      refine ⟨.refused, fun rest _ => ?_⟩
      rcases number_start n rest with ⟨c, tail, htext, hc, -, -⟩
      have hfacts := isScalarByte_facts hc
      have hbyte : JsonText.isDigit c = true ∨ c ∈ [0x2b, 0x2d, 0x2e, 0x45, 0x65] := by
        apply n.mem_text
        cases hnumber : n.text with
        | nil => exact absurd hnumber n.text_ne_nil
        | cons d more =>
            rw [hnumber] at htext
            rw [(List.cons.inj htext).1]
            exact List.mem_cons_self
      rw [htext]
      apply parseBool_other hfacts.1 _ _ hfacts.2.2.1
      · rintro rfl
        revert hbyte
        decide
      · rintro rfl
        revert hbyte
        decide
  | @string _ text h =>
      cases hvalue : quotedBool text with
      | none =>
          refine ⟨.refused, fun rest _ => ?_⟩
          rw [parseBool_quoted h, hvalue]
      | some value =>
          refine ⟨.taken value [], .inl rfl, fun rest _ => ?_⟩
          rw [parseBool_quoted h, hvalue]
          rfl
  | emptyArray space => exact ⟨.refused, fun rest _ => hbracket _⟩
  | array elements h => exact ⟨.refused, fun rest _ => hbracket _⟩
  | emptyObject space => exact ⟨.refused, fun rest _ => hbrace _⟩
  | object members h => exact ⟨.refused, fun rest _ => hbrace _⟩

end Reads

/-! ## Fields of one value -/

/-- The value is stored and the cursor left behind it. -/
def Takes (parse : JsonCursor → Record → FieldOutcome) (offset : ℤ) (value : List Byte)
    (stored : FieldValue) : Prop :=
  ∀ rest obj, EndsValue rest →
    parse (value ++ rest) obj = ⟨none, rest, Function.update obj offset stored⟩

/-- An error is returned, or the cursor is left within the value. -/
def Refuses (parse : JsonCursor → Record → FieldOutcome) (value : List Byte) : Prop :=
  ∀ rest obj, EndsValue rest →
    (parse (value ++ rest) obj).error ≠ none ∨ Lost (parse (value ++ rest) obj).cur

theorem Lost.append {left : List Byte} (h : Lost left) (rest : List Byte) : Lost (left ++ rest) := by
  rcases h with ⟨c, tail, rfl, hc⟩
  exact ⟨c, tail ++ rest, rfl, hc⟩

section Fields

variable {α : Type} {read : JsonCursor → Option α × JsonCursor} {value : List Byte}

theorem parseScalarField_value (hread : ∃ r, Reads read value r)
    (check : α → Option ValidationError) (store : α → FieldValue) (desc : FieldDescriptor) :
    (∃ stored, Takes (parseScalarField read check store desc) desc.offset value stored) ∨
      Refuses (parseScalarField read check store desc) value := by
  rcases hread with ⟨_ | ⟨result, left⟩, hreads⟩
  · right
    intro rest obj hrest
    left
    have hnone := hreads rest hrest
    unfold parseScalarField
    cases hresult : read (value ++ rest) with
    | mk result behind =>
        rw [hresult] at hnone
        dsimp only at hnone
        simp [hnone]
  · cases hcheck : check result with
    | some error =>
        right
        intro rest obj hrest
        left
        simp [parseScalarField, hreads.2 rest hrest, hcheck]
    | none =>
        rcases hreads.1 with rfl | hlost
        · left
          refine ⟨store result, fun rest obj hrest => ?_⟩
          simp [parseScalarField, hreads.2 rest hrest, hcheck]
        · right
          intro rest obj hrest
          right
          simpa [parseScalarField, hreads.2 rest hrest, hcheck] using hlost.append rest

end Fields

/-! ## Arrays -/

theorem skipWs_space (space : Space) (rest : List Byte) :
    JsonCursor.skipWs (space.text ++ rest) = JsonCursor.skipWs rest := by
  apply List.dropWhile_append_of_pos
  intro c hc
  exact space.blank c hc

theorem consume_space (c : Byte) (space : Space) (rest : List Byte) :
    JsonCursor.consume c (space.text ++ rest) = JsonCursor.consume c rest := by
  simp only [JsonCursor.consume, skipWs_space]

theorem consume_byte {c : Byte} (hc : isJsonWhitespace c = false) (rest : List Byte) :
    JsonCursor.consume c (c :: rest) = (true, rest) := by
  simp [JsonCursor.consume, skipWs_cons hc]

theorem consume_other {c d : Byte} (hd : isJsonWhitespace d = false) (hne : d ≠ c)
    (rest : List Byte) : JsonCursor.consume c (d :: rest) = (false, d :: rest) := by
  simp [JsonCursor.consume, skipWs_cons hd, hne]

/-- The first byte of a value. -/
theorem value_start {depth : ℕ} {value : List Byte} (h : IsValue depth value) :
    ∃ c tail, value = c :: tail ∧ isJsonWhitespace c = false ∧ c ≠ CLOSE_BRACKET ∧
      c ≠ CLOSE_BRACE ∧ c ≠ COMMA := by
  rcases value_cases h with ⟨n, rfl⟩ | ⟨text, -, rfl⟩ | ⟨c, tail, rfl, hc⟩
  · rcases number_start n [] with ⟨c, tail, htext, hc, -, -⟩
    have hfacts := isScalarByte_facts hc
    rw [List.append_nil] at htext
    have hends := hfacts.2.1
    simp only [JsonCursor.endsScalar, Bool.or_eq_false_iff, decide_eq_false_iff_not] at hends
    exact ⟨c, tail, htext, hfacts.1, hends.2, hends.1.2, hends.1.1⟩
  · exact ⟨QUOTE, _, rfl, rfl, by decide, by decide, by decide⟩
  · have hfacts := isOther_facts hc
    simp only [isOther, Bool.or_eq_true, decide_eq_true_eq] at hc
    refine ⟨c, tail, rfl, hfacts.1, ?_⟩
    rcases hc with (((rfl | rfl) | rfl) | rfl) | rfl <;> decide

/-- The text of an element that is handed to its parser; `skip_value` takes the white
space behind a number or a literal with it. -/
def skippedText (e : Element) : List Byte :=
  e.value ++ if isDelimited e.value then [] else e.after.text

/-- What follows an element: a comma, or a closing bracket. -/
def Follows (tail : List Byte) : Prop :=
  ∃ c behind, tail = c :: behind ∧ JsonCursor.endsScalar c = true

theorem endsScalar_blank {c : Byte} (hc : JsonCursor.endsScalar c = true) :
    isJsonWhitespace c = false := by
  simp only [JsonCursor.endsScalar, Bool.or_eq_true, decide_eq_true_eq] at hc
  rcases hc with (rfl | rfl) | rfl <;> rfl

theorem Follows.skipWs {tail : List Byte} (h : Follows tail) : JsonCursor.skipWs tail = tail := by
  rcases h with ⟨c, behind, rfl, hc⟩
  exact skipWs_cons (endsScalar_blank hc)

theorem Follows.endsValue {tail : List Byte} (h : Follows tail) (space : Space) :
    EndsValue (space.text ++ tail) := by
  rcases h with ⟨c, behind, rfl, hc⟩
  right
  refine ⟨c, behind, ?_, hc⟩
  rw [skipWs_space, skipWs_cons (endsScalar_blank hc)]

/-- Behind one of the texts a comma and the others follow, or the closing bracket. -/
theorem separated_cons {close : Byte} (hclose : JsonCursor.endsScalar close = true)
    (hcomma : close ≠ COMMA) (text : List Byte) (texts : List (List Byte)) (rest : List Byte) :
    ∃ tail, commaSeparated (text :: texts) ++ close :: rest = text ++ tail ∧ Follows tail ∧
      (JsonCursor.tryComma tail).2 = commaSeparated texts ++ close :: rest := by
  cases texts with
  | nil =>
      refine ⟨close :: rest, rfl, ⟨close, rest, rfl, hclose⟩, ?_⟩
      exact congrArg Prod.snd (consume_other (endsScalar_blank hclose) hcomma rest)
  | cons next texts =>
      refine ⟨COMMA :: (commaSeparated (next :: texts) ++ close :: rest), ?_,
        ⟨COMMA, _, rfl, rfl⟩, ?_⟩
      · exact List.append_assoc ..
      · exact congrArg Prod.snd (consume_byte rfl _)

section Elements

variable {α : Type} {parseValue : List Byte → Option α} {depth : ℕ} {tail : List Byte}

theorem skippedValue_element {e : Element} (he : IsValue depth e.value) (htail : Follows tail) :
    skippedValue (e.value ++ (e.after.text ++ tail)) = skippedText e ∧
      (JsonCursor.skipValue (e.value ++ (e.after.text ++ tail))) =
        if isDelimited e.value then e.after.text ++ tail else tail := by
  have hskip := skipValue_value he (htail.endsValue e.after)
  rw [behindValue, skipWs_space, htail.skipWs] at hskip
  refine ⟨?_, hskip⟩
  unfold skippedValue skippedText
  rw [hskip]
  cases isDelimited e.value with
  | true =>
      rw [if_pos rfl, if_pos rfl, List.length_append, Nat.add_sub_cancel, List.take_left,
        List.append_nil]
  | false =>
      rw [if_neg Bool.false_ne_true, if_neg Bool.false_ne_true, ← List.append_assoc,
        List.length_append, Nat.add_sub_cancel, List.take_left]

/-- One pass goes over one element and the comma behind it. -/
theorem arrayPass_element (parseValue : List Byte → Option α) {e : Element}
    (he : IsValue depth e.value) (htail : Follows tail) (vec : List α) :
    arrayPass parseValue ⟨e.text ++ tail, vec⟩ =
      match parseValue (skippedText e) with
      | none => .done (false,
          ⟨JsonCursor.skipValue (e.value ++ (e.after.text ++ tail)), vec⟩)
      | some value => .again ⟨(JsonCursor.tryComma tail).2, vec ++ [value]⟩ := by
  have htext : e.text ++ tail = e.before.text ++ (e.value ++ (e.after.text ++ tail)) := by
    simp [JsonText.Element.text]
  rcases value_start he with ⟨c, more, hvalue, hspace, hbracket, -, -⟩
  have hws : JsonCursor.skipWs (e.text ++ tail) = e.value ++ (e.after.text ++ tail) := by
    rw [htext, skipWs_space, hvalue]
    exact skipWs_cons hspace
  have hcur : (e.text ++ tail).isEmpty = false := by
    rw [htext, hvalue]
    simp
  have hclosed : (JsonCursor.tryArrayEnd (e.value ++ (e.after.text ++ tail))).1 = false := by
    rw [hvalue]
    exact congrArg Prod.fst (consume_other hspace hbracket _)
  have hskipped := skippedValue_element he htail
  have hcomma : (JsonCursor.tryComma
      (JsonCursor.skipValue (e.value ++ (e.after.text ++ tail)))).2 =
        (JsonCursor.tryComma tail).2 := by
    rw [hskipped.2]
    split
    · exact congrArg Prod.snd (consume_space COMMA e.after tail)
    · rfl
  unfold arrayPass
  simp only [hcur, hws, hclosed, hskipped.1, hcomma, Bool.false_eq_true, if_false] <;> rfl

theorem follows_close (rest : List Byte) : Follows (CLOSE_BRACKET :: rest) :=
  ⟨CLOSE_BRACKET, rest, rfl, rfl⟩

theorem arrayPass_close (space : Space) (rest : List Byte) (vec : List α) :
    arrayPass parseValue ⟨space.text ++ CLOSE_BRACKET :: rest, vec⟩ =
      .done (true, ⟨rest, vec⟩) := by
  have hclosed : JsonCursor.tryArrayEnd (JsonCursor.skipWs (space.text ++ CLOSE_BRACKET :: rest)) =
      (true, rest) := by
    rw [skipWs_space, (follows_close rest).skipWs]
    exact consume_byte rfl rest
  unfold arrayPass
  simp [hclosed]

/-- What the loop makes of the elements. -/
def arrayResult (parseValue : List Byte → Option α) (elements : List Element) (rest : List Byte)
    (vec : List α) (result : Bool × ArrayState α) : Prop :=
  match elements.mapM fun e => parseValue (skippedText e) with
  | some values => result = (true, ⟨rest, vec ++ values⟩)
  | none => result.1 = false

/-- The loop ends behind the bracket with all the elements, or with an error. -/
theorem arrayLoop_elements (hempty : parseValue [] = none) {elements : List Element}
    (helements : ∀ e ∈ elements, IsValue depth e.value) (rest : List Byte) (vec : List α) :
    arrayResult parseValue elements rest vec (arrayLoop parseValue
      ⟨commaSeparated (elements.map Element.text) ++ CLOSE_BRACKET :: rest, vec⟩) := by
  have hends : ∃ result, arrayResult parseValue elements rest vec result ∧
      EndsWith (arrayPass parseValue)
        ⟨commaSeparated (elements.map Element.text) ++ CLOSE_BRACKET :: rest, vec⟩ result := by
    induction elements generalizing vec with
    | nil =>
        refine ⟨(true, ⟨rest, vec⟩), by simp [arrayResult], .of_done ?_⟩
        exact arrayPass_close .none rest vec
    | cons e elements ih =>
        have he := helements e List.mem_cons_self
        have hmore : ∀ d ∈ elements, IsValue depth d.value :=
          fun d hd => helements d (List.mem_cons_of_mem _ hd)
        rcases separated_cons rfl (show CLOSE_BRACKET ≠ COMMA by decide) e.text
          (elements.map Element.text) rest with ⟨tail, htext, htail, hcomma⟩
        have hpass := arrayPass_element parseValue he htail vec
        rw [hcomma] at hpass
        rw [List.map_cons, htext]
        cases hvalue : parseValue (skippedText e) with
        | none =>
            simp only [hvalue] at hpass
            refine ⟨_, ?_, .of_done hpass⟩
            simp [arrayResult, hvalue]
        | some value =>
            simp only [hvalue] at hpass
            rcases ih hmore (vec ++ [value]) with ⟨result, hresult, hrun⟩
            refine ⟨result, ?_, .of_passes (.head hpass (.refl _)) hrun⟩
            unfold arrayResult at hresult ⊢
            simp only [List.mapM_cons, hvalue]
            cases hvalues : elements.mapM fun d => parseValue (skippedText d) with
            | none => simpa [hvalues] using hresult
            | some values => simpa [hvalues] using hresult
  rcases hends with ⟨result, hresult, hrun⟩
  unfold arrayLoop
  rwa [evalLoop_eq (decreases_arrayPass hempty) hrun]

theorem tryArrayStart_array (body rest : List Byte) :
    JsonCursor.tryArrayStart (arrayText body ++ rest) = (true, body ++ CLOSE_BRACKET :: rest) := by
  have htext : arrayText body ++ rest = OPEN_BRACKET :: (body ++ CLOSE_BRACKET :: rest) := by
    simp [arrayText, OPEN_BRACKET, JsonText.OPEN_BRACKET, CLOSE_BRACKET, JsonText.CLOSE_BRACKET]
  rw [htext]
  exact consume_byte rfl _

theorem parseArray_refuses {value : List Byte} {c : Byte} {more : List Byte}
    (hvalue : value = c :: more) (hspace : isJsonWhitespace c = false) (hc : c ≠ OPEN_BRACKET)
    (store : List α → FieldValue) (desc : FieldDescriptor) :
    Refuses (parseArray parseValue store desc) value := by
  intro rest obj _
  left
  have hopened : (JsonCursor.tryArrayStart (value ++ rest)).1 = false := by
    rw [hvalue]
    exact congrArg Prod.fst (consume_other hspace hc _)
  simp [parseArray, hopened]

/-- An array is stored if all its elements are read and there are as many as there
have to be. -/
theorem parseArray_array {body : List Byte} (read : Option (List α))
    (hloop : ∀ rest, match read with
      | some values => arrayLoop parseValue ⟨body ++ CLOSE_BRACKET :: rest, []⟩ =
          (true, ⟨rest, values⟩)
      | none => (arrayLoop parseValue ⟨body ++ CLOSE_BRACKET :: rest, []⟩).1 = false)
    (store : List α → FieldValue) (desc : FieldDescriptor) :
    (∃ stored, Takes (parseArray parseValue store desc) desc.offset (arrayText body) stored) ∨
      Refuses (parseArray parseValue store desc) (arrayText body) := by
  cases read with
  | none =>
      right
      intro rest obj _
      left
      have hfails := hloop rest
      dsimp only at hfails
      simp [parseArray, tryArrayStart_array, hfails]
  | some values =>
      cases hsize : sizeError desc values.length with
      | none =>
          left
          refine ⟨store values, fun rest obj _ => ?_⟩
          have hruns := hloop rest
          dsimp only at hruns
          simp [parseArray, tryArrayStart_array, hruns, hsize]
      | some error =>
          right
          intro rest obj _
          left
          have hruns := hloop rest
          dsimp only at hruns
          simp [parseArray, tryArrayStart_array, hruns, hsize]

theorem parseArray_value (hempty : parseValue [] = none) {value : List Byte}
    (h : IsValue depth value) (store : List α → FieldValue) (desc : FieldDescriptor) :
    (∃ stored, Takes (parseArray parseValue store desc) desc.offset value stored) ∨
      Refuses (parseArray parseValue store desc) value := by
  cases h with
  | literal h =>
      right
      simp only [literals, List.mem_cons, List.not_mem_nil, or_false] at h
      rcases h with rfl | rfl | rfl <;> exact parseArray_refuses rfl rfl (by decide) store desc
  | number n =>
      right
      rcases number_start n [] with ⟨c, tail, htext, hc, -, -⟩
      have hfacts := isScalarByte_facts hc
      rw [List.append_nil] at htext
      exact parseArray_refuses htext hfacts.1 hfacts.2.2.2.2 store desc
  | string h => exact .inr (parseArray_refuses rfl rfl (by decide) store desc)
  | emptyArray space =>
      apply parseArray_array (some [])
      intro rest
      exact evalLoop_eq (decreases_arrayPass hempty) (.of_done (arrayPass_close space rest []))
  | array elements h =>
      apply parseArray_array (elements.mapM fun e => parseValue (skippedText e))
      intro rest
      have hresult := arrayLoop_elements hempty h rest []
      unfold arrayResult at hresult
      cases hvalues : elements.mapM fun e => parseValue (skippedText e) with
      | none => simpa [hvalues] using hresult
      | some values => simpa [hvalues] using hresult
  | emptyObject space => exact .inr (parseArray_refuses rfl rfl (by decide) store desc)
  | object members h => exact .inr (parseArray_refuses rfl rfl (by decide) store desc)

end Elements

/-- Each field stores a value and moves behind it, or does not take it. -/
theorem parse_value {depth : ℕ} {value : List Byte} (h : IsValue depth value)
    (desc : FieldDescriptor) : (∃ stored, Takes desc.parse desc.offset value stored) ∨
      Refuses desc.parse value := by
  have hsize : ∃ r, Reads (fun cur => ((parseSize cur).1.map Int64.ofNat, (parseSize cur).2))
      value r := by
    rcases reads_parseSize h with ⟨_ | ⟨size, left⟩, hreads⟩
    · refine ⟨.refused, fun rest hrest => ?_⟩
      simp [hreads rest hrest]
    · refine ⟨.taken (Int64.ofNat size) left, hreads.1, fun rest hrest => ?_⟩
      simp [hreads.2 rest hrest]
  cases hkind : desc.kind with
  | string =>
      simp only [FieldDescriptor.parse, hkind]
      exact parseScalarField_value (reads_string h) _ _ desc
  | integer =>
      simp only [FieldDescriptor.parse, hkind]
      exact parseScalarField_value hsize _ _ desc
  | number =>
      simp only [FieldDescriptor.parse, hkind]
      exact parseScalarField_value (reads_parseDouble h) _ _ desc
  | boolean =>
      simp only [FieldDescriptor.parse, hkind]
      exact parseScalarField_value (reads_parseBool h) _ _ desc
  | arrayString =>
      simp only [FieldDescriptor.parse, hkind]
      exact parseArray_value rfl h _ desc
  | arrayInteger =>
      simp only [FieldDescriptor.parse, hkind]
      exact parseArray_value rfl h _ desc
  | arrayNumber =>
      simp only [FieldDescriptor.parse, hkind]
      exact parseArray_value rfl h _ desc
  | arrayBoolean =>
      simp only [FieldDescriptor.parse, hkind]
      exact parseArray_value rfl h _ desc

end Json
end Katana
