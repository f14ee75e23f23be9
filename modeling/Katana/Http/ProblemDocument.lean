import Katana.Http.Problem
import Katana.Library.JsonSpelling
import Katana.Serde.EscapeDecoding
import Katana.Serde.NumberReaders

/-!
# Problem documents as JSON

The values of a problem document are escaped and its extension keys are not.  So the
document says what the problem says exactly if the keys have no byte that would need an
escape: with such a key it is shorter than every text that says so.
-/

namespace Katana
namespace Http

open Library
open Library.JsonText (Decoded DecodesTo IsObjectOf Member Number Space StringText isPlain spelling
  spellingLength)

namespace ProblemDetails

/-- The members with their original strings. -/
def decoded (problem : ProblemDetails) : List (List Byte × Decoded) :=
  [(bytesOf "type", .string problem.type), (bytesOf "title", .string problem.title),
    (bytesOf "status", .integer problem.status)] ++
  (problem.detail.map fun detail => (bytesOf "detail", .string detail)).toList ++
  (problem.problemInstance.map fun text => (bytesOf "instance", .string text)).toList ++
  problem.extensions.map fun entry => (entry.1, .string entry.2)

end ProblemDetails

/-! ## Fields -/

/-- What is appended for a value. -/
def fieldValue : Decoded → List Byte
  | .string value => JsonText.quoted (appendJsonEscaped value)
  | .integer value => intToChars value

def fieldText (entry : List Byte × Decoded) : List Byte :=
  JsonText.quoted entry.1 ++ JsonText.COLON :: fieldValue entry.2

theorem jsonStringField_eq (key value : List Byte) :
    jsonStringField key value = fieldText (key, .string value) := by
  simp [jsonStringField, fieldText, fieldValue, JsonText.quoted, JsonText.QUOTE, JsonText.COLON]

theorem jsonIntField_eq (key : List Byte) (value : ℤ) :
    jsonIntField key value = fieldText (key, .integer value) := by
  simp [jsonIntField, fieldText, fieldValue, JsonText.quoted, JsonText.QUOTE, JsonText.COLON]

theorem ProblemDetails.members_eq (problem : ProblemDetails) :
    problem.members = problem.decoded.map fieldText := by
  rcases problem with ⟨type, title, status, detail, text, extensions⟩
  cases detail <;> cases text <;>
    simp [ProblemDetails.members, ProblemDetails.decoded, jsonStringField_eq, jsonIntField_eq]

theorem intercalate_comma (texts : List (List Byte)) :
    [JsonText.COMMA].intercalate texts = JsonText.commaSeparated texts := by
  induction texts with
  | nil => rfl
  | cons text rest ih =>
      cases rest with
      | nil => simp [JsonText.commaSeparated]
      | cons next rest =>
          rw [JsonText.commaSeparated, ← ih]
          simp [List.intercalate]

theorem ProblemDetails.toJson_eq (problem : ProblemDetails) : problem.toJson =
    JsonText.objectText (JsonText.commaSeparated (problem.decoded.map fieldText)) := by
  rw [← problem.members_eq, ← intercalate_comma]
  rfl

/-! ## Escapes -/

theorem jsonEscape_length (c : Byte) : (jsonEscape c).length = spellingLength c := by
  have hall : ∀ c : Byte, (jsonEscape c).length = spellingLength c := by
    decide +kernel
  exact hall c

theorem appendJsonEscaped_length (value : List Byte) :
    (appendJsonEscaped value).length = spelling value := by
  induction value with
  | nil => rfl
  | cons c value ih =>
      unfold appendJsonEscaped at ih ⊢
      rw [List.flatMap_cons, List.length_append, ih, jsonEscape_length, JsonText.spelling_cons]

/-- Two control characters have shorter escapes than those of the serialiser. -/
theorem jsonEscape_eq : ∀ c : Byte, jsonEscape c =
    if c = 8 then [JsonText.BACKSLASH, 0x62] else if c = 12 then [JsonText.BACKSLASH, 0x66]
    else Serde.escapeByte c := by
  decide +kernel

theorem stringText_jsonEscape (c : Byte) {text : List Byte} (h : StringText text) :
    StringText (jsonEscape c ++ text) := by
  rw [jsonEscape_eq]
  split_ifs
  · exact .short rfl h
  · exact .short rfl h
  · exact Serde.stringText_escapeByte c h

theorem decodeString_jsonEscape (c : Byte) (rest : List Byte) :
    JsonText.decodeString (jsonEscape c ++ rest) =
      (JsonText.decodeString rest).map ([c] ++ ·) := by
  rw [jsonEscape_eq]
  split_ifs with hbackspace hfeed
  · rw [hbackspace]
    exact JsonText.decodeString_cons (Serde.decodeChar_short rfl (by decide) rest)
  · rw [hfeed]
    exact JsonText.decodeString_cons (Serde.decodeChar_short rfl (by decide) rest)
  · exact Serde.decodeString_escapeByte c rest

theorem appendJsonEscaped_spells (value : List Byte) :
    StringText (appendJsonEscaped value) ∧
      JsonText.decodeString (appendJsonEscaped value) = some value := by
  unfold appendJsonEscaped
  induction value with
  | nil => exact ⟨.nil, rfl⟩
  | cons c value ih =>
      rw [List.flatMap_cons, decodeString_jsonEscape, ih.2]
      exact ⟨stringText_jsonEscape c ih.1, rfl⟩

/-! ## The status -/

theorem toChars_isDigit (n : ℕ) : ∀ c ∈ toChars 10 n, JsonText.isDigit c = true := by
  intro c hc
  rw [← Serde.isDigit_eq]
  exact toChars_digits (by omega) (by omega) n c hc

theorem digitsValue_eq {digits : List Byte} (h : ∀ c ∈ digits, JsonText.isDigit c = true) :
    JsonText.digitsValue digits = numeralValue 10 digits := by
  unfold JsonText.digitsValue numeralValue
  apply List.foldl_ext
  intro value c hc
  have hdigit := h c hc
  simp only [JsonText.isDigit, Bool.and_eq_true, decide_eq_true_eq] at hdigit
  have hdecimal : (48 ≤ c && c ≤ 57) = true := by
    simpa using hdigit
  rw [digitValue, if_pos hdecimal]

/-- The digits of a number begin with a zero only if it is zero. -/
theorem toChars_head {n : ℕ} (h : (toChars 10 n).head? = some 0x30) : n = 0 := by
  induction n using Nat.strong_induction_on with
  | _ n ih =>
      rcases Nat.lt_or_ge n 10 with hn | hn
      · have hall : ∀ d < 10, ([d.digitChar.toNat.toUInt8] : List Byte).head? = some 0x30 →
            d = 0 := by
          decide
        rw [toChars_of_lt hn] at h
        exact hall n hn h
      · rw [toChars_of_le (by omega) hn, List.head?_append_of_ne_nil _ (toChars_ne_nil 10 _)] at h
        have hquotient := ih (n / 10) (Nat.div_lt_self (by omega) (by omega)) h
        omega

theorem toChars_zero {n : ℕ} (h : (toChars 10 n).head? = some 0x30) :
    (toChars 10 n).length = 1 := by
  rw [toChars_head h]
  rfl

/-- The number as it is written. -/
def writtenNumber (value : ℤ) : Number where
  minus := value < 0
  whole := ⟨toChars 10 value.natAbs, toChars_ne_nil 10 _, toChars_isDigit _⟩
  frac := none
  exponent := none
  zero := toChars_zero

theorem writtenNumber_text (value : ℤ) : (writtenNumber value).text = intToChars value := by
  unfold intToChars
  by_cases hneg : value < 0 <;>
    simp [JsonText.Number.text, JsonText.Number.behind, writtenNumber, hneg]

theorem writtenNumber_isInteger (value : ℤ) : (writtenNumber value).IsInteger value where
  frac := rfl
  exponent := rfl
  value := by
    have hdigits : JsonText.digitsValue (toChars 10 value.natAbs) = value.natAbs := by
      rw [digitsValue_eq (toChars_isDigit _)]
      exact numeralValue_toChars (by omega) (by omega) _
    by_cases hneg : value < 0
    · simp only [writtenNumber, hneg, hdigits, decide_true, if_true]
      omega
    · simp only [writtenNumber, hneg, hdigits, decide_false, Bool.false_eq_true, if_false]
      omega

/-! ## Members -/

theorem fieldValue_decodesTo (value : Decoded) : DecodesTo (fieldValue value) value := by
  cases value with
  | string bytes =>
      have hspells := appendJsonEscaped_spells bytes
      exact ⟨_, hspells.1, rfl, hspells.2⟩
  | integer n => exact ⟨writtenNumber n, (writtenNumber_text n).symm, writtenNumber_isInteger n⟩

theorem fieldValue_length (value : Decoded) : (fieldValue value).length = value.shortest := by
  cases value with
  | string bytes =>
      simp [fieldValue, Decoded.shortest, JsonText.quoted, appendJsonEscaped_length]
  | integer n =>
      by_cases hneg : n < 0 <;> simp [fieldValue, Decoded.shortest, intToChars, toChars, hneg]

theorem fieldText_length (entry : List Byte × Decoded) :
    (fieldText entry).length = entry.1.length + 3 + entry.2.shortest := by
  simp only [fieldText, JsonText.quoted, List.cons_append, List.length_cons, List.length_append,
    List.length_nil, fieldValue_length]
  omega

/-- The member whose name is the key as it stands. -/
def plainField (entry : List Byte × Decoded) (h : ∀ c ∈ entry.1, isPlain c = true) : Member where
  before := Space.none
  name := entry.1
  between := Space.none
  element := { before := Space.none, value := fieldValue entry.2, after := Space.none }
  string := JsonText.stringText_plain h

theorem plainField_text (entry : List Byte × Decoded) (h : ∀ c ∈ entry.1, isPlain c = true) :
    (plainField entry h).text = fieldText entry := by
  simp [plainField, JsonText.Member.text, JsonText.Element.text, Space.none, fieldText]

theorem plainField_decodes (entry : List Byte × Decoded) (h : ∀ c ∈ entry.1, isPlain c = true) :
    (plainField entry h).Decodes entry :=
  ⟨JsonText.decodeString_plain h, fieldValue_decodesTo entry.2⟩

/-- Fields with plain keys are members that decode to the entries. -/
theorem exists_members {entries : List (List Byte × Decoded)}
    (h : ∀ entry ∈ entries, ∀ c ∈ entry.1, isPlain c = true) :
    ∃ members : List Member, List.Forall₂ Member.Decodes members entries ∧
      members.map Member.text = entries.map fieldText := by
  induction entries with
  | nil => exact ⟨[], .nil, rfl⟩
  | cons entry entries ih =>
      rcases ih fun e he => h e (List.mem_cons_of_mem entry he) with ⟨members, hdecodes, htexts⟩
      have hplain := h entry List.mem_cons_self
      refine ⟨plainField entry hplain :: members, .cons (plainField_decodes entry hplain) hdecodes, ?_⟩
      rw [List.map_cons, List.map_cons, plainField_text, htexts]

/-! ## The document -/

/-- The keys of the standard members need no escape. -/
theorem ProblemDetails.plain_keys_iff (problem : ProblemDetails) :
    (∀ entry ∈ problem.decoded, ∀ c ∈ entry.1, isPlain c = true) ↔
      ∀ entry ∈ problem.extensions, ∀ c ∈ entry.1, isPlain c = true := by
  have hstandard : ∀ key ∈ ["type", "title", "status", "detail", "instance"],
      ∀ c ∈ bytesOf key, isPlain c = true := by
    decide +kernel
  constructor
  · intro h entry hentry
    apply h (entry.1, .string entry.2)
    simp only [ProblemDetails.decoded, List.mem_append, List.mem_map]
    exact .inr ⟨entry, hentry, rfl⟩
  · intro h entry hentry
    simp only [ProblemDetails.decoded, List.mem_append, List.mem_cons, List.not_mem_nil, or_false,
      Option.mem_toList, Option.map_eq_some_iff, List.mem_map] at hentry
    rcases hentry with (((rfl | rfl | rfl) | ⟨detail, -, rfl⟩) | ⟨text, -, rfl⟩) | ⟨e, he, rfl⟩
    · exact hstandard _ (by simp)
    · exact hstandard _ (by simp)
    · exact hstandard _ (by simp)
    · exact hstandard _ (by simp)
    · exact hstandard _ (by simp)
    · exact h e he

theorem fieldTexts_length_le (entries : List (List Byte × Decoded)) :
    ((entries.map fieldText).map List.length).sum ≤ (entries.map JsonText.entryLength).sum := by
  induction entries with
  | nil => exact le_rfl
  | cons entry entries ih =>
      have hspelling := JsonText.length_le_spelling entry.1
      simp only [List.map_cons, List.sum_cons, fieldText_length, JsonText.entryLength]
      omega

/-- Fields that are long enough for their entries have plain keys. -/
theorem plain_of_length_le {entries : List (List Byte × Decoded)}
    (h : (entries.map JsonText.entryLength).sum ≤ ((entries.map fieldText).map List.length).sum) :
    ∀ entry ∈ entries, ∀ c ∈ entry.1, isPlain c = true := by
  induction entries with
  | nil => simp
  | cons entry entries ih =>
      have hspelling := JsonText.length_le_spelling entry.1
      have hrest := fieldTexts_length_le entries
      simp only [List.map_cons, List.sum_cons, fieldText_length, JsonText.entryLength] at h
      have hplain := (JsonText.spelling_eq_length_iff entry.1).mp (by omega)
      exact List.forall_mem_cons.mpr ⟨hplain, ih (by omega)⟩

theorem ProblemDetails.decoded_ne_nil (problem : ProblemDetails) : problem.decoded ≠ [] := by
  simp [ProblemDetails.decoded]

theorem ProblemDetails.toJson_length (problem : ProblemDetails) : problem.toJson.length =
    ((problem.decoded.map fieldText).map List.length).sum + problem.decoded.length + 1 := by
  have hne : problem.decoded.map fieldText ≠ [] := by
    simpa using problem.decoded_ne_nil
  have hcommas := JsonText.commaSeparated_length hne
  rw [List.length_map] at hcommas
  rw [problem.toJson_eq]
  simp only [JsonText.objectText, List.cons_append, List.length_cons, List.length_append,
    List.length_nil]
  omega

/-- The document is an object with exactly the members of the problem if and only if no
extension key has a byte that needs an escape. -/
theorem ProblemDetails.toJson_decodes_iff (problem : ProblemDetails) :
    IsObjectOf problem.toJson problem.decoded ↔
      ∀ entry ∈ problem.extensions, ∀ c ∈ entry.1, isPlain c = true := by
  rw [← problem.plain_keys_iff]
  constructor
  · intro h
    have hlength := h.length_le problem.decoded_ne_nil
    rw [problem.toJson_length] at hlength
    exact plain_of_length_le (by omega)
  · intro h
    rcases exists_members h with ⟨members, hdecodes, htexts⟩
    have hsome : members.isEmpty = false := by
      cases members with
      | nil => exact absurd (List.forall₂_nil_left_iff.mp hdecodes) problem.decoded_ne_nil
      | cons => rfl
    refine ⟨Space.none, Space.none, Space.none, members, _, .refl _, hdecodes, ?_⟩
    rw [problem.toJson_eq, htexts, hsome]
    simp [Space.none]

/-- A quotation mark in a key ends the name. -/
theorem quotedKey_broken : ¬ IsObjectOf
    ({ extensions := [(bytesOf "a\"b", bytesOf "c")] } : ProblemDetails).toJson
    ({ extensions := [(bytesOf "a\"b", bytesOf "c")] } : ProblemDetails).decoded := by
  intro h
  have hlength := h.length_le (ProblemDetails.decoded_ne_nil _)
  revert hlength
  decide

end Http
end Katana
