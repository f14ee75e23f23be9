import Katana.Library.JsonText
import Katana.Serde.Escape

/-!
# Decoding escaped strings

What `escape_json_string` writes is decoded by the rules of JSON to the string that
it was given, in every build.
-/

namespace Katana
namespace Serde

open Library
open Http (Byte bytesOf)

/-- `escape_json_string_into` with the text that is in `out` already. -/
def escapeJsonStringInto (build : Build) (bytes out : List Byte) : List Byte :=
  if !needsJsonEscaping build bytes then out ++ bytes
  else out ++ escapeJsonStringIntoEscaped build bytes

theorem escapeJsonStringInto_eq (build : Build) (bytes out : List Byte) :
    escapeJsonStringInto build bytes out = out ++ escapeJsonString build bytes := by
  unfold escapeJsonStringInto escapeJsonString
  split <;> rfl

/-! ## One character -/

theorem hexValue_hexDigit (n : ℕ) : JsonText.hexValue (hexDigit (n % 16)) = some (n % 16) := by
  have hall : ∀ d < 16, JsonText.hexValue (hexDigit d) = some d := by decide
  exact hall _ (Nat.mod_lt _ (by omega))

theorem utf8_ascii {c : Byte} (hc : c ≤ 0x1f) : JsonText.utf8 c.toNat = [c] := by
  have hlt : c.toNat < 0x80 := by
    have hle : c.toNat ≤ 0x1f := hc
    omega
  rw [JsonText.utf8, if_pos hlt]
  simp

/-- The two digits of a control character, behind two zeros. -/
theorem hexUnit_control {c : Byte} (hc : c ≤ 0x1f) (rest : List Byte) :
    JsonText.hexUnit (0x30 :: 0x30 :: hexDigit (c.toNat / 16 % 16) :: hexDigit (c.toNat % 16) ::
      rest) = some (c.toNat, rest) := by
  have hle : c.toNat ≤ 0x1f := hc
  have hzero : JsonText.hexValue 0x30 = some 0 := rfl
  have hvalue : ((0 * 16 + 0) * 16 + c.toNat / 16 % 16) * 16 + c.toNat % 16 = c.toNat := by omega
  simp only [JsonText.hexUnit, hzero, hexValue_hexDigit, hvalue]

theorem decodeUnicode_control {c : Byte} (hc : c ≤ 0x1f) (rest : List Byte) :
    JsonText.decodeUnicode (0x30 :: 0x30 :: hexDigit (c.toNat / 16 % 16) ::
      hexDigit (c.toNat % 16) :: rest) = some ([c], rest) := by
  have hle : c.toNat ≤ 0x1f := hc
  have hhigh : JsonText.isHighSurrogate c.toNat = false := by
    simp only [JsonText.isHighSurrogate, Bool.and_eq_false_iff, decide_eq_false_iff_not]
    omega
  have hlow : JsonText.isLowSurrogate c.toNat = false := by
    simp only [JsonText.isLowSurrogate, Bool.and_eq_false_iff, decide_eq_false_iff_not]
    omega
  simp [JsonText.decodeUnicode, hexUnit_control hc, hhigh, hlow, utf8_ascii hc]

theorem decodeChar_short {e byte : Byte} (hshort : JsonText.shortEscape e = some byte)
    (hunicode : e ≠ 0x75) (rest : List Byte) :
    JsonText.decodeChar BACKSLASH (e :: rest) = some ([byte], rest) := by
  have hbackslash : BACKSLASH = JsonText.BACKSLASH := rfl
  simp [JsonText.decodeChar, hbackslash, hunicode, hshort]

/-- An escape is decoded to the character that it was made for. -/
theorem decodeString_escapeOneChar {c : Byte} (hc : needsEscape c = true) (rest : List Byte) :
    JsonText.decodeString (escapeOneChar c ++ rest) =
      (JsonText.decodeString rest).map ([c] ++ ·) := by
  unfold escapeOneChar
  split_ifs with hbackslash hquote hlf hcr htab
  · rw [hbackslash]
    exact JsonText.decodeString_cons (decodeChar_short rfl (by decide) rest)
  · rw [hquote]
    exact JsonText.decodeString_cons (decodeChar_short rfl (by decide) rest)
  · rw [hlf]
    exact JsonText.decodeString_cons (decodeChar_short rfl (by decide) rest)
  · rw [hcr]
    exact JsonText.decodeString_cons (decodeChar_short rfl (by decide) rest)
  · rw [htab]
    exact JsonText.decodeString_cons (decodeChar_short rfl (by decide) rest)
  · have hcontrol : c ≤ 0x1f := by
      simpa [needsEscape, hbackslash, hquote] using hc
    have hchar : JsonText.decodeChar BACKSLASH (0x75 :: 0x30 :: 0x30 ::
        hexDigit (c.toNat / 16 % 16) :: hexDigit (c.toNat % 16) :: rest) = some ([c], rest) :=
      decodeUnicode_control hcontrol rest
    exact JsonText.decodeString_cons hchar

theorem isPlain_of_clean {c : Byte} (hc : needsEscape c = false) : JsonText.isPlain c = true := by
  simp only [needsEscape, Bool.or_eq_false_iff, decide_eq_false_iff_not, UInt8.not_le] at hc
  have hlow : (0x20 : Byte) ≤ c := by
    have hlt : (0x1f : Byte).toNat < c.toNat := hc.2
    exact hlt
  simp only [JsonText.isPlain, Bool.and_eq_true, decide_eq_true_eq]
  exact ⟨⟨hlow, hc.1.2⟩, hc.1.1⟩

theorem decodeString_escapeByte (c : Byte) (rest : List Byte) :
    JsonText.decodeString (escapeByte c ++ rest) =
      (JsonText.decodeString rest).map ([c] ++ ·) := by
  unfold escapeByte
  split
  next hc => exact decodeString_escapeOneChar hc rest
  next hc =>
    have hplain := isPlain_of_clean (Bool.eq_false_iff.mpr hc)
    have hchar : JsonText.decodeChar c rest = some ([c], rest) := by
      have hbackslash : c ≠ JsonText.BACKSLASH := by
        rintro rfl
        exact hc rfl
      simp [JsonText.decodeChar, hbackslash, hplain]
    exact JsonText.decodeString_cons hchar

/-! ## The text of a string -/

theorem stringText_escapeByte (c : Byte) {text : List Byte} (h : JsonText.StringText text) :
    JsonText.StringText (escapeByte c ++ text) := by
  unfold escapeByte
  cases hc : needsEscape c with
  | false => exact .plain (isPlain_of_clean hc) h
  | true =>
      rw [if_pos rfl]
      unfold escapeOneChar
      split_ifs
      · exact .short (by decide) h
      · exact .short (by decide) h
      · exact .short (by decide) h
      · exact .short (by decide) h
      · exact .short (by decide) h
      · refine .unicode ?_ h
        intro x hx
        simp only [List.mem_cons, List.not_mem_nil, or_false] at hx
        rcases hx with rfl | rfl | rfl | rfl
        · rfl
        · rfl
        · simp [hexValue_hexDigit]
        · simp [hexValue_hexDigit]

theorem stringText_escape (bytes : List Byte) :
    JsonText.StringText (bytes.flatMap escapeByte) := by
  induction bytes with
  | nil => exact .nil
  | cons c bytes ih =>
      rw [List.flatMap_cons]
      exact stringText_escapeByte c ih

/-! ## Whole strings -/

theorem decodeString_escape (bytes : List Byte) :
    JsonText.decodeString (bytes.flatMap escapeByte) = some bytes := by
  induction bytes with
  | nil => rfl
  | cons c bytes ih =>
      rw [List.flatMap_cons, decodeString_escapeByte, ih]
      rfl

/-- In every build a string is escaped byte by byte, JSON decodes what was written to
the string, and a cursor reads it up to the closing quote. -/
theorem escape_invertible (build : Build) (bytes : List Byte) :
    escapeJsonString build bytes = bytes.flatMap escapeByte ∧
      (∀ out, escapeJsonStringInto build bytes out = out ++ bytes.flatMap escapeByte) ∧
      JsonText.decodeString (escapeJsonString build bytes) = some bytes ∧
      ∀ rest, JsonCursor.string (quoted (escapeJsonString build bytes) ++ rest) =
        (some (escapeJsonString build bytes), rest) := by
  have hescape := escapeJsonString_eq build bytes
  refine ⟨hescape, ?_, ?_, ?_⟩
  · intro out
    rw [escapeJsonStringInto_eq, hescape]
  · rw [hescape]
    exact decodeString_escape bytes
  · intro rest
    exact (enclosed_escape build bytes).string rfl

end Serde
end Katana
