import Katana.Library.JsonText
import Katana.Serde.Cursor

/-!
# Skipping values

`skip_value` counts the brackets of one kind outside of strings.  Over a text that
holds whole values the count comes out as it went in, whatever brackets of either
kind are inside, so the loop ends at the bracket that closes the value.  The count is
an `int`; it is never more than the number of levels of the value.
-/

namespace Katana
namespace Serde

open Library
open Library.JsonText (IsValue StringText Space Digits Exponent Number Element Member arrayText
  objectText commaSeparated literals)
open Http (Byte)

/-- The limit of the count, an `int`. -/
def INT_MAX : ℕ := 2 ^ 31 - 1

namespace JsonCursor

/-- The loop of `skip_value` with a count that goes up to a limit; without a result where
it overflows. -/
def skipNestedWithin (limit : ℕ) (opening closing : Byte) : ℕ → Bool → List Byte → Option (List Byte)
  | _, _, [] => some []
  | depth, true, c :: rest =>
      if c = BACKSLASH then
        match rest with
        | [] => some []
        | _ :: rest => skipNestedWithin limit opening closing depth true rest
      else skipNestedWithin limit opening closing depth (c ≠ QUOTE) rest
  | depth, false, c :: rest =>
      if c = QUOTE then skipNestedWithin limit opening closing depth true rest
      else if c = opening then
        if depth < limit then skipNestedWithin limit opening closing (depth + 1) false rest else none
      else if c = closing then
        if depth = 1 then some rest else skipNestedWithin limit opening closing (depth - 1) false rest
      else skipNestedWithin limit opening closing depth false rest

def skipValueWithin (limit : ℕ) (cur : JsonCursor) : Option JsonCursor :=
  match skipWs cur with
  | [] => some []
  | c :: rest =>
      if c = OPEN_BRACE then skipNestedWithin limit OPEN_BRACE CLOSE_BRACE 1 false rest
      else if c = OPEN_BRACKET then skipNestedWithin limit OPEN_BRACKET CLOSE_BRACKET 1 false rest
      else if c = QUOTE then some (string (c :: rest)).2
      else some ((c :: rest).dropWhile fun c => !endsScalar c)

/-- Where the count does not overflow it is the count of `skipNested`. -/
theorem skipNested_of_within {limit : ℕ} {opening closing : Byte} {depth : ℕ} {inside : Bool}
    {bytes rest : List Byte} (h : skipNestedWithin limit opening closing depth inside bytes = some rest) :
    skipNested opening closing depth inside bytes = rest := by
  induction depth, inside, bytes using skipNestedWithin.induct limit opening closing with
  | case1 depth inside =>
      rw [skipNestedWithin.eq_def] at h
      rw [skipNested.eq_def]
      exact Option.some.inj h
  | case2 depth =>
      rw [skipNestedWithin.eq_def] at h
      rw [skipNested.eq_def]
      simpa using h
  | case3 depth d rest' ih =>
      rw [skipNestedWithin.eq_def] at h
      rw [skipNested.eq_def]
      simp only [if_true] at h ⊢
      exact ih h
  | case4 depth c rest' hc ih =>
      rw [skipNestedWithin.eq_def] at h
      rw [skipNested.eq_def]
      simp only [if_neg hc] at h ⊢
      exact ih h
  | case5 depth rest' ih =>
      rw [skipNestedWithin.eq_def] at h
      rw [skipNested.eq_def]
      simp only [if_true] at h ⊢
      exact ih h
  | case6 depth rest' hdepth hquote ih =>
      rw [skipNestedWithin.eq_def] at h
      rw [skipNested.eq_def]
      simp only [if_neg hquote, if_true, if_pos hdepth] at h ⊢
      exact ih h
  | case7 depth rest' hdepth hquote =>
      rw [skipNestedWithin.eq_def] at h
      simp only [if_neg hquote, if_true, if_neg hdepth] at h
      cases h
  | case8 rest' hquote hopening =>
      rw [skipNestedWithin.eq_def] at h
      rw [skipNested.eq_def]
      simpa [hquote, hopening] using h
  | case9 depth rest' hdepth hquote hopening ih =>
      rw [skipNestedWithin.eq_def] at h
      rw [skipNested.eq_def]
      simp only [if_neg hquote, if_neg hopening, if_true, if_neg hdepth] at h ⊢
      exact ih h
  | case10 depth c rest' hquote hopening hclosing ih =>
      rw [skipNestedWithin.eq_def] at h
      rw [skipNested.eq_def]
      simp only [if_neg hquote, if_neg hopening, if_neg hclosing] at h ⊢
      exact ih h

theorem skipValue_of_within {limit : ℕ} {cur next : JsonCursor} (h : skipValueWithin limit cur = some next) :
    skipValue cur = next := by
  unfold skipValueWithin at h
  unfold skipValue
  cases hcur : skipWs cur with
  | nil =>
      simp only [hcur] at h ⊢
      exact Option.some.inj h
  | cons c rest =>
      simp only [hcur] at h ⊢
      split at h
      next hbrace =>
        rw [if_pos hbrace]
        exact skipNested_of_within h
      next hbrace =>
        rw [if_neg hbrace]
        split at h
        next hbracket =>
          rw [if_pos hbracket]
          exact skipNested_of_within h
        next hbracket =>
          rw [if_neg hbracket]
          split at h
          next hquote =>
            rw [if_pos hquote]
            exact Option.some.inj h
          next hquote =>
            rw [if_neg hquote]
            exact Option.some.inj h

end JsonCursor

open JsonCursor

/-! ## Texts that leave the count as it is -/

/-- The loop goes over the text and comes out with the count that it went in with, if
so many levels more can be counted. -/
def Passed (limit : ℕ) (opening closing : Byte) (levels : ℕ) (text : List Byte) : Prop :=
  ∀ depth rest, 1 ≤ depth → depth + levels ≤ limit →
    skipNestedWithin limit opening closing depth false (text ++ rest) =
      skipNestedWithin limit opening closing depth false rest

/-- The bytes that the loop tells from the others outside of strings. -/
def isMark (c : Byte) : Bool :=
  c = QUOTE || c = OPEN_BRACE || c = CLOSE_BRACE || c = OPEN_BRACKET || c = CLOSE_BRACKET

/-- The two kinds of brackets. -/
inductive Brackets : Byte → Byte → Prop
  | braces : Brackets OPEN_BRACE CLOSE_BRACE
  | brackets : Brackets OPEN_BRACKET CLOSE_BRACKET

section Passed

variable {limit : ℕ} {opening closing : Byte} {levels : ℕ} {text more : List Byte}

theorem Passed.nil : Passed limit opening closing levels [] :=
  fun _ _ _ _ => rfl

theorem Passed.append (h : Passed limit opening closing levels text)
    (hmore : Passed limit opening closing levels more) : Passed limit opening closing levels (text ++ more) := by
  intro depth rest hdepth hlevels
  rw [List.append_assoc, h depth _ hdepth hlevels, hmore depth rest hdepth hlevels]

theorem Passed.mono (h : Passed limit opening closing levels text) {levels' : ℕ}
    (hle : levels ≤ levels') : Passed limit opening closing levels' text := by
  intro depth rest hdepth hlevels
  exact h depth rest hdepth (by omega)

theorem Passed.byte (hkind : Brackets opening closing) {c : Byte} (hc : isMark c = false) :
    Passed limit opening closing levels [c] := by
  intro depth rest _ _
  simp only [isMark, Bool.or_eq_false_iff, decide_eq_false_iff_not] at hc
  rw [List.singleton_append, skipNestedWithin.eq_def]
  cases hkind with
  | braces => simp [hc]
  | brackets => simp [hc]

theorem Passed.bytes (hkind : Brackets opening closing) (htext : ∀ c ∈ text, isMark c = false) :
    Passed limit opening closing levels text := by
  induction text with
  | nil => exact .nil
  | cons c text ih =>
      have hc := htext c (by simp)
      exact (Passed.byte hkind hc).append (ih fun d hd => htext d (by simp [hd]))

/-- Inside of a string the loop goes on to the closing quote. -/
theorem skipNestedWithin_string (htext : StringText text) (depth : ℕ) (rest : List Byte) :
    skipNestedWithin limit opening closing depth true (text ++ QUOTE :: rest) =
      skipNestedWithin limit opening closing depth false rest := by
  have hplain {c : Byte} (hquote : c ≠ QUOTE) (hbackslash : c ≠ BACKSLASH) (bytes : List Byte) :
      skipNestedWithin limit opening closing depth true (c :: bytes) =
        skipNestedWithin limit opening closing depth true bytes := by
    rw [skipNestedWithin.eq_def]
    simp [hquote, hbackslash]
  have hescape (e : Byte) (bytes : List Byte) :
      skipNestedWithin limit opening closing depth true (BACKSLASH :: e :: bytes) =
        skipNestedWithin limit opening closing depth true bytes := by
    rw [skipNestedWithin.eq_def]
    simp
  have hhex {x : Byte} (hx : (JsonText.hexValue x).isSome = true) : x ≠ QUOTE ∧ x ≠ BACKSLASH := by
    constructor <;> rintro rfl <;> revert hx <;> decide
  induction htext with
  | nil =>
      rw [List.nil_append, skipNestedWithin.eq_def]
      simp [QUOTE, BACKSLASH]
  | @plain c text hc _ ih =>
      simp only [JsonText.isPlain, Bool.and_eq_true, decide_eq_true_eq] at hc
      rw [List.cons_append, hplain hc.1.2 hc.2, ih]
  | short _ _ ih => exact (hescape _ _).trans ih
  | @unicode a b c d text hdigits _ ih =>
      have ha := hhex (hdigits a (by simp))
      have hb := hhex (hdigits b (by simp))
      have hc := hhex (hdigits c (by simp))
      have hd := hhex (hdigits d (by simp))
      calc skipNestedWithin limit opening closing depth true
            (BACKSLASH :: 0x75 :: a :: b :: c :: d :: (text ++ QUOTE :: rest))
          = skipNestedWithin limit opening closing depth true (a :: b :: c :: d :: (text ++ QUOTE :: rest)) :=
            hescape 0x75 _
        _ = skipNestedWithin limit opening closing depth true (text ++ QUOTE :: rest) := by
            rw [hplain ha.1 ha.2, hplain hb.1 hb.2, hplain hc.1 hc.2, hplain hd.1 hd.2]
        _ = skipNestedWithin limit opening closing depth false rest := ih

theorem Passed.string (htext : StringText text) :
    Passed limit opening closing levels (JsonText.quoted text) := by
  intro depth rest _ _
  have hopen : skipNestedWithin limit opening closing depth false (JsonText.quoted text ++ rest) =
      skipNestedWithin limit opening closing depth true (text ++ QUOTE :: rest) := by
    have hquoted : JsonText.quoted text ++ rest = QUOTE :: (text ++ QUOTE :: rest) := by
      simp [JsonText.quoted, QUOTE, JsonText.QUOTE]
    rw [hquoted, skipNestedWithin.eq_def]
    simp
  rw [hopen, skipNestedWithin_string htext]

/-- Text in brackets, which are counted or not. -/
theorem Passed.enclosed (hkind : Brackets opening closing) {left right : Byte}
    (hown : Brackets left right) (h : Passed limit opening closing levels text) :
    Passed limit opening closing (levels + 1) (left :: text ++ [right]) := by
  have hcounted : Passed limit opening closing (levels + 1) (opening :: text ++ [closing]) := by
    intro depth rest hdepth hlevels
    have hfits : depth < limit := by omega
    have henter : skipNestedWithin limit opening closing depth false (opening :: text ++ [closing] ++ rest) =
        skipNestedWithin limit opening closing (depth + 1) false (text ++ closing :: rest) := by
      rw [List.cons_append, List.cons_append, List.append_assoc, skipNestedWithin.eq_def]
      cases hkind <;> simp [hfits, QUOTE, OPEN_BRACE, OPEN_BRACKET]
    have hleave : skipNestedWithin limit opening closing (depth + 1) false (closing :: rest) =
        skipNestedWithin limit opening closing depth false rest := by
      have hdepth' : depth ≠ 0 := by omega
      rw [skipNestedWithin.eq_def]
      cases hkind <;>
        simp [hdepth', QUOTE, OPEN_BRACE, CLOSE_BRACE, OPEN_BRACKET, CLOSE_BRACKET]
    rw [henter, h (depth + 1) _ (by omega) (by omega), hleave]
  have hother {left right : Byte} (hleft : Passed limit opening closing levels [left])
      (hright : Passed limit opening closing levels [right]) :
      Passed limit opening closing (levels + 1) (left :: text ++ [right]) :=
    ((hleft.append h).append hright).mono (Nat.le_succ _)
  have hbyte {c : Byte} (hne : c ≠ QUOTE ∧ c ≠ opening ∧ c ≠ closing) :
      Passed limit opening closing levels [c] := by
    intro depth rest _ _
    rw [List.singleton_append, skipNestedWithin.eq_def]
    simp [hne]
  cases hkind with
  | braces =>
      cases hown with
      | braces => exact hcounted
      | brackets => exact hother (hbyte (by decide)) (hbyte (by decide))
  | brackets =>
      cases hown with
      | braces => exact hother (hbyte (by decide)) (hbyte (by decide))
      | brackets => exact hcounted

theorem Passed.separated (hkind : Brackets opening closing) {texts : List (List Byte)}
    (h : ∀ t ∈ texts, Passed limit opening closing levels t) :
    Passed limit opening closing levels (commaSeparated texts) := by
  induction texts using JsonText.commaSeparated.induct with
  | case1 => exact .nil
  | case2 t => exact h t (by simp)
  | case3 t next rest ih =>
      have hcomma : Passed limit opening closing levels [COMMA] := .byte hkind rfl
      have hrest := ih fun u hu => h u (List.mem_cons_of_mem _ hu)
      exact (h t (by simp)).append (hcomma.append hrest)

end Passed

/-! ## Values -/

theorem isMark_space (space : Space) : ∀ c ∈ space.text, isMark c = false := by
  intro c hc
  have hblank := space.blank c hc
  simp only [JsonText.isSpace, Bool.or_eq_true, decide_eq_true_eq] at hblank
  rcases hblank with ((rfl | rfl) | rfl) | rfl <;> rfl

/-- Bytes of numbers and literals. -/
def isScalarByte (c : Byte) : Bool :=
  !isMark c && c ≠ COMMA && !isJsonWhitespace c

theorem isScalarByte_digit {c : Byte} (hc : JsonText.isDigit c = true) : isScalarByte c = true := by
  have hne {other : Byte} (hother : JsonText.isDigit other = false) : c ≠ other := by
    rintro rfl
    rw [hother] at hc
    cases hc
  simp [isScalarByte, isMark, isJsonWhitespace, hne (show JsonText.isDigit QUOTE = false from rfl),
    hne (show JsonText.isDigit OPEN_BRACE = false from rfl),
    hne (show JsonText.isDigit CLOSE_BRACE = false from rfl),
    hne (show JsonText.isDigit OPEN_BRACKET = false from rfl),
    hne (show JsonText.isDigit CLOSE_BRACKET = false from rfl),
    hne (show JsonText.isDigit COMMA = false from rfl), hne (show JsonText.isDigit 0x09 = false from rfl),
    hne (show JsonText.isDigit 0x0a = false from rfl), hne (show JsonText.isDigit 0x0d = false from rfl),
    hne (show JsonText.isDigit 0x20 = false from rfl)]

theorem isScalarByte_number (n : Number) : ∀ c ∈ n.text, isScalarByte c = true := by
  intro c hc
  rcases n.mem_text hc with hdigit | hother
  · exact isScalarByte_digit hdigit
  · simp only [List.mem_cons, List.not_mem_nil, or_false] at hother
    rcases hother with rfl | rfl | rfl | rfl | rfl <;> rfl

theorem isScalarByte_literal {text : List Byte} (h : text ∈ literals) :
    ∀ c ∈ text, isScalarByte c = true := by
  intro c hc
  simp only [literals, List.mem_cons, List.not_mem_nil, or_false] at h
  rcases h with rfl | rfl | rfl <;>
    simp only [List.mem_cons, List.not_mem_nil, or_false] at hc
  · rcases hc with rfl | rfl | rfl | rfl <;> rfl
  · rcases hc with rfl | rfl | rfl | rfl | rfl <;> rfl
  · rcases hc with rfl | rfl | rfl | rfl <;> rfl

theorem Passed.scalar {limit : ℕ} {opening closing : Byte} {levels : ℕ} {text : List Byte}
    (hkind : Brackets opening closing) (h : ∀ c ∈ text, isScalarByte c = true) :
    Passed limit opening closing levels text := by
  apply Passed.bytes hkind
  intro c hc
  have hbyte := h c hc
  simp only [isScalarByte, Bool.and_eq_true, Bool.not_eq_true'] at hbyte
  exact hbyte.1.1

section Values

variable {limit : ℕ} {opening closing : Byte} {levels : ℕ}

theorem Passed.space (hkind : Brackets opening closing) (space : Space) :
    Passed limit opening closing levels space.text :=
  .bytes hkind (isMark_space space)

theorem Passed.element (hkind : Brackets opening closing) {e : Element}
    (h : Passed limit opening closing levels e.value) : Passed limit opening closing levels e.text :=
  (Passed.space hkind e.before).append (h.append (.space hkind e.after))

theorem Passed.member (hkind : Brackets opening closing) {m : Member}
    (h : Passed limit opening closing levels m.element.value) : Passed limit opening closing levels m.text := by
  have hcolon : Passed limit opening closing levels [COLON] := .byte hkind rfl
  have hvalue := hcolon.append (Passed.element hkind h)
  have hname : Passed limit opening closing levels (JsonText.quoted m.name) := .string m.string
  exact (Passed.space hkind m.before).append (hname.append ((Passed.space hkind m.between).append
    hvalue))

theorem Passed.elements (hkind : Brackets opening closing) {elements : List Element}
    (h : ∀ e ∈ elements, Passed limit opening closing levels e.value) :
    Passed limit opening closing levels (commaSeparated (elements.map Element.text)) := by
  apply Passed.separated hkind
  intro t ht
  rcases List.mem_map.mp ht with ⟨e, he, rfl⟩
  exact Passed.element hkind (h e he)

theorem Passed.members (hkind : Brackets opening closing) {members : List Member}
    (h : ∀ m ∈ members, Passed limit opening closing levels m.element.value) :
    Passed limit opening closing levels (commaSeparated (members.map Member.text)) := by
  apply Passed.separated hkind
  intro t ht
  rcases List.mem_map.mp ht with ⟨m, hm, rfl⟩
  exact Passed.member hkind (h m hm)

/-- A value leaves the count as it is, and does not raise it by more than its levels. -/
theorem Passed.value (hkind : Brackets opening closing) {depth : ℕ} {value : List Byte}
    (h : IsValue depth value) : Passed limit opening closing depth value := by
  induction h with
  | literal h => exact .scalar hkind (isScalarByte_literal h)
  | number n => exact .scalar hkind (isScalarByte_number n)
  | string h => exact .string h
  | emptyArray space => exact (Passed.space hkind space).enclosed hkind .brackets
  | array elements _ ih => exact (Passed.elements hkind ih).enclosed hkind .brackets
  | emptyObject space => exact (Passed.space hkind space).enclosed hkind .braces
  | object members _ ih => exact (Passed.members hkind ih).enclosed hkind .braces

/-- What is in the brackets of an array or an object. -/
theorem Passed.skipNestedWithin {body : List Byte} (hkind : Brackets opening closing)
    (h : Passed limit opening closing levels body) (hlevels : levels + 1 ≤ limit) (rest : List Byte) :
    skipNestedWithin limit opening closing 1 false (body ++ [closing] ++ rest) = some rest := by
  rw [List.append_assoc, List.singleton_append, h 1 _ le_rfl (by omega),
    JsonCursor.skipNestedWithin.eq_def]
  cases hkind <;> simp [QUOTE, OPEN_BRACE, CLOSE_BRACE, OPEN_BRACKET, CLOSE_BRACKET]

end Values

/-! ## What `skip_value` skips -/

/-- Objects, arrays and strings can be told from the other values by their first byte. -/
def isDelimited (value : List Byte) : Bool :=
  value.head? = some OPEN_BRACE || value.head? = some OPEN_BRACKET || value.head? = some QUOTE

/-- What may follow a value: nothing, or white space and then a comma or a closing
bracket. -/
def EndsValue (rest : List Byte) : Prop :=
  rest = [] ∨ ∃ c behind, skipWs rest = c :: behind ∧ endsScalar c = true

/-- Behind the value, and behind the white space that follows it if it is a number or a
literal. -/
def behindValue (value rest : List Byte) : List Byte :=
  if isDelimited value then rest else skipWs rest

theorem EndsValue.dropWhile {rest : List Byte} (h : EndsValue rest) :
    rest.dropWhile (fun c => !endsScalar c) = skipWs rest := by
  rcases h with rfl | ⟨c, behind, hrest, hc⟩
  · rfl
  · have hsplit := List.takeWhile_append_dropWhile (p := isJsonWhitespace) (l := rest)
    have hdrop : rest.dropWhile isJsonWhitespace = c :: behind := hrest
    rw [hdrop] at hsplit
    have hblank : ∀ d ∈ rest.takeWhile isJsonWhitespace, (!endsScalar d) = true := by
      intro d hd
      have hspace := List.mem_takeWhile_imp hd
      simp only [isJsonWhitespace, Bool.or_eq_true, decide_eq_true_eq] at hspace
      rcases hspace with ((rfl | rfl) | rfl) | rfl <;> rfl
    rw [hrest, ← hsplit, List.dropWhile_append_of_pos hblank,
      List.dropWhile_cons_of_neg (by simp [hc])]

theorem skipWs_cons {c : Byte} {rest : List Byte} (hc : isJsonWhitespace c = false) :
    skipWs (c :: rest) = c :: rest :=
  List.dropWhile_cons_of_neg (by simp [hc])

theorem skipValueWithin_scalar (limit : ℕ) {c : Byte} {value rest : List Byte}
    (h : ∀ d ∈ c :: value, isScalarByte d = true) (hrest : EndsValue rest) :
    skipValueWithin limit (c :: value ++ rest) = some (behindValue (c :: value) rest) := by
  have hbyte {d : Byte} (hd : isScalarByte d = true) : isJsonWhitespace d = false ∧
      endsScalar d = false ∧ d ≠ OPEN_BRACE ∧ d ≠ OPEN_BRACKET ∧ d ≠ QUOTE := by
    simp only [isScalarByte, isMark, Bool.and_eq_true, Bool.not_eq_true', Bool.or_eq_false_iff,
      decide_eq_false_iff_not, decide_eq_true_eq] at hd
    simp [endsScalar, hd]
  have hc := hbyte (h c (by simp))
  have hnot : isDelimited (c :: value) = false := by
    simp [isDelimited, hc]
  have hvalue : ∀ d ∈ c :: value, (!endsScalar d) = true := by
    intro d hd
    rw [(hbyte (h d hd)).2.1]
    rfl
  have hdrop : (c :: value ++ rest).dropWhile (fun d => !endsScalar d) = skipWs rest := by
    rw [List.dropWhile_append_of_pos hvalue, hrest.dropWhile]
  rw [List.cons_append] at hdrop ⊢
  simp only [skipValueWithin, skipWs_cons hc.1, if_neg hc.2.2.1, if_neg hc.2.2.2.1,
    if_neg hc.2.2.2.2, hdrop, behindValue, hnot, Bool.false_eq_true, if_false]

theorem skipValueWithin_array {limit levels : ℕ} {body : List Byte}
    (h : Passed limit OPEN_BRACKET CLOSE_BRACKET levels body) (hlevels : levels + 1 ≤ limit)
    (rest : List Byte) : skipValueWithin limit (arrayText body ++ rest) = some rest := by
  have hbrace : OPEN_BRACKET ≠ OPEN_BRACE := by decide
  have htext : arrayText body ++ rest = OPEN_BRACKET :: (body ++ [CLOSE_BRACKET] ++ rest) := rfl
  rw [htext]
  simp only [skipValueWithin, skipWs_cons (show isJsonWhitespace OPEN_BRACKET = false from rfl),
    if_neg hbrace, if_true]
  exact h.skipNestedWithin .brackets hlevels rest

theorem skipValueWithin_object {limit levels : ℕ} {body : List Byte}
    (h : Passed limit OPEN_BRACE CLOSE_BRACE levels body) (hlevels : levels + 1 ≤ limit)
    (rest : List Byte) : skipValueWithin limit (objectText body ++ rest) = some rest := by
  have htext : objectText body ++ rest = OPEN_BRACE :: (body ++ [CLOSE_BRACE] ++ rest) := rfl
  rw [htext]
  simp only [skipValueWithin, skipWs_cons (show isJsonWhitespace OPEN_BRACE = false from rfl), if_true]
  exact h.skipNestedWithin .braces hlevels rest

/-- A string is read up to its closing quote. -/
theorem scanString_text {text : List Byte} (h : StringText text) (rest : List Byte) :
    scanString (text ++ QUOTE :: rest) = some (text, rest) := by
  have hhex {x : Byte} (hx : (JsonText.hexValue x).isSome = true) : x ≠ QUOTE ∧ x ≠ BACKSLASH := by
    constructor <;> rintro rfl <;> revert hx <;> decide
  induction h with
  | nil => exact scanString_quote rest
  | @plain c text hc _ ih =>
      simp only [JsonText.isPlain, Bool.and_eq_true, decide_eq_true_eq] at hc
      rw [List.cons_append, scanString_byte hc.1.2 hc.2, ih]
      rfl
  | @short e text _ _ ih =>
      have hstep := scanString_escape e (text ++ QUOTE :: rest)
      rw [ih] at hstep
      exact hstep
  | @unicode a b c d text hdigits _ ih =>
      have ha := hhex (hdigits a (by simp))
      have hb := hhex (hdigits b (by simp))
      have hc := hhex (hdigits c (by simp))
      have hd := hhex (hdigits d (by simp))
      have hstep := scanString_escape 0x75 (a :: b :: c :: d :: (text ++ QUOTE :: rest))
      rw [scanString_byte ha.1 ha.2, scanString_byte hb.1 hb.2, scanString_byte hc.1 hc.2,
        scanString_byte hd.1 hd.2, ih] at hstep
      exact hstep

theorem string_quoted {text : List Byte} (h : StringText text) (rest : List Byte) :
    JsonCursor.string (JsonText.quoted text ++ rest) = (some text, rest) := by
  have htext : JsonText.quoted text ++ rest = QUOTE :: (text ++ QUOTE :: rest) := by
    simp [JsonText.quoted, QUOTE, JsonText.QUOTE]
  simp only [JsonCursor.string, htext, skipWs_cons (show isJsonWhitespace QUOTE = false from rfl),
    if_true, scanString_text h]

theorem skipValueWithin_string (limit : ℕ) {text : List Byte} (h : StringText text) (rest : List Byte) :
    skipValueWithin limit (JsonText.quoted text ++ rest) = some rest := by
  have hbrace : QUOTE ≠ OPEN_BRACE := by decide
  have hbracket : QUOTE ≠ OPEN_BRACKET := by decide
  have hstring := string_quoted h rest
  have htext : JsonText.quoted text ++ rest = QUOTE :: (text ++ QUOTE :: rest) := by
    simp [JsonText.quoted, QUOTE, JsonText.QUOTE]
  rw [htext] at hstring ⊢
  simp only [skipValueWithin, skipWs_cons (show isJsonWhitespace QUOTE = false from rfl),
    if_neg hbrace, if_neg hbracket, if_true, hstring]

theorem skipValueWithin_whole {limit depth : ℕ} (hdepth : depth ≤ limit) {value rest : List Byte}
    (hvalue : IsValue depth value) (hrest : EndsValue rest) :
    skipValueWithin limit (value ++ rest) = some (behindValue value rest) := by
  cases hvalue with
  | literal h =>
      cases value with
      | nil => simp [literals] at h
      | cons c value => exact skipValueWithin_scalar limit (isScalarByte_literal h) hrest
  | number n =>
      have hbytes := isScalarByte_number n
      cases htext : n.text with
      | nil => exact absurd htext n.text_ne_nil
      | cons c value =>
          rw [htext] at hbytes
          exact skipValueWithin_scalar limit hbytes hrest
  | string h => exact skipValueWithin_string limit h rest
  | emptyArray space => exact skipValueWithin_array (Passed.space .brackets space) hdepth rest
  | @array depth elements h =>
      have hvalues : ∀ e ∈ elements, Passed limit OPEN_BRACKET CLOSE_BRACKET depth e.value :=
        fun e he => Passed.value .brackets (h e he)
      exact skipValueWithin_array (Passed.elements .brackets hvalues) hdepth rest
  | emptyObject space => exact skipValueWithin_object (Passed.space .braces space) hdepth rest
  | @object depth members h =>
      have hvalues : ∀ m ∈ members, Passed limit OPEN_BRACE CLOSE_BRACE depth m.element.value :=
        fun m hm => Passed.value .braces (h m hm)
      exact skipValueWithin_object (Passed.members .braces hvalues) hdepth rest

theorem skipValue_value {depth : ℕ} {value rest : List Byte} (hvalue : IsValue depth value)
    (hrest : EndsValue rest) : skipValue (value ++ rest) = behindValue value rest :=
  skipValue_of_within (skipValueWithin_whole le_rfl hvalue hrest)

/-- `skip_value` skips exactly one value, whatever is nested in it, and the count of
the levels stays within an `int`. -/
theorem skipValue_whole {depth : ℕ} (hdepth : depth < 2 ^ 31) {value rest : List Byte}
    (hvalue : IsValue depth value) (hrest : EndsValue rest) :
    skipValueWithin INT_MAX (value ++ rest) = some (behindValue value rest) ∧
      skipValue (value ++ rest) = behindValue value rest :=
  ⟨skipValueWithin_whole (Nat.le_pred_of_lt hdepth) hvalue hrest, skipValue_value hvalue hrest⟩

/-- The array of the string `]` and an empty object, then a blank and a comma. -/
theorem skipValue_whole_brackets :
    skipValueWithin INT_MAX ([OPEN_BRACKET, QUOTE, CLOSE_BRACKET, QUOTE, COMMA, OPEN_BRACE, CLOSE_BRACE,
        CLOSE_BRACKET] ++ [0x20, COMMA]) = some [0x20, COMMA] ∧
      skipValue ([OPEN_BRACKET, QUOTE, CLOSE_BRACKET, QUOTE, COMMA, OPEN_BRACE, CLOSE_BRACE,
        CLOSE_BRACKET] ++ [0x20, COMMA]) = [0x20, COMMA] := by
  have hstring : IsValue 1 (JsonText.quoted [CLOSE_BRACKET]) := .string (.plain rfl .nil)
  have hobject : IsValue 1 (objectText []) := .emptyObject .none
  have helements : ∀ e ∈ [(⟨.none, JsonText.quoted [CLOSE_BRACKET], .none⟩ : Element),
      ⟨.none, objectText [], .none⟩], IsValue 1 e.value := by
    intro e he
    simp only [List.mem_cons, List.not_mem_nil, or_false] at he
    rcases he with rfl | rfl
    · exact hstring
    · exact hobject
  have hends : EndsValue [0x20, COMMA] := .inr ⟨COMMA, [], rfl, rfl⟩
  exact skipValue_whole (by norm_num) (.array _ helements) hends

end Serde
end Katana
