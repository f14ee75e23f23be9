import Katana.Http.MoreInput
import Katana.Http.Lines

/-!
# Header lines

What a header line stores: its trimmed value, under the field that its name
denotes or under the name itself.  The short cuts of `process_header_line` for
Host and Content-Length store what the lookup of the name would.
-/

namespace Katana
namespace Http

open Library

/-! ## Names and values -/

theorem isInvalidHeaderChar_facts : ∀ c : Byte, isInvalidHeaderChar c = false →
    c ≠ CR ∧ c ≠ LF ∧ (c = 0 || 0x80 ≤ c) = false := by
  apply byte_forall
  decide +kernel

theorem findCrlf_append {front rest : List Byte} (hfront : CR ∉ front)
    (hrest : findCrlf rest = none) : findCrlf (front ++ rest) = none := by
  induction front with
  | nil => exact hrest
  | cons c front ih =>
      have hc : CR ≠ c := by
        intro heq
        exact hfront (by simp [heq])
      have hstart : CRLF.isPrefixOf (c :: (front ++ rest)) = false := by
        simp [CRLF, List.isPrefixOf, hc]
      rw [findCrlf] at ih ⊢
      rw [List.cons_append, firstIndex, hstart, if_neg Bool.false_ne_true,
        ih fun hmem => hfront (List.mem_cons_of_mem c hmem), Option.map_none]

/-! ## Text without control characters -/

section HeaderText

variable {text : List Byte}

theorem headerText_iff :
    containsInvalidHeaderValue text = false ↔ ∀ c ∈ text, isInvalidHeaderChar c = false := by
  simp [containsInvalidHeaderValue]

/-- It passes the byte check wherever it stands. -/
theorem hasInvalidByte_text (htext : containsInvalidHeaderValue text = false)
    (previous : Option Byte) : hasInvalidByte previous text = false := by
  rw [headerText_iff] at htext
  induction text generalizing previous with
  | nil => rfl
  | cons c text ih =>
      obtain ⟨-, hline, hrange⟩ := isInvalidHeaderChar_facts c (htext c (by simp))
      rw [hasInvalidByte, hrange, decide_eq_false hline, Bool.false_and, Bool.false_or,
        Bool.false_or]
      exact ih (fun d hd => htext d (List.mem_cons_of_mem c hd)) (some c)

theorem hasInvalidByte_textLine (htext : containsInvalidHeaderValue text = false)
    (previous : Option Byte) : hasInvalidByte previous (text ++ [CR]) = false := by
  rw [hasInvalidByte_append, hasInvalidByte_text htext]
  rfl

theorem hasInvalidByte_textLines {lines : List (List Byte)}
    (hlines : ∀ line ∈ lines, containsInvalidHeaderValue line = false) (previous : Option Byte) :
    hasInvalidByte previous (renderLines lines ++ CRLF) = false := by
  induction lines generalizing previous with
  | nil => rfl
  | cons line lines ih =>
      have hrest := ih fun l hl => hlines l (List.mem_cons_of_mem line hl)
      rw [renderLines_cons, List.append_assoc, List.append_assoc, hasInvalidByte_append,
        hasInvalidByte_text (hlines line (by simp)), hasInvalidByte_append, hrest]
      rfl

theorem trimOws_text (htext : containsInvalidHeaderValue text = false) :
    containsInvalidHeaderValue (trimOws text) = false := by
  rw [headerText_iff] at htext ⊢
  intro c hc
  have hfront : c ∈ text.dropWhile isOws := (List.rdropWhile_prefix isOws _).subset hc
  exact htext c ((List.dropWhile_suffix isOws).subset hfront)

theorem findCrlf_text (htext : containsInvalidHeaderValue text = false) : findCrlf text = none := by
  have hfree : CR ∉ text := by
    intro hmem
    exact (isInvalidHeaderChar_facts CR (headerText_iff.mp htext CR hmem)).1 rfl
  rw [← List.append_nil text]
  exact findCrlf_append hfree rfl

end HeaderText

theorem findByte_append {c : Byte} {front : List Byte} (hfront : c ∉ front) (rest : List Byte) :
    findByte c (front ++ c :: rest) = some front.length := by
  rw [findByte, List.findIdx?_eq_some_iff_getElem]
  refine ⟨by simp, by simp, ?_⟩
  intro j hj
  rw [List.getElem_append_left hj]
  simp only [decide_eq_true_eq]
  rintro rfl
  exact hfront (List.getElem_mem hj)

theorem findByte_eq_none {c : Byte} {bytes : List Byte} :
    findByte c bytes = none ↔ c ∉ bytes := by
  rw [findByte, List.findIdx?_eq_none_iff]
  constructor
  · intro h hc
    simpa using h c hc
  · intro h x hx
    simp only [decide_eq_false_iff_not]
    rintro rfl
    exact h hx

theorem findByte_split {c : Byte} {bytes : List Byte} {i : ℕ} (h : findByte c bytes = some i) :
    bytes = bytes.take i ++ c :: bytes.drop (i + 1) := by
  rw [findByte, List.findIdx?_eq_some_iff_getElem] at h
  obtain ⟨hi, hat, -⟩ := h
  have hc : bytes[i] = c := by simpa using hat
  conv_lhs => rw [← List.take_append_drop i bytes, List.drop_eq_getElem_cons hi, hc]

theorem trimOws_read {value : List Byte} :
    (value.drop (value.takeWhile isOws).length).take (trimOws value).length = trimOws value := by
  have hdrop : value.drop (value.takeWhile isOws).length = value.dropWhile isOws := by
    have hsplit := List.takeWhile_append_dropWhile (p := isOws) (l := value)
    have hcut := congrArg (List.drop (value.takeWhile isOws).length) hsplit
    rw [List.drop_left] at hcut
    exact hcut.symm
  rw [hdrop]
  exact (List.prefix_iff_eq_take.mp (List.rdropWhile_prefix isOws _)).symm

theorem rdropWhile_trimOws (value : List Byte) :
    (trimOws value).rdropWhile isOws = trimOws value := by
  unfold trimOws
  rw [List.rdropWhile_idempotent]

theorem trimOws_trimOws (value : List Byte) : trimOws (trimOws value) = trimOws value := by
  have hfront : (trimOws value).dropWhile isOws = trimOws value := by
    cases htext : trimOws value with
    | nil => rfl
    | cons c text =>
        obtain ⟨rest, hrest⟩ : c :: text <+: value.dropWhile isOws := by
          rw [← htext]
          exact List.rdropWhile_prefix isOws _
        have hfirst := List.head?_dropWhile_not isOws value
        rw [← hrest] at hfirst
        exact List.dropWhile_cons_of_neg (by simpa using hfirst)
  rw [trimOws, hfront, rdropWhile_trimOws]

namespace Parser

/-- The view stored for a header line shows its trimmed value. -/
theorem headerValue_read {memory line : List Byte} {start colon : ℕ}
    (hline : line <+: memory.drop start) (hcolon : colon < line.length)
    (hshort : line.length < 2 ^ 16) :
    (View.buffer (start + (headerValueRange line colon).1)
      (headerValueRange line colon).2).truncate16.read memory =
        trimOws (line.drop (colon + 1)) := by
  have htrim := trimOws_length_le (line.drop (colon + 1))
  rw [List.length_drop] at htrim
  obtain ⟨rest, hrest⟩ := hline
  unfold headerValueRange View.truncate16
  dsimp only
  have hmemory : memory.drop
      (start + (colon + 1 + ((line.drop (colon + 1)).takeWhile isOws).length)) =
        (line.drop (colon + 1)).drop ((line.drop (colon + 1)).takeWhile isOws).length ++
          rest := by
    rw [← List.drop_drop, ← hrest, ← List.drop_drop, List.drop_append_of_le_length (by omega),
      List.drop_append_of_le_length (by
        rw [List.length_drop]
        omega)]
  rw [Nat.mod_eq_of_lt (by omega), View.read_buffer, hmemory,
    List.take_append_of_le_length (by
      rw [List.length_drop, List.length_drop]
      omega)]
  exact trimOws_read

theorem headerName_read {memory line : List Byte} {start colon : ℕ}
    (hline : line <+: memory.drop start) (hcolon : colon < line.length) :
    (View.buffer start colon).read memory = line.take colon := by
  obtain ⟨rest, hrest⟩ := hline
  rw [View.read_buffer, ← hrest, List.take_append_of_le_length (by omega)]

/-- A header line that `process_header_line` takes. -/
structure HeaderAccepted (line : List Byte) (colon : ℕ) (p : Parser) : Prop where
  count : p.headerCount < MAX_HEADER_COUNT
  found : findByte 58 line = some colon
  name : line.take colon ≠ []
  token : (line.take colon).all isTokenChar = true
  value : containsInvalidHeaderValue (trimOws (line.drop (colon + 1))) = false

/-- The value stored under the field of the name, or under the name. -/
def storeHeader (start : ℕ) (line : List Byte) (colon : ℕ) (p : Parser) : Parser :=
  let f := stringToField (line.take colon)
  let value := View.buffer (start + (headerValueRange line colon).1)
    (headerValueRange line colon).2
  { p with
    request :=
      { p.request with
        headers :=
          if f = .unknown then
            p.request.headers.setUnknownBorrowed p.buffer (.buffer start colon) value
          else p.request.headers.setKnownBorrowed f value }
    lastHeaderField := f
    lastHeaderName := if f = .unknown then .buffer start colon else .null
    headerCount := p.headerCount + 1 }

theorem processHeaderLine_accepted (start : ℕ) {line : List Byte} {colon : ℕ} {p : Parser}
    (h : p.HeaderAccepted line colon) :
    ∃ length, p.processHeaderLine start line =
      ({ p.storeHeader start line colon with contentLength := length }, .ok ()) := by
  unfold processHeaderLine
  rw [if_neg (Nat.not_le.mpr h.count), h.found]
  dsimp only
  rw [if_neg h.name, if_neg (by simp [h.token]), if_neg (by simp [h.value])]
  split
  next hhost =>
    simp only [Bool.and_eq_true] at hhost
    have hfield := (stringToField_eq_host).mpr (ciEqual_symm hhost.2)
    refine ⟨p.contentLength, ?_⟩
    unfold storeHeader
    simp only [hfield, reduceCtorEq, if_false]
    rfl
  split
  next hlength =>
    simp only [Bool.and_eq_true] at hlength
    have hfield := (stringToField_eq_contentLength).mpr (ciEqual_symm hlength.2)
    obtain ⟨length, hnote⟩ := noteContentLength_eq
      (trimOws (line.drop (colon + 1)))
      (({ p with lastHeaderField := .unknown, lastHeaderName := .null } : Parser).storeKnown
        .contentLength (.buffer (start + (headerValueRange line colon).1)
          (headerValueRange line colon).2))
    refine ⟨length, ?_⟩
    rw [hnote]
    unfold storeHeader
    simp only [hfield, reduceCtorEq, if_false]
    rfl
  split
  next hknown =>
    refine ⟨p.contentLength, ?_⟩
    unfold storeHeader
    simp only [hknown, if_false]
    rfl
  next hunknown =>
    rw [ne_eq, not_not] at hunknown
    refine ⟨p.contentLength, ?_⟩
    unfold storeHeader
    simp only [hunknown, if_true]
    rfl

theorem processHeaderLine_cases (start : ℕ) (line : List Byte) (p : Parser) :
    p.processHeaderLine start line = p.fail ∨ ∃ colon, p.HeaderAccepted line colon := by
  by_cases hcount : p.headerCount ≥ MAX_HEADER_COUNT
  · left
    unfold processHeaderLine
    rw [if_pos hcount]
  cases hcolon : findByte 58 line with
  | none =>
      left
      unfold processHeaderLine
      rw [if_neg hcount, hcolon]
  | some colon =>
      by_cases hname : line.take colon = []
      · left
        unfold processHeaderLine
        rw [if_neg hcount, hcolon]
        dsimp only
        rw [if_pos hname]
      by_cases htoken : (line.take colon).all isTokenChar = true
      · by_cases hvalue : containsInvalidHeaderValue (trimOws (line.drop (colon + 1))) = true
        · left
          unfold processHeaderLine
          rw [if_neg hcount, hcolon]
          dsimp only
          rw [if_neg hname, if_neg (by simp [htoken]), if_pos hvalue]
        · exact .inr ⟨colon, Nat.lt_of_not_le hcount, hcolon, hname, htoken, by simpa using hvalue⟩
      · left
        unfold processHeaderLine
        rw [if_neg hcount, hcolon]
        dsimp only
        rw [if_neg hname, if_pos (by simpa using htoken)]

/-! ## Looking a header up -/

/-- The entry of an unknown header is found under the name of its line. -/
theorem hasName_headerName {memory line : List Byte} {start colon : ℕ} (value : View)
    (hline : line <+: memory.drop start) (hcolon : colon < line.length)
    (hshort : line.length < 2 ^ 16) :
    HeadersMap.hasName memory ((View.buffer start colon).read memory)
      { name := (View.buffer start colon).truncate16, value := value.truncate16 } = true := by
  have htruncated : (View.buffer start colon).truncate16 = .buffer start colon := by
    rw [View.truncate16, Nat.mod_eq_of_lt (by omega)]
  apply HeadersMap.hasName_self
  · exact Bool.false_ne_true
  · rw [htruncated]
  · rw [htruncated, headerName_read hline hcolon, List.length_take, Nat.min_eq_left hcolon.le]
    rfl

theorem get_storeHeader_self {p : Parser} {start colon : ℕ} {line : List Byte}
    (hline : line <+: p.buffer.drop start) (hfound : findByte 58 line = some colon)
    (hshort : line.length < 2 ^ 16) :
    ((p.storeHeader start line colon).request.headers.get p.buffer (line.take colon)).map
      (·.read p.buffer) = some (trimOws (line.drop (colon + 1))) := by
  have hcolon := findByte_lt hfound
  have hvalue := headerValue_read hline hcolon hshort
  unfold storeHeader HeadersMap.get
  dsimp only
  by_cases hknown : stringToField (line.take colon) = .unknown
  · have hget := HeadersMap.getUnknown_setUnknownBorrowed_self p.request.headers
      (hasName_headerName (.buffer (start + (headerValueRange line colon).1)
        (headerValueRange line colon).2) hline hcolon hshort)
    rw [headerName_read hline hcolon] at hget
    rw [if_pos hknown, if_pos hknown, hget, Option.map_some, hvalue]
  · rw [if_neg hknown, if_neg hknown, HeadersMap.getField_setKnownBorrowed_self hknown,
      Option.map_some, hvalue]

theorem get_storeHeader_other {p : Parser} {start colon : ℕ} {line name : List Byte}
    (hline : line <+: p.buffer.drop start) (hfound : findByte 58 line = some colon)
    (hshort : line.length < 2 ^ 16) (hother : ciEqual (line.take colon) name = false) :
    (p.storeHeader start line colon).request.headers.get p.buffer name =
      p.request.headers.get p.buffer name := by
  have hcolon := findByte_lt hfound
  have hread := headerName_read hline hcolon
  unfold storeHeader HeadersMap.get
  dsimp only
  by_cases hknown : stringToField (line.take colon) = .unknown
  · rw [if_pos hknown]
    have hget := HeadersMap.getUnknown_setUnknownBorrowed_other p.request.headers
      (hread ▸ hother) (hasName_headerName (.buffer (start + (headerValueRange line colon).1)
        (headerValueRange line colon).2) hline hcolon hshort)
    rw [hget]
    unfold HeadersMap.getField
    rw [HeadersMap.known_setUnknownBorrowed]
  · have hfields : stringToField name ≠ stringToField (line.take colon) := by
      intro heq
      rw [ciEqual_of_stringToField heq.symm hknown] at hother
      cases hother
    rw [if_neg hknown, HeadersMap.getField_setKnownBorrowed_other hfields]
    unfold HeadersMap.getUnknown
    rw [HeadersMap.unknown_setKnownBorrowed]

end Parser

end Http
end Katana
