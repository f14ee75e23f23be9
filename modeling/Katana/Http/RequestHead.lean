import Katana.Http.Fragmentation
import Katana.Http.HeaderLines

/-!
# How a message is framed

The framing decision is taken at the empty line, from a header map in which a
later line has replaced an earlier one of the same name.  So it depends on the
last Transfer-Encoding line and the last Content-Length line and on no other
line of the head.
-/

namespace Katana
namespace Http

open Library

/-- A request line and header lines; none contains CRLF, and no header line is
empty. -/
structure RequestHead where
  requestLine : List Byte
  headerLines : List (List Byte)
  requestLine_free : findCrlf requestLine = none
  headerLines_free : ∀ line ∈ headerLines, findCrlf line = none ∧ line ≠ []

def RequestHead.render (head : RequestHead) : List Byte :=
  renderLines (head.requestLine :: head.headerLines) ++ CRLF

/-- Name and trimmed value of a header line.  A line that begins with a blank
continues the line before it and has no name. -/
def headerField (line : List Byte) : Option (List Byte × List Byte) :=
  if line.head?.any isOws then none
  else (findByte 58 line).map fun colon => (line.take colon, trimOws (line.drop (colon + 1)))

/-- Value of the last line with the name. -/
def lastValue (name : List Byte) (lines : List (List Byte)) : Option (List Byte) :=
  ((lines.filterMap headerField).filter fun field => ciEqual name field.1).getLast?.map (·.2)

inductive Framing where
  | chunked
  | length (n : ℕ)
  | noBody
  deriving DecidableEq

/-- The framing of a message with these header lines, unless its length is
refused. -/
def framing (lines : List (List Byte)) : Option Framing :=
  if (lastValue (bytesOf "Transfer-Encoding") lines).any
      fun value => ciEqual value (bytesOf "chunked") then
    some .chunked
  else
    match lastValue (bytesOf "Content-Length") lines with
    | none => some .noBody
    | some value =>
        match fromChars 10 value with
        | (some n, []) => if n > MAX_BODY_SIZE then none else some (.length n)
        | _ => none

/-- The parser stands behind the head and reads the message as framed. -/
def Framing.Holds (p : Parser) : Framing → Prop
  | .chunked => p.state = .chunkSize ∧ p.chunkedBodySize = 0
  | .length n => p.state = .body ∧ p.contentLength = n
  | .noBody => p.state = .complete

theorem lastValue_append (name : List Byte) (lines : List (List Byte)) (line : List Byte) :
    lastValue name (lines ++ [line]) =
      match headerField line with
      | none => lastValue name lines
      | some field => if ciEqual name field.1 then some field.2 else lastValue name lines := by
  unfold lastValue
  rw [List.filterMap_append]
  cases hfield : headerField line with
  | none => simp [hfield]
  | some field =>
      by_cases hname : ciEqual name field.1 = true
      · simp [hfield, hname]
      · simp [hfield, hname]

/-- The values of header lines are trimmed. -/
theorem lastValue_trimmed {name value : List Byte} {lines : List (List Byte)}
    (h : lastValue name lines = some value) : ∃ text, value = trimOws text := by
  obtain ⟨⟨n, v⟩, hlast, rfl⟩ := Option.map_eq_some_iff.mp h
  have hmem := List.mem_of_getLast? hlast
  obtain ⟨line, -, hfield⟩ := List.mem_filterMap.mp (List.mem_filter.mp hmem).1
  unfold headerField at hfield
  split at hfield
  · cases hfield
  · obtain ⟨colon, -, heq⟩ := Option.map_eq_some_iff.mp hfield
    cases heq
    exact ⟨_, rfl⟩

namespace Parser

theorem getField_setUnknownBorrowed (f : Field) (memory : List Byte) (name value : View)
    (m : HeadersMap) :
    (m.setUnknownBorrowed memory name value).getField f = m.getField f := by
  unfold HeadersMap.getField
  rw [HeadersMap.known_setUnknownBorrowed]

/-- The header section has been read up to here, and the two framing fields hold
the values of the last lines with their names. -/
structure HeadersRead (done : List (List Byte)) (p : Parser) : Prop where
  state : p.state = .headers
  chunkedBodySize : p.chunkedBodySize = 0
  lastHeader : p.lastHeaderName.isNull = true ∨ p.lastHeaderField = .unknown
  transferEncoding :
    (p.request.headers.getField .transferEncoding).map (·.read p.buffer) =
      lastValue (bytesOf "Transfer-Encoding") done
  contentLength :
    (p.request.headers.getField .contentLength).map (·.read p.buffer) =
      lastValue (bytesOf "Content-Length") done

/-- The value of a known field after one more header line has been stored. -/
theorem getField_storeHeader {p : Parser} {start colon : ℕ} {line text : List Byte} {f : Field}
    {done : List (List Byte)} (hf : f ≠ .unknown)
    (hname : ∀ name, stringToField name = f ↔ ciEqual text name = true)
    (hline : line <+: p.buffer.drop start) (hshort : line.length < 2 ^ 16)
    (hblank : line.head?.any isOws = false) (hcolon : findByte 58 line = some colon)
    (hold : (p.request.headers.getField f).map (·.read p.buffer) = lastValue text done) :
    ((p.storeHeader start line colon).request.headers.getField f).map (·.read p.buffer) =
      lastValue text (done ++ [line]) := by
  have hfield : headerField line =
      some (line.take colon, trimOws (line.drop (colon + 1))) := by
    simp [headerField, hblank, hcolon]
  have hlast := lastValue_append text done line
  rw [hfield] at hlast
  dsimp only at hlast
  rw [hlast]
  have hvalue := headerValue_read hline (findByte_lt hcolon) hshort
  unfold storeHeader
  dsimp only
  by_cases hsame : stringToField (line.take colon) = f
  · rw [if_pos ((hname _).mp hsame), hsame, if_neg hf,
      HeadersMap.getField_setKnownBorrowed_self hf, Option.map_some, hvalue]
  · rw [if_neg fun h => hsame ((hname _).mpr h)]
    split
    · rw [getField_setUnknownBorrowed]
      exact hold
    · rw [HeadersMap.getField_setKnownBorrowed_other (Ne.symm hsame)]
      exact hold

/-- One header line: refused, or read with its effect on the framing fields. -/
theorem HeadersRead.line {done : List (List Byte)} {p : Parser} (h : HeadersRead done p)
    {line rest : List Byte} (hunparsed : p.unparsed = line ++ CRLF ++ rest)
    (hfree : findCrlf line = none) (hne : line ≠ []) (hshort : line.length < 2 ^ 16) :
    (∃ q e, p.parsePass = .done (q, .error e) ∧ q.state = .headers) ∨
      ∃ q, p.parsePass = .again q ∧ HeadersRead (done ++ [line]) q ∧ q.unparsed = rest ∧
        q.parsePos = p.parsePos + line.length + 2 := by
  have hnext : p.nextState = p.parseHeadersState := by
    unfold nextState
    rw [h.state]
  have hcall := withLine_line true .headers useHeaderLine
    hunparsed hfree
  have hnot : p.state ≠ .complete := by
    simp [h.state]
  have hrest : ({ p with parsePos := p.parsePos + line.length + 2 } : Parser).unparsed = rest := by
    have hpos := unparsed_withPos hunparsed
    rwa [List.length_append, crlf_length, ← Nat.add_assoc] at hpos
  have hprefix : line <+: p.buffer.drop p.parsePos := by
    have hfront : p.unparsed <+: p.buffer.drop p.parsePos := by
      unfold unparsed bytes
      rw [List.drop_take]
      exact List.take_prefix _ _
    have hhere : line <+: p.unparsed := by
      rw [hunparsed, List.append_assoc]
      exact List.prefix_append _ _
    exact hhere.trans hfront
  have hfailed : ∀ q : Parser, p.nextState = q.fail → q.state = .headers →
      ∃ q e, p.parsePass = .done (q, .error e) ∧ q.state = .headers :=
    fun q heq hq => ⟨q, .invalidFd, parsePass_of_error hnot heq, hq⟩
  have hagain : ∀ q : Parser, p.nextState = (q, .ok .headers) →
      q.parsePos = p.parsePos + line.length + 2 →
      p.parsePass = .again { q with state := .headers } :=
    fun q heq hpos => parsePass_of_ok hnot heq (.inl (by omega))
  by_cases hinvalid : hasInvalidByte (p.byteBefore p.parsePos) (line ++ [CR]) = true
  · left
    refine hfailed p ?_ h.state
    rw [hnext, parseHeadersState, hcall, hinvalid]
    rfl
  rw [Bool.not_eq_true] at hinvalid
  have huse : p.nextState = useHeaderLine p.parsePos line
      { p with parsePos := p.parsePos + line.length + 2 } := by
    rw [hnext, parseHeadersState, hcall, hinvalid]
    rfl
  unfold useHeaderLine at huse
  rw [if_neg hne] at huse
  by_cases hblank : line.head?.any isOws = true
  · -- a continuation line changes no known field
    rw [if_pos hblank] at huse
    have hfield : headerField line = none := by
      simp [headerField, hblank]
    unfold foldHeader at huse
    split at huse
    · exact .inl (hfailed _ huse h.state)
    next hnull =>
    have hunknown : p.lastHeaderField = .unknown := h.lastHeader.resolve_left hnull
    split at huse
    · exact .inl (hfailed _ huse h.state)
    next current _ =>
    dsimp only at huse
    split at huse
    · exact .inl (hfailed _ huse h.state)
    right
    refine ⟨_, hagain _ huse rfl, ⟨rfl, h.chunkedBodySize, h.lastHeader, ?_, ?_⟩, hrest, rfl⟩
    · rw [lastValue_append, hfield]
      refine Eq.trans ?_ h.transferEncoding
      unfold setLastHeader
      dsimp only
      rw [if_neg (not_not.mpr hunknown), getField_setUnknownBorrowed]
    · rw [lastValue_append, hfield]
      refine Eq.trans ?_ h.contentLength
      unfold setLastHeader
      dsimp only
      rw [if_neg (not_not.mpr hunknown), getField_setUnknownBorrowed]
  · rw [Bool.not_eq_true] at hblank
    rw [hblank, if_neg Bool.false_ne_true] at huse
    rcases processHeaderLine_cases p.parsePos line
        { p with parsePos := p.parsePos + line.length + 2 } with hfail | ⟨colon, haccepted⟩
    · left
      rw [hfail] at huse
      exact hfailed _ huse h.state
    · right
      obtain ⟨length, hstored⟩ := processHeaderLine_accepted p.parsePos haccepted
      rw [hstored] at huse
      refine ⟨_, hagain _ huse rfl, ⟨rfl, h.chunkedBodySize, ?_, ?_, ?_⟩, hrest, rfl⟩
      · show (if stringToField (line.take colon) = .unknown then
          View.buffer p.parsePos colon else .null).isNull = true ∨
            stringToField (line.take colon) = .unknown
        by_cases hunknown : stringToField (line.take colon) = .unknown
        · exact .inr hunknown
        · rw [if_neg hunknown]
          exact .inl rfl
      · exact getField_storeHeader (f := .transferEncoding)
          (p := { p with parsePos := p.parsePos + line.length + 2 }) (by simp)
          (fun _ => stringToField_eq_transferEncoding) hprefix hshort hblank
          haccepted.found h.transferEncoding
      · exact getField_storeHeader (f := .contentLength)
          (p := { p with parsePos := p.parsePos + line.length + 2 }) (by simp)
          (fun _ => stringToField_eq_contentLength) hprefix hshort hblank
          haccepted.found h.contentLength

/-- All header lines, by induction from one. -/
theorem HeadersRead.lines {lines done : List (List Byte)} {p : Parser} (h : HeadersRead done p)
    {rest : List Byte} (hunparsed : p.unparsed = renderLines lines ++ rest)
    (hlines : ∀ line ∈ lines, findCrlf line = none ∧ line ≠ [])
    (hshort : (renderLines lines).length < 2 ^ 16) :
    (∃ q e, EndsWith parsePass p (q, .error e) ∧ q.state = .headers) ∨
      ∃ q, Passes parsePass p q ∧ HeadersRead (done ++ lines) q ∧ q.unparsed = rest ∧
        q.parsePos = p.parsePos + (renderLines lines).length := by
  induction lines generalizing done p with
  | nil =>
      right
      refine ⟨p, .refl p, by rwa [List.append_nil], ?_, by simp⟩
      simpa using hunparsed
  | cons line lines ih =>
      rw [renderLines_cons] at hunparsed hshort
      simp only [List.length_append, crlf_length] at hshort
      obtain ⟨hfree, hne⟩ := hlines line (by simp)
      rw [List.append_assoc] at hunparsed
      rcases h.line hunparsed hfree hne (by omega) with
        ⟨q, e, hdone, hstate⟩ | ⟨q, hpass, hq, hrest, hpos⟩
      · exact .inl ⟨q, e, .of_done hdone, hstate⟩
      · rcases ih hq hrest (fun l hl => hlines l (by simp [hl])) (by omega) with
          ⟨q', e, hend, hstate⟩ | ⟨q', hpasses, hq', hrest', hpos'⟩
        · exact .inl ⟨q', e, .of_passes (.head hpass (.refl q)) hend, hstate⟩
        · refine .inr ⟨q', .head hpass hpasses, ?_, hrest', ?_⟩
          · rwa [List.append_assoc] at hq'
          · rw [renderLines_cons]
            simp only [List.length_append, crlf_length]
            omega

/-- The empty line: refused, or the message is framed. -/
theorem HeadersRead.finish {lines : List (List Byte)} {p : Parser} (h : HeadersRead lines p)
    {rest : List Byte} (hunparsed : p.unparsed = CRLF ++ rest) :
    (framing lines = none ∧ ∃ q e, p.parsePass = .done (q, .error e) ∧ q.state = .headers) ∨
      ∃ f q, framing lines = some f ∧ p.parsePass = .again q ∧ f.Holds q ∧
        q.unparsed = rest ∧ q.parsePos = p.parsePos + 2 ∧ q.request = p.request ∧
        q.buffer = p.buffer := by
  have hempty : p.unparsed = [] ++ CRLF ++ rest := hunparsed
  have hcall := withLine_line true .headers useHeaderLine hempty rfl
  have hnext : p.nextState = p.parseHeadersState := by
    unfold nextState
    rw [h.state]
  have hnot : p.state ≠ .complete := by
    rw [h.state]
    nofun
  have hrest : ({ p with parsePos := p.parsePos + 2 } : Parser).unparsed = rest :=
    unparsed_withPos hunparsed
  have hfailed : ∀ q : Parser, p.nextState = q.fail → q.state = .headers →
      ∃ q e, p.parsePass = .done (q, .error e) ∧ q.state = .headers :=
    fun q heq hq => ⟨q, .invalidFd, parsePass_of_error hnot heq, hq⟩
  have hagain : ∀ (q : Parser) state, p.nextState = (q, .ok state) →
      q.parsePos = p.parsePos + 2 → p.parsePass = .again { q with state } :=
    fun q state heq hpos => parsePass_of_ok hnot heq (.inl (by omega))
  have hinvalid : hasInvalidByte (p.byteBefore p.parsePos) ([] ++ [CR]) = false :=
    hasInvalidByte_textLine rfl _
  have huse : p.nextState = endHeaders { p with parsePos := p.parsePos + 2 } := by
    rw [hnext, parseHeadersState, hcall, hinvalid]
    rfl
  have hte : (((({ p with parsePos := p.parsePos + 2 } : Parser)).request.headers.getField
      .transferEncoding).map (·.read p.buffer)) = _ := h.transferEncoding
  have hcl := h.contentLength
  unfold endHeaders at huse
  dsimp only at huse
  rw [h.transferEncoding] at huse
  unfold framing
  split at huse
  next hchunked =>
    rw [if_pos hchunked]
    exact .inr ⟨.chunked, _, rfl, hagain _ _ huse rfl, ⟨rfl, h.chunkedBodySize⟩, hrest, rfl,
      rfl, rfl⟩
  next hchunked =>
  rw [if_neg hchunked, ← hcl]
  cases hfound : p.request.headers.getField .contentLength with
  | none =>
      rw [hfound] at huse
      exact .inr ⟨.noBody, _, rfl, hagain _ _ huse rfl, rfl, hrest, rfl, rfl, rfl⟩
  | some value =>
      rw [hfound] at huse
      dsimp only at huse
      have htrim : (value.read p.buffer).rdropWhile isOws = value.read p.buffer := by
        rw [hfound, Option.map_some] at hcl
        obtain ⟨line, hline⟩ := lastValue_trimmed hcl.symm
        rw [hline, rdropWhile_trimOws]
      rw [htrim] at huse
      rw [Option.map_some]
      dsimp only
      have hrejected (huse : p.nextState = ({ p with parsePos := p.parsePos + 2 } : Parser).fail) :
          ∃ q e, p.parsePass = .done (q, .error e) ∧ q.state = .headers :=
        hfailed _ huse h.state
      rcases hval : fromChars 10 (value.read p.buffer) with ⟨_ | val, _ | ⟨c, unread⟩⟩
      · rw [hval] at huse
        exact .inl ⟨rfl, hrejected huse⟩
      · rw [hval] at huse
        exact .inl ⟨rfl, hrejected huse⟩
      · rw [hval] at huse
        dsimp only at huse ⊢
        split at huse
        next hgt => exact .inl ⟨if_pos hgt, hrejected huse⟩
        next hle =>
          rw [if_neg hle]
          exact .inr ⟨.length val, _, rfl, hagain _ _ huse rfl, ⟨rfl, rfl⟩, hrest, rfl, rfl, rfl⟩
      · rw [hval] at huse
        exact .inl ⟨rfl, hrejected huse⟩

theorem processRequestLine_request (start : ℕ) (line : List Byte) (p : Parser) :
    ∃ httpMethod uri, (p.processRequestLine start line).1 =
      { p with request := { p.request with httpMethod, uri } } := by
  unfold processRequestLine
  split
  · exact ⟨_, _, rfl⟩
  split
  · exact ⟨_, _, rfl⟩
  dsimp only
  split
  · exact ⟨_, _, rfl⟩
  split
  · exact ⟨_, _, rfl⟩
  split
  · exact ⟨_, _, rfl⟩
  split
  · exact ⟨_, _, rfl⟩
  split
  · exact ⟨_, _, rfl⟩
  · exact ⟨_, _, rfl⟩

/-- The request line: refused, or the header section begins with nothing read. -/
theorem Ready.requestLine {input : List Byte} {p : Parser} (h : Ready input p)
    {line rest : List Byte} (hinput : input = line ++ CRLF ++ rest)
    (hfree : findCrlf line = none) :
    (∃ q e, p.parsePass = .done (q, .error e) ∧ q.state = .requestLine) ∨
      ∃ q, p.parsePass = .again q ∧ HeadersRead [] q ∧ q.unparsed = rest ∧
        q.parsePos = line.length + 2 := by
  have hfields : p.state = .requestLine ∧ p.parsePos = 0 ∧ p.request.headers = {} ∧
      p.lastHeaderName = .null ∧ p.chunkedBodySize = 0 := by
    rw [h.same]
    exact ⟨rfl, rfl, rfl, rfl, rfl⟩
  obtain ⟨hstate, hpos, hheaders, hlast, hbody⟩ := hfields
  have hunparsed : p.unparsed = line ++ CRLF ++ rest := by
    rw [unparsed, hpos, List.drop_zero, h.bytes, hinput]
  have hcall := withLine_line true .requestLine useRequestLine
    hunparsed hfree
  have hnext : p.nextState = p.parseRequestLineState := by
    unfold nextState
    rw [hstate]
  have hnot : p.state ≠ .complete := by
    simp [hstate]
  have hrest : ({ p with parsePos := p.parsePos + line.length + 2 } : Parser).unparsed = rest := by
    have hmoved := unparsed_withPos hunparsed
    rwa [List.length_append, crlf_length, ← Nat.add_assoc] at hmoved
  by_cases hinvalid : hasInvalidByte (p.byteBefore p.parsePos) (line ++ [CR]) = true
  · left
    refine ⟨p, .invalidFd, parsePass_of_error hnot ?_, hstate⟩
    rw [hnext, parseRequestLineState, hcall, hinvalid]
    rfl
  rw [Bool.not_eq_true] at hinvalid
  have huse : p.nextState = useRequestLine p.parsePos line
      { p with parsePos := p.parsePos + line.length + 2 } := by
    rw [hnext, parseRequestLineState, hcall, hinvalid]
    rfl
  obtain ⟨httpMethod, uri, hrequest⟩ := processRequestLine_request p.parsePos line
    { p with parsePos := p.parsePos + line.length + 2 }
  unfold useRequestLine at huse
  rcases hresult : processRequestLine p.parsePos line
      { p with parsePos := p.parsePos + line.length + 2 } with ⟨q, e | _⟩
  · rw [hresult] at huse hrequest
    refine .inl ⟨q, e, parsePass_of_error hnot huse, ?_⟩
    rw [show q = _ from hrequest]
    exact hstate
  · rw [hresult] at huse hrequest
    right
    have hq : q = _ := hrequest
    refine ⟨_, parsePass_of_ok hnot huse (.inl ?_), ⟨rfl, ?_, ?_, ?_, ?_⟩, ?_, ?_⟩
    · rw [hq]
      dsimp only
      omega
    · rw [hq]
      exact hbody
    · left
      rw [hq]
      show p.lastHeaderName.isNull = true
      rw [hlast]
      rfl
    · rw [hq]
      show (p.request.headers.getField .transferEncoding).map _ = _
      rw [hheaders]
      rfl
    · rw [hq]
      show (p.request.headers.getField .contentLength).map _ = _
      rw [hheaders]
      rfl
    · rw [hq]
      exact hrest
    · rw [hq]
      show p.parsePos + line.length + 2 = line.length + 2
      omega

theorem render_length_le {head : RequestHead} {rest : List Byte}
    (h : headChecked (head.render ++ rest) = true) : head.render.length ≤ MAX_HEADER_SIZE := by
  have hend := findHeaderTerminator_lines head.requestLine_free head.headerLines_free rest
  unfold headChecked at h
  rw [show findHeaderTerminator (head.render ++ rest) 0 = head.render.length from hend] at h
  have hpos : head.render.length ≠ 0 := by
    simp [RequestHead.render, crlf_length]
  dsimp only at h
  rw [if_pos hpos, Bool.and_eq_true, decide_eq_true_eq] at h
  exact h.2

/-- The passes over a head: one of them refuses it in the header section, or the
parser stands behind it and has framed the message. -/
theorem Ready.framed {head : RequestHead} {rest : List Byte} {p : Parser}
    (h : Ready (head.render ++ rest) p) (hshort : head.render.length < 2 ^ 16) :
    (∃ q e, EndsWith parsePass p (q, .error e) ∧ q.inHeaderSection = true) ∨
      ∃ f q, framing head.headerLines = some f ∧ Passes parsePass p q ∧ f.Holds q ∧
        q.unparsed = rest ∧ q.parsePos = head.render.length := by
  have hrender : head.render.length =
      head.requestLine.length + 2 + (renderLines head.headerLines).length + 2 := by
    unfold RequestHead.render
    rw [renderLines_cons]
    simp only [List.length_append, crlf_length]
  have hinput : head.render ++ rest =
      head.requestLine ++ CRLF ++ (renderLines head.headerLines ++ (CRLF ++ rest)) := by
    unfold RequestHead.render
    rw [renderLines_cons]
    simp only [List.append_assoc]
  rcases h.requestLine hinput head.requestLine_free with
    ⟨q, e, hdone, hstate⟩ | ⟨q, hpass, hread, hunparsed, hpos⟩
  · exact .inl ⟨q, e, .of_done hdone, by simp [inHeaderSection, hstate]⟩
  rcases hread.lines hunparsed head.headerLines_free (by omega) with
    ⟨q', e, hend, hstate⟩ | ⟨q', hpasses, hread', hunparsed', hpos'⟩
  · exact .inl ⟨q', e, .of_passes (.head hpass (.refl q)) hend,
      by simp [inHeaderSection, hstate]⟩
  have hpasses' : Passes parsePass p q' := .head hpass hpasses
  rcases hread'.finish hunparsed' with
    ⟨-, r, e, hdone, hstate⟩ | ⟨f, r, hframing, hpass', hholds, hrest, hpos'', -, -⟩
  · exact .inl ⟨r, e, .of_passes hpasses' (.of_done hdone), by simp [inHeaderSection, hstate]⟩
  · right
    refine ⟨f, r, hframing, hpasses'.trans (.head hpass' (.refl r)), hholds, hrest, ?_⟩
    omega

end Parser

end Http
end Katana
