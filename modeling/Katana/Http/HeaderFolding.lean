import Katana.Http.FieldLookup
import Katana.Http.RoundTrip

/-!
# Folded header lines

A header may be continued on lines that begin with a blank.  The parser finds
the header to be continued by `last_header_name_`, and the lines of a field that
it knows leave this name null.  So a continuation is taken exactly behind a
header with a name that is not in the table.
-/

namespace Katana
namespace Http

open Library

/-- A header line and the lines that continue it. -/
structure FieldBlock where
  name : List Byte
  value : List Byte
  continuations : List (List Byte)
  name_ne : name ≠ []
  name_token : ∀ c ∈ name, isTokenChar c = true
  value_valid : containsInvalidHeaderValue value = false
  continuations_blank : ∀ line ∈ continuations, line.head?.any isOws = true
  continuations_valid : ∀ line ∈ continuations, containsInvalidHeaderValue line = false

namespace FieldBlock

def line (block : FieldBlock) : List Byte :=
  block.name ++ 58 :: block.value

def lines (block : FieldBlock) : List (List Byte) :=
  block.line :: block.continuations

/-- The value once it is unfolded. -/
def folded (block : FieldBlock) : List Byte :=
  trimOws block.value ++ block.continuations.flatMap fun line => SP :: trimOws line

/-- The header on one line. -/
def unfoldedLine (block : FieldBlock) : List Byte :=
  block.name ++ 58 :: block.folded

/-- What the parser asks of a header that is continued. -/
def Foldable (block : FieldBlock) : Prop :=
  block.continuations ≠ [] → stringToField block.name = .unknown

instance (block : FieldBlock) : Decidable block.Foldable :=
  inferInstanceAs (Decidable (_ → _))

theorem name_valid (block : FieldBlock) : containsInvalidHeaderValue block.name = false :=
  printable_text fun c hc => (isTokenChar_facts c (block.name_token c hc)).1

theorem line_valid (block : FieldBlock) : containsInvalidHeaderValue block.line = false := by
  have hname := (headerText_iff).mp block.name_valid
  have hvalue := (headerText_iff).mp block.value_valid
  rw [headerText_iff]
  intro c hc
  simp only [line, List.mem_append, List.mem_cons] at hc
  rcases hc with hc | rfl | hc
  · exact hname c hc
  · rfl
  · exact hvalue c hc

theorem lines_valid (block : FieldBlock) :
    ∀ line ∈ block.lines, containsInvalidHeaderValue line = false := by
  intro line hline
  rcases List.mem_cons.mp hline with rfl | hline
  · exact block.line_valid
  · exact block.continuations_valid line hline

theorem lines_ne (block : FieldBlock) : ∀ line ∈ block.lines, line ≠ [] := by
  intro line hline
  rcases List.mem_cons.mp hline with rfl | hline
  · simp [FieldBlock.line]
  · have hblank := block.continuations_blank line hline
    rintro rfl
    simp at hblank

theorem findByte_line (block : FieldBlock) : findByte 58 block.line = some block.name.length := by
  apply findByte_append
  intro hmem
  exact (isTokenChar_facts 58 (block.name_token 58 hmem)).2.1 rfl

theorem line_blank (block : FieldBlock) : block.line.head?.any isOws = false := by
  rw [line, List.head?_append_of_ne_nil _ block.name_ne,
    List.head?_eq_some_head block.name_ne, Option.any_some]
  exact (isTokenChar_facts _ (block.name_token _ (List.head_mem _))).2.2

theorem take_line (block : FieldBlock) : block.line.take block.name.length = block.name :=
  List.take_left

theorem drop_line (block : FieldBlock) :
    block.line.drop (block.name.length + 1) = block.value := by
  rw [line, ← List.drop_drop, List.drop_left]
  rfl

end FieldBlock

/-- A request with headers that may be folded. -/
structure FoldedRequest where
  httpMethod : Method
  uri : List Byte
  blocks : List FieldBlock
  method_known : httpMethod ≠ .unknown
  uri_ne : uri ≠ []
  uri_chars : ∀ c ∈ uri, 0x21 ≤ c ∧ c ≤ 0x7e
  uri_bound : uri.length ≤ MAX_URI_LENGTH
  blocks_count : blocks.length ≤ MAX_HEADER_COUNT

namespace FoldedRequest

def parts (request : FoldedRequest) : RequestParts where
  httpMethod := request.httpMethod
  uri := request.uri
  before := []
  payload := .none
  after := []

def requestLine (request : FoldedRequest) : List Byte :=
  request.parts.requestLine

def headerLines (request : FoldedRequest) : List (List Byte) :=
  request.blocks.flatMap FieldBlock.lines

def renderHead (request : FoldedRequest) : List Byte :=
  renderLines (request.requestLine :: request.headerLines) ++ CRLF

/-- How the message is framed once its headers are unfolded. -/
def framing (request : FoldedRequest) : Option Framing :=
  Http.framing (request.blocks.map FieldBlock.unfoldedLine)

end FoldedRequest

/-- The bytes behind the head begin with all of the body. -/
def Framing.Complete (rest : List Byte) : Framing → Prop
  | .noBody => True
  | .length n => n ≤ rest.length
  | .chunked => ∃ (message : ChunkedBody) (behind : List Byte), rest = message.render ++ behind

/-! ## The header map in between -/

/-- The fields that no later field replaces; the newest field comes first. -/
def latest : List (List Byte × List Byte) → List (List Byte × List Byte)
  | [] => []
  | field :: older =>
      field :: (latest older).filter fun other => !ciEqual field.1 other.1

theorem mem_latest_cons {field other : List Byte × List Byte}
    {older : List (List Byte × List Byte)} :
    other ∈ latest (field :: older) ↔
      other = field ∨ other ∈ latest older ∧ ciEqual field.1 other.1 = false := by
  simp [latest]

theorem mem_latest_append {newer older : List (List Byte × List Byte)}
    {field : List Byte × List Byte}
    (hlast : ∀ later ∈ newer, ciEqual later.1 field.1 = false) :
    field ∈ latest (newer ++ field :: older) := by
  induction newer with
  | nil => exact (mem_latest_cons).mpr (.inl rfl)
  | cons later newer ih =>
      refine (mem_latest_cons).mpr (.inr ⟨ih fun other hother => ?_, hlast later (by simp)⟩)
      exact hlast other (List.mem_cons_of_mem later hother)

namespace Parser

/-- The parser is among the header lines; `fields` are those read so far. -/
structure FieldsRead (lines : List (List Byte)) (fields : List (List Byte × List Byte))
    (p : Parser) : Prop where
  read : HeadersRead lines p
  headerCount : p.headerCount = fields.length
  stored : ∀ field ∈ latest fields,
    (p.request.headers.get p.buffer field.1).map (·.read p.buffer) = some field.2

/-- The header that a continuation line would continue. -/
def Continues (name : List Byte) (p : Parser) : Prop :=
  if stringToField name = .unknown then
    p.lastHeaderField = .unknown ∧ ∃ start, p.lastHeaderName = .buffer start name.length ∧
      p.lastHeaderName.read p.buffer = name
  else p.lastHeaderName.isNull = true

/-- The pass over a valid line of the header section. -/
theorem parsePass_headerLine {p q : Parser} {line rest : List Byte} (hstate : p.state = .headers)
    (hunparsed : p.unparsed = line ++ CRLF ++ rest)
    (hvalid : containsInvalidHeaderValue line = false)
    (huse : useHeaderLine p.parsePos line { p with parsePos := p.parsePos + line.length + 2 } =
      (q, .ok .headers)) (hpos : q.parsePos = p.parsePos + line.length + 2) :
    p.parsePass = .again { q with state := .headers } := by
  have hcall := withLine_line true .headers useHeaderLine hunparsed (findCrlf_text hvalid)
  rw [Bool.true_and, hasInvalidByte_textLine hvalid, if_neg Bool.false_ne_true, huse] at hcall
  have hnext : p.nextState = p.parseHeadersState := by
    unfold nextState
    rw [hstate]
  exact parsePass_of_ok (by simp [hstate]) (hnext.trans hcall) (.inl (by omega))

/-- Where the pass over a line leads, if it is known to go on. -/
theorem FieldsRead.advance {lines : List (List Byte)} {fields : List (List Byte × List Byte)}
    {p q : Parser} (h : FieldsRead lines fields p) {line rest : List Byte}
    (hunparsed : p.unparsed = line ++ CRLF ++ rest)
    (hvalid : containsInvalidHeaderValue line = false) (hne : line ≠ [])
    (hshort : line.length < 2 ^ 16) (hpass : p.parsePass = .again q) :
    HeadersRead (lines ++ [line]) q ∧ q.unparsed = rest := by
  rcases h.read.line hunparsed (findCrlf_text hvalid) hne hshort with
    ⟨r, e, hdone, -⟩ | ⟨r, hagain, hread, hrest, -⟩
  · rw [hpass] at hdone
    cases hdone
  · rw [hpass] at hagain
    cases hagain
    exact ⟨hread, hrest⟩

/-- The first line of a header. -/
theorem FieldsRead.header {lines : List (List Byte)} {fields : List (List Byte × List Byte)}
    {p : Parser} (h : FieldsRead lines fields p) (block : FieldBlock) {rest : List Byte}
    (hunparsed : p.unparsed = block.line ++ CRLF ++ rest)
    (hcount : fields.length < MAX_HEADER_COUNT) (hshort : block.line.length < 2 ^ 16) :
    ∃ q, p.parsePass = .again q ∧
      FieldsRead (lines ++ [block.line]) ((block.name, trimOws block.value) :: fields) q ∧
      q.Continues block.name ∧ q.unparsed = rest := by
  have hline : block.line <+: p.buffer.drop p.parsePos := by
    rw [List.append_assoc] at hunparsed
    exact unparsed_buffer hunparsed
  have hfound := block.findByte_line
  have hcolon := findByte_lt hfound
  have haccepted :
      ({ p with parsePos := p.parsePos + block.line.length + 2 } : Parser).HeaderAccepted
        block.line block.name.length := by
    refine ⟨?_, hfound, ?_, ?_, ?_⟩
    · exact h.headerCount ▸ hcount
    · rw [block.take_line]
      exact block.name_ne
    · rw [block.take_line, List.all_eq_true]
      exact block.name_token
    · rw [block.drop_line]
      exact trimOws_text block.value_valid
  obtain ⟨length, hstored⟩ := processHeaderLine_accepted p.parsePos haccepted
  have hne := block.lines_ne block.line (by simp [FieldBlock.lines])
  obtain ⟨q, hq, huse⟩ : ∃ q, q = ({ ({ p with parsePos := p.parsePos + block.line.length + 2 } :
      Parser).storeHeader p.parsePos block.line block.name.length with
        contentLength := length } : Parser) ∧
      useHeaderLine p.parsePos block.line
        { p with parsePos := p.parsePos + block.line.length + 2 } = (q, .ok .headers) := by
    refine ⟨_, rfl, ?_⟩
    rw [useHeaderLine, if_neg hne, block.line_blank, if_neg Bool.false_ne_true, hstored]
  have hpass := parsePass_headerLine h.read.state hunparsed block.line_valid huse (by rw [hq]; rfl)
  obtain ⟨hread, hrest⟩ := h.advance hunparsed block.line_valid
    hne hshort hpass
  rw [hq] at hpass hread hrest
  refine ⟨_, hpass, ⟨hread, ?_, ?_⟩, ?_, hrest⟩
  · exact congrArg (· + 1) h.headerCount
  · intro field hfield
    rcases (mem_latest_cons).mp hfield with rfl | ⟨hold, hother⟩
    · have hself := get_storeHeader_self
        (p := { p with parsePos := p.parsePos + block.line.length + 2 }) hline hfound hshort
      rw [block.take_line, block.drop_line] at hself
      exact hself
    · have hkept := get_storeHeader_other
        (p := { p with parsePos := p.parsePos + block.line.length + 2 }) hline hfound hshort
        (block.take_line.symm ▸ hother)
      have hstill := h.stored field hold
      exact (congrArg (Option.map (·.read p.buffer)) hkept).trans hstill
  · unfold Continues
    split
    next hunknown =>
      refine ⟨?_, p.parsePos, ?_, ?_⟩
      · show stringToField (block.line.take block.name.length) = .unknown
        rw [block.take_line]
        exact hunknown
      · show (if stringToField (block.line.take block.name.length) = .unknown then _ else _) = _
        rw [block.take_line, if_pos hunknown]
      · show (if stringToField (block.line.take block.name.length) = .unknown then
          View.buffer p.parsePos block.name.length else .null).read p.buffer = block.name
        rw [block.take_line, if_pos hunknown, headerName_read hline hcolon, block.take_line]
    next hknown =>
      show (if stringToField (block.line.take block.name.length) = .unknown then
        View.buffer p.parsePos block.name.length else .null).isNull = true
      rw [block.take_line, if_neg hknown]
      rfl

/-- A continuation line behind a name that is not in the table. -/
theorem FieldsRead.continuation {lines : List (List Byte)}
    {older : List (List Byte × List Byte)} {name value : List Byte} {p : Parser}
    (h : FieldsRead lines ((name, value) :: older) p) (hcontinues : p.Continues name)
    (hunknown : stringToField name = .unknown) {line rest : List Byte}
    (hunparsed : p.unparsed = line ++ CRLF ++ rest) (hblank : line.head?.any isOws = true)
    (hvalid : containsInvalidHeaderValue line = false) (hshort : line.length < 2 ^ 16)
    (hname : name.length < 2 ^ 16)
    (hfits : (value ++ SP :: trimOws line).length < 2 ^ 16) :
    ∃ q, p.parsePass = .again q ∧
      FieldsRead (lines ++ [line]) ((name, value ++ SP :: trimOws line) :: older) q ∧
      q.Continues name ∧ q.unparsed = rest := by
  obtain ⟨hfield, start, hstart, hread⟩ := (if_pos hunknown).mp hcontinues
  have hne : line ≠ [] := by
    rintro rfl
    simp at hblank
  have hnull : p.lastHeaderName.isNull = false := by
    rw [hstart]
    rfl
  have hcurrent : p.lastHeaderValue.map (·.read p.buffer) = some value := by
    have hstored := h.stored (name, value) (mem_latest_cons.mpr (.inl rfl))
    unfold lastHeaderValue
    rwa [if_neg (not_not.mpr hfield), hread]
  obtain ⟨current, hvalue, hshown⟩ := Option.map_eq_some_iff.mp hcurrent
  have htrim : trimOws (line.dropWhile isOws) = trimOws line := by
    rw [trimOws, List.dropWhile_idempotent, trimOws]
  have huse : useHeaderLine p.parsePos line
      { p with parsePos := p.parsePos + line.length + 2 } =
        (({ p with parsePos := p.parsePos + line.length + 2 } : Parser).setLastHeader
          (.owned (value ++ SP :: trimOws line)), .ok .headers) := by
    have hlast : ({ p with parsePos := p.parsePos + line.length + 2 } : Parser).lastHeaderValue =
        some current := hvalue
    rw [useHeaderLine, if_neg hne, if_pos hblank, foldHeader, hlast]
    dsimp only
    rw [hnull, if_neg Bool.false_ne_true, htrim, trimOws_text hvalid, if_neg Bool.false_ne_true,
      hshown]
  have hpass := parsePass_headerLine h.read.state hunparsed hvalid huse rfl
  obtain ⟨hlines, hrest⟩ := h.advance hunparsed hvalid hne hshort hpass
  -- the entry is found under its own name, so it is this one that is replaced
  have hentry : HeadersMap.hasName p.buffer (p.lastHeaderName.read p.buffer)
      { name := p.lastHeaderName.truncate16
        value := (View.owned (value ++ SP :: trimOws line)).truncate16 } = true := by
    have htruncated : p.lastHeaderName.truncate16 = p.lastHeaderName := by
      rw [hstart, View.truncate16, Nat.mod_eq_of_lt hname]
    apply HeadersMap.hasName_self
    · rw [hnull]
      exact Bool.false_ne_true
    · rw [htruncated]
    · rw [htruncated, hread, hstart]
      rfl
  have hheaders : ({ p with parsePos := p.parsePos + line.length + 2 } : Parser).setLastHeader
      (.owned (value ++ SP :: trimOws line)) = ({ p with
        parsePos := p.parsePos + line.length + 2
        request := { p.request with
          headers := p.request.headers.setUnknownBorrowed p.buffer p.lastHeaderName
            (.owned (value ++ SP :: trimOws line)) } } : Parser) := by
    unfold setLastHeader
    dsimp only
    rw [if_neg (not_not.mpr hfield)]
  rw [hheaders] at hpass hlines hrest
  refine ⟨_, hpass, ⟨hlines, h.headerCount, ?_⟩, hcontinues, hrest⟩
  intro field hmem
  dsimp only
  rcases (mem_latest_cons).mp hmem with rfl | ⟨hold, hother⟩
  · have hself := HeadersMap.getUnknown_setUnknownBorrowed_self p.request.headers hentry
    rw [hread] at hself
    unfold HeadersMap.get
    rw [if_pos hunknown, hself, Option.map_some, View.truncate16_owned hfits]
    rfl
  · have hstill := h.stored field (mem_latest_cons.mpr (.inr ⟨hold, hother⟩))
    have hkept := HeadersMap.getUnknown_setUnknownBorrowed_other p.request.headers
      (hread.symm ▸ hother) hentry
    rw [← hstill]
    unfold HeadersMap.get
    rw [hkept]
    unfold HeadersMap.getField
    rw [HeadersMap.known_setUnknownBorrowed]

/-- A continuation line behind a field of the table. -/
theorem FieldsRead.refused {lines : List (List Byte)} {fields : List (List Byte × List Byte)}
    {name : List Byte} {p : Parser} (h : FieldsRead lines fields p) (hcontinues : p.Continues name)
    (hknown : stringToField name ≠ .unknown) {line rest : List Byte}
    (hunparsed : p.unparsed = line ++ CRLF ++ rest) (hblank : line.head?.any isOws = true)
    (hvalid : containsInvalidHeaderValue line = false) :
    ∃ q e, p.parsePass = .done (q, .error e) := by
  have hnull : p.lastHeaderName.isNull = true := (if_neg hknown).mp hcontinues
  have hne : line ≠ [] := by
    rintro rfl
    simp at hblank
  have hcall := withLine_line true .headers useHeaderLine hunparsed (findCrlf_text hvalid)
  have hnext : p.nextState = p.parseHeadersState := by
    unfold nextState
    rw [h.read.state]
  refine ⟨{ p with parsePos := p.parsePos + line.length + 2 }, .invalidFd,
    parsePass_of_error (by simp [h.read.state]) ?_⟩
  rw [hnext, parseHeadersState, hcall, hasInvalidByte_textLine hvalid, Bool.and_false,
    if_neg Bool.false_ne_true, useHeaderLine, if_neg hne, if_pos hblank, foldHeader, if_pos hnull]
  rfl

/-- All continuation lines of a header, by induction from one. -/
theorem FieldsRead.continuations {continuations lines : List (List Byte)}
    {older : List (List Byte × List Byte)} {name value : List Byte} {p : Parser}
    (h : FieldsRead lines ((name, value) :: older) p) (hcontinues : p.Continues name)
    (hunknown : stringToField name = .unknown) {rest : List Byte}
    (hunparsed : p.unparsed = renderLines continuations ++ rest)
    (hblank : ∀ line ∈ continuations, line.head?.any isOws = true)
    (hvalid : ∀ line ∈ continuations, containsInvalidHeaderValue line = false)
    (hshort : name.length + value.length + (renderLines continuations).length < 2 ^ 16) :
    ∃ q, Passes parsePass p q ∧
      FieldsRead (lines ++ continuations)
        ((name, value ++ continuations.flatMap fun line => SP :: trimOws line) :: older) q ∧
      q.unparsed = rest := by
  induction continuations generalizing lines value p with
  | nil =>
      refine ⟨p, .refl p, ?_, hunparsed⟩
      simpa using h
  | cons line continuations ih =>
      rw [renderLines_cons] at hunparsed hshort
      rw [List.append_assoc] at hunparsed
      simp only [List.length_append, crlf_length] at hshort
      have htrim := trimOws_length_le line
      have hlonger : (value ++ SP :: trimOws line).length ≤ value.length + line.length + 1 := by
        rw [List.length_append, List.length_cons]
        omega
      obtain ⟨q, hpass, hread, hnext, hrest⟩ := h.continuation hcontinues hunknown hunparsed
        (hblank line (by simp)) (hvalid line (by simp)) (by omega) (by omega) (by omega)
      obtain ⟨last, hpasses, hlast, hend⟩ := ih hread hnext hrest
        (fun l hl => hblank l (by simp [hl])) (fun l hl => hvalid l (by simp [hl])) (by omega)
      refine ⟨last, .head hpass hpasses, ?_, hend⟩
      simpa using hlast

/-- A header with its continuation lines: unfolded, or refused. -/
theorem FieldsRead.block {lines : List (List Byte)} {fields : List (List Byte × List Byte)}
    {p : Parser} (h : FieldsRead lines fields p) (block : FieldBlock) {rest : List Byte}
    (hunparsed : p.unparsed = renderLines block.lines ++ rest)
    (hcount : fields.length < MAX_HEADER_COUNT)
    (hshort : (renderLines block.lines).length < 2 ^ 16) :
    (block.Foldable ∧ ∃ q, Passes parsePass p q ∧
        FieldsRead (lines ++ block.lines) ((block.name, block.folded) :: fields) q ∧
        q.unparsed = rest) ∨
      ¬ block.Foldable ∧ ∃ q e, EndsWith parsePass p (q, .error e) := by
  have hblank := block.continuations_blank
  have hvalid := block.continuations_valid
  have hlength : block.line.length = block.name.length + block.value.length + 1 := by
    simp [FieldBlock.line]
    omega
  have htrim := trimOws_length_le block.value
  unfold FieldBlock.lines at hunparsed hshort
  rw [renderLines_cons] at hunparsed hshort
  rw [List.append_assoc] at hunparsed
  simp only [List.length_append, crlf_length] at hshort
  obtain ⟨q, hpass, hread, hcontinues, hrest⟩ := h.header block hunparsed hcount (by omega)
  by_cases hunknown : stringToField block.name = .unknown
  · left
    obtain ⟨last, hpasses, hlast, hend⟩ :=
      hread.continuations hcontinues hunknown hrest hblank hvalid (by omega)
    refine ⟨fun _ => hunknown, last, .head hpass hpasses, ?_, hend⟩
    simpa [FieldBlock.lines, FieldBlock.folded] using hlast
  cases hcontinuations : block.continuations with
  | nil =>
      left
      rw [hcontinuations] at hrest
      refine ⟨fun hne => absurd hcontinuations hne, q, .head hpass (.refl q), ?_, hrest⟩
      simpa [FieldBlock.lines, FieldBlock.folded, hcontinuations] using hread
  | cons line continuations =>
      right
      rw [hcontinuations, renderLines_cons, List.append_assoc] at hrest
      obtain ⟨r, e, hdone⟩ := hread.refused hcontinues hunknown hrest
        (hblank line (by simp [hcontinuations])) (hvalid line (by simp [hcontinuations]))
      refine ⟨fun hfoldable => hunknown (hfoldable (by simp [hcontinuations])), r, e, ?_⟩
      exact .of_passes (.head hpass (.refl q)) (.of_done hdone)

/-- All headers, by induction from one. -/
theorem FieldsRead.blocks {blocks : List FieldBlock} {lines : List (List Byte)}
    {fields : List (List Byte × List Byte)} {p : Parser} (h : FieldsRead lines fields p)
    {rest : List Byte}
    (hunparsed : p.unparsed = renderLines (blocks.flatMap FieldBlock.lines) ++ rest)
    (hcount : fields.length + blocks.length ≤ MAX_HEADER_COUNT)
    (hshort : (renderLines (blocks.flatMap FieldBlock.lines)).length < 2 ^ 16) :
    ((∀ block ∈ blocks, block.Foldable) ∧ ∃ q, Passes parsePass p q ∧
        FieldsRead (lines ++ blocks.flatMap FieldBlock.lines)
          ((blocks.map fun block => (block.name, block.folded)).reverse ++ fields) q ∧
        q.unparsed = rest) ∨
      (¬ ∀ block ∈ blocks, block.Foldable) ∧ ∃ q e, EndsWith parsePass p (q, .error e) := by
  induction blocks generalizing lines fields p with
  | nil =>
      left
      refine ⟨by simp, p, .refl p, ?_, hunparsed⟩
      simpa using h
  | cons block blocks ih =>
      rw [List.flatMap_cons, renderLines_append] at hunparsed hshort
      rw [List.append_assoc] at hunparsed
      rw [List.length_append] at hshort
      rw [List.length_cons] at hcount
      rcases h.block block hunparsed (by omega) (by omega) with
        ⟨hfoldable, q, hpasses, hread, hrest⟩ | ⟨hnot, q, e, hend⟩
      · rcases ih hread hrest (by rw [List.length_cons]; omega) (by omega) with
          ⟨hall, last, hpasses', hlast, hend⟩ | ⟨hnot, r, e, hend⟩
        · left
          refine ⟨List.forall_mem_cons.mpr ⟨hfoldable, hall⟩, last, hpasses.trans hpasses', ?_,
            hend⟩
          simpa using hlast
        · right
          exact ⟨fun hall => hnot (List.forall_mem_cons.mp hall).2, r, e, .of_passes hpasses hend⟩
      · right
        exact ⟨fun hall => hnot (List.forall_mem_cons.mp hall).1, q, e, hend⟩

theorem outside_of_holds {f : Framing} {p : Parser} (h : f.Holds p) :
    p.inHeaderSection = false := by
  cases f with
  | noBody =>
      have hstate : p.state = .complete := h
      simp [inHeaderSection, hstate]
  | length n => simp [inHeaderSection, h.1]
  | chunked => simp [inHeaderSection, h.1]

/-- A body that is there completes the message. -/
theorem complete_of_holds {f : Framing} {p : Parser} (h : f.Holds p) {rest : List Byte}
    (hcomplete : f.Complete rest) (hunparsed : p.unparsed = rest) :
    ∃ q, Passes parsePass p q ∧ q.state = .complete := by
  cases f with
  | noBody => exact ⟨p, .refl p, h⟩
  | length n =>
      obtain ⟨hstate, hlength⟩ := h
      have hbody : (rest.take n).length = n := List.length_take_of_le hcomplete
      have hsplit : p.unparsed = rest.take n ++ rest.drop n := by
        rw [List.take_append_drop, hunparsed]
      have hpass := parsePass_body hstate (hlength.trans hbody.symm) hsplit
      exact ⟨_, .head hpass (.refl _), rfl⟩
  | chunked =>
      obtain ⟨hstate, hnone⟩ := h
      obtain ⟨message, behind, rfl⟩ := hcomplete
      have hgathered : Gathered [] (renderChunks message.chunks ++
          (message.lastLine.render ++ CRLF ++ (renderLines message.trailers ++ CRLF ++ behind)))
          p := by
        refine ⟨hstate, hnone, ?_, ?_⟩
        · rw [hnone, List.take_zero]
        · rw [hunparsed, ChunkedBody.render]
          simp only [List.append_assoc]
      obtain ⟨middle, hchunks, hmiddle⟩ := hgathered.chunks message.chunks_bound
      rw [List.nil_append] at hmiddle
      obtain ⟨last, hfinish, hstate', -⟩ :=
        hmiddle.finish message.trailers_free message.chunks_bound
      exact ⟨last, hchunks.trans hfinish, hstate'⟩

end Parser

/-! ## The framing fields -/

theorem headerField_line {name : List Byte} (hname : name ≠ [])
    (htoken : ∀ c ∈ name, isTokenChar c = true) (text : List Byte) :
    headerField (name ++ 58 :: text) = some (name, trimOws text) := by
  have hblank : (name ++ 58 :: text).head?.any isOws = false := by
    rw [List.head?_append_of_ne_nil _ hname, List.head?_eq_some_head hname, Option.any_some]
    exact (isTokenChar_facts _ (htoken _ (List.head_mem _))).2.2
  have hcolon : findByte 58 (name ++ 58 :: text) = some name.length := by
    apply findByte_append
    intro hmem
    exact (isTokenChar_facts 58 (htoken 58 hmem)).2.1 rfl
  have hvalue : (name ++ 58 :: text).drop (name.length + 1) = text := by
    rw [← List.drop_drop, List.drop_left]
    rfl
  rw [headerField, hblank, if_neg Bool.false_ne_true, hcolon, Option.map_some, List.take_left,
    hvalue]

namespace FieldBlock

theorem headerField_lines (block : FieldBlock) :
    block.lines.filterMap headerField = [(block.name, trimOws block.value)] := by
  have hfirst : headerField block.line = some (block.name, trimOws block.value) :=
    headerField_line block.name_ne block.name_token _
  have hrest : block.continuations.filterMap headerField = [] := by
    rw [List.filterMap_eq_nil_iff]
    intro line hline
    rw [headerField, if_pos (block.continuations_blank line hline)]
  rw [lines, List.filterMap_cons, hfirst, hrest]

theorem headerField_unfoldedLine (block : FieldBlock) :
    headerField block.unfoldedLine = some (block.name, trimOws block.folded) :=
  headerField_line block.name_ne block.name_token _

end FieldBlock

/-- A field that is not continued has the same last value in the folded and in
the unfolded lines. -/
theorem lastValue_unfolded {name : List Byte} {blocks : List FieldBlock}
    (hwhole : ∀ block ∈ blocks, ciEqual name block.name = true → block.continuations = []) :
    lastValue name (blocks.flatMap FieldBlock.lines) =
      lastValue name (blocks.map FieldBlock.unfoldedLine) := by
  unfold lastValue
  congr 2
  induction blocks with
  | nil => rfl
  | cons block blocks ih =>
      have hrest := ih fun other hother => hwhole other (List.mem_cons_of_mem block hother)
      rw [List.flatMap_cons, List.map_cons, List.filterMap_append, List.filter_append, hrest,
        block.headerField_lines, List.filterMap_cons, block.headerField_unfoldedLine]
      by_cases hname : ciEqual name block.name = true
      · have hfolded : trimOws block.folded = trimOws block.value := by
          rw [FieldBlock.folded, hwhole block (by simp) hname, List.flatMap_nil, List.append_nil,
            trimOws_trimOws]
        simp [hname, hfolded]
      · simp [hname]

namespace FoldedRequest

theorem headerLines_valid (request : FoldedRequest) :
    ∀ line ∈ request.headerLines, containsInvalidHeaderValue line = false ∧ line ≠ [] := by
  intro line hline
  obtain ⟨block, -, hmem⟩ := List.mem_flatMap.mp hline
  exact ⟨block.lines_valid line hmem, block.lines_ne line hmem⟩

theorem bare_framing (request : FoldedRequest) :
    ∀ header ∈ request.parts.before ++ request.parts.after,
      ciEqual (bytesOf "Content-Length") header.name = false ∧
        ciEqual (bytesOf "Transfer-Encoding") header.name = false := by
  simp [parts]

theorem bare_bound (request : FoldedRequest) :
    request.parts.renderHead.length ≤ MAX_HEADER_SIZE := by
  have huri := request.uri_bound
  have hmethod := methodToString_length_le request.httpMethod
  have hversion : (bytesOf "HTTP/1.1").length = 8 := by
    decide
  simp [hversion, RequestParts.renderHead, RequestParts.requestLine, RequestParts.headers, parts,
    Payload.headers, Parser.crlf_length, MAX_HEADER_SIZE, MAX_URI_LENGTH] at huri ⊢
  omega

/-- The request line with no header. -/
def wire (request : FoldedRequest) : WireRequest where
  toRequestParts := request.parts
  method_known := request.method_known
  uri_ne := request.uri_ne
  uri_chars := request.uri_chars
  uri_bound := request.uri_bound
  headers_count := Nat.zero_le _
  headers_distinct := .nil
  headers_framing := request.bare_framing
  head_bound := request.bare_bound
  body_bound := Nat.zero_le _

def head (request : FoldedRequest) : RequestHead where
  requestLine := request.requestLine
  headerLines := request.headerLines
  requestLine_free := findCrlf_printable request.wire.requestLine_printable
  headerLines_free line hline :=
    ⟨findCrlf_text (request.headerLines_valid line hline).1,
      (request.headerLines_valid line hline).2⟩

theorem headChecked (request : FoldedRequest)
    (hsize : request.renderHead.length ≤ MAX_HEADER_SIZE) (rest : List Byte) :
    Parser.headChecked (request.renderHead ++ rest) = true := by
  have hbound : request.head.render.length ≤ MAX_HEADER_SIZE := hsize
  apply RequestHead.headChecked _ hbound
  intro line hline
  rcases List.mem_cons.mp hline with rfl | hheader
  · exact printable_text request.wire.requestLine_printable
  · exact (request.headerLines_valid line hheader).1

/-- The fields that frame the body are known, so none of them is continued. -/
theorem framing_headerLines {request : FoldedRequest}
    (hfoldable : ∀ block ∈ request.blocks, block.Foldable) :
    Http.framing request.headerLines = request.framing := by
  have hknown : ∀ {name : List Byte} {f : Field}, f ≠ .unknown →
      (∀ other, stringToField other = f ↔ ciEqual name other = true) →
      lastValue name request.headerLines =
        lastValue name (request.blocks.map FieldBlock.unfoldedLine) := by
    intro name f hf hname
    apply lastValue_unfolded
    intro block hblock hequal
    by_contra hne
    exact hf (((hname block.name).mpr hequal).symm.trans (hfoldable block hblock hne))
  unfold framing Http.framing
  rw [hknown (f := .transferEncoding) nofun fun _ => stringToField_eq_transferEncoding,
    hknown (f := .contentLength) nofun fun _ => stringToField_eq_contentLength]

/-- The message is taken, and every header that is not repeated has its unfolded
value. -/
def Unfolded (request : FoldedRequest) (r : Parsed ParserState) : Prop :=
  r.2 = .ok .complete ∧
    ∀ before block after, request.blocks = before ++ block :: after →
      (∀ other ∈ before ++ after, ciEqual other.name block.name = false) →
      (r.1.request.headers.get r.1.buffer block.name).map (·.read r.1.buffer) = some block.folded

end FoldedRequest

namespace Parser

/-- A request that arrives in one piece is taken, with its headers unfolded, if
and only if no header of the table is continued. -/
theorem parse_folded (request : FoldedRequest) {f : Framing} (rest : List Byte)
    (hsize : request.renderHead.length ≤ MAX_HEADER_SIZE)
    (hlength : (request.renderHead ++ rest).length ≤ MAX_BUFFER_SIZE)
    (hframing : request.framing = some f) (hcomplete : f.Complete rest) :
    request.Unfolded (({} : Parser).parse (request.renderHead ++ rest)) ↔
      ∀ block ∈ request.blocks, block.Foldable := by
  obtain ⟨p, hparse, hfresh, -⟩ := parse_fresh hlength
  have hchecked := request.headChecked hsize rest
  rcases hfresh.parseAvailable with ⟨hbad, -⟩ | ⟨-, checked, hloop, hready, -⟩
  · rw [hchecked] at hbad
    cases hbad
  rw [hparse, hloop]
  have hrender : request.renderHead ++ rest = request.wire.requestLine ++ CRLF ++
      (renderLines request.headerLines ++ (CRLF ++ rest)) := by
    rw [FoldedRequest.renderHead, renderLines_cons]
    simp only [List.append_assoc]
    rfl
  have hlines : (renderLines request.headerLines).length < 2 ^ 16 := by
    have hmax : MAX_HEADER_SIZE < 2 ^ 16 := by
      decide
    rw [FoldedRequest.renderHead, renderLines_cons] at hsize
    simp only [List.length_append] at hsize
    omega
  rw [hrender] at hready
  have hline := hready.requestLine rfl (findCrlf_printable request.wire.requestLine_printable)
  obtain ⟨uri, q, hpass, hq, -, hunparsed⟩ := hready.requestPass
  have hread : FieldsRead [] [] q := by
    rcases hline with ⟨r, e, hdone, -⟩ | ⟨r, hagain, hread, -, -⟩
    · rw [hpass] at hdone
      cases hdone
    · rw [hpass] at hagain
      cases hagain
      refine ⟨hread, ?_, by simp [latest]⟩
      rw [hq, hready.same]
      rfl
  have hcount : ([] : List (List Byte × List Byte)).length + request.blocks.length ≤
      MAX_HEADER_COUNT := by
    simpa using request.blocks_count
  rcases hread.blocks hunparsed hcount hlines with
    ⟨hfoldable, read, hpasses, hfields, hempty⟩ | ⟨hnot, r, e, hend⟩
  · refine iff_of_true ?_ hfoldable
    have hsame := FoldedRequest.framing_headerLines hfoldable
    rw [hframing] at hsame
    rcases hfields.read.finish hempty with
      ⟨hnone, -⟩ | ⟨g, framed, hg, hfinish, hholds, hrest, -, hrequest, hbuffer⟩
    · rw [List.nil_append] at hnone
      cases hnone.symm.trans hsame
    rw [List.nil_append] at hg
    cases hg.symm.trans hsame
    obtain ⟨last, hbody, hstate⟩ := complete_of_holds hholds hcomplete hrest
    have hkept := passes_sameHead (outside_of_holds hholds) hbody
    have hall : Passes parsePass checked last :=
      .head hpass (hpasses.trans (.head hfinish hbody))
    rw [parseLoop_eq (.of_passes hall (.of_done (parsePass_complete hstate)))]
    refine ⟨rfl, fun before block after hblocks hdistinct => ?_⟩
    have hmem : (block.name, block.folded) ∈ latest
        ((request.blocks.map fun block => (block.name, block.folded)).reverse ++ []) := by
      rw [hblocks]
      simp only [List.map_append, List.map_cons, List.reverse_append, List.reverse_cons,
        List.append_assoc, List.singleton_append, List.append_nil]
      apply mem_latest_append
      intro later hlater
      obtain ⟨other, hother, rfl⟩ := List.mem_map.mp (List.mem_reverse.mp hlater)
      exact hdistinct other (List.mem_append_right before hother)
    have hstored := hfields.stored _ hmem
    rw [hkept.request, hkept.buffer, hrequest, hbuffer]
    exact hstored
  · refine iff_of_false ?_ hnot
    rw [parseLoop_eq (.of_passes (.head hpass (.refl q)) hend)]
    intro hunfolded
    cases hunfolded.1

/-- A request with one header and one continuation line of it. -/
def continuedRequest (name : List Byte) (hne : name ≠ [])
    (htoken : ∀ c ∈ name, isTokenChar c = true) : FoldedRequest where
  httpMethod := .get
  uri := bytesOf "/"
  blocks := [⟨name, bytesOf " a", [bytesOf "\tb "], hne, htoken, by decide +kernel,
    by decide +kernel, by decide +kernel⟩]
  method_known := by decide
  uri_ne := by decide
  uri_chars := by decide +kernel
  uri_bound := by decide
  blocks_count := by simp [MAX_HEADER_COUNT]

theorem parse_folded_trace :
    let request := continuedRequest (bytesOf "X-Trace") (by decide) (by decide +kernel)
    request.framing = some .noBody ∧
      request.Unfolded (({} : Parser).parse (request.renderHead ++ [])) ∧
      ∀ block ∈ request.blocks, block.folded = bytesOf "a b" := by
  have hframing : (continuedRequest (bytesOf "X-Trace") (by decide) (by decide +kernel)).framing =
      some .noBody := by
    decide +kernel
  refine ⟨hframing, ?_, by decide +kernel⟩
  apply (parse_folded _ [] (by decide +kernel) (by decide +kernel) hframing trivial).mpr
  intro block hblock _
  rw [List.mem_singleton.mp hblock]
  apply stringToField_eq_unknown
  unfold fieldNameTable
  rw [List.forall_mem_cons, map_bytesOf (by decide +kernel)]
  decide +kernel

theorem host_ne : bytesOf "Host" ≠ [] := by
  decide

theorem host_token : ∀ c ∈ bytesOf "Host", isTokenChar c = true := by
  decide +kernel

/-- The continuation of a Host line is refused. -/
theorem host_not_folded :
    let request := continuedRequest (bytesOf "Host") host_ne host_token
    request.framing = some .noBody ∧ request.renderHead.length ≤ MAX_HEADER_SIZE ∧
      (({} : Parser).parse request.renderHead).2 = .error .invalidFd ∧
      ¬ request.Unfolded (({} : Parser).parse request.renderHead) := by
  have hrefused : (({} : Parser).parse
      (continuedRequest (bytesOf "Host") host_ne host_token).renderHead).2 =
        .error .invalidFd := by
    decide +kernel
  refine ⟨by decide +kernel, by decide +kernel, hrefused, fun hunfolded => ?_⟩
  cases hrefused.symm.trans hunfolded.1

end Parser

end Http
end Katana
