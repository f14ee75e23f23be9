import Katana.Http.ChunkedBody

/-!
# Requests on the wire

A request is written as its request line, its header lines and its body in one
of three framings.  A parser that is given the text of a list of requests yields
these requests one after another: every pass over a line or a chunk is followed
by a pass over the next, and the bytes behind a message are those of the next
message.
-/

namespace Katana
namespace Http

open Library

/-! ## Printable text -/

def isPrintable (c : Byte) : Bool :=
  0x20 ≤ c && c ≤ 0x7e

/-- The kinds of characters, compared byte by byte in one evaluation. -/
theorem character_facts : ∀ c : Byte,
    (isPrintable c = true →
      c ≠ CR ∧ c ≠ LF ∧ (c = 0 || 0x80 ≤ c) = false ∧ isInvalidHeaderChar c = false) ∧
    (isTokenChar c = true → isPrintable c = true ∧ c ≠ 58 ∧ isOws c = false) ∧
    (0x21 ≤ c ∧ c ≤ 0x7e →
      isPrintable c = true ∧ c ≠ SP ∧
        (c = SP || c = CR || c = LF || isCtl c || 0x80 ≤ c) = false) ∧
    (isDigit 10 c = true → isPrintable c = true ∧ isOws c = false) := by
  apply byte_forall
  decide +kernel

theorem isPrintable_facts (c : Byte) : isPrintable c = true →
    c ≠ CR ∧ c ≠ LF ∧ (c = 0 || 0x80 ≤ c) = false ∧ isInvalidHeaderChar c = false :=
  (character_facts c).1

theorem isTokenChar_facts (c : Byte) : isTokenChar c = true →
    isPrintable c = true ∧ c ≠ 58 ∧ isOws c = false :=
  (character_facts c).2.1

theorem uriChar_facts (c : Byte) : 0x21 ≤ c ∧ c ≤ 0x7e →
    isPrintable c = true ∧ c ≠ SP ∧
      (c = SP || c = CR || c = LF || isCtl c || 0x80 ≤ c) = false :=
  (character_facts c).2.2.1

theorem decimal_facts (c : Byte) : isDigit 10 c = true →
    isPrintable c = true ∧ isOws c = false :=
  (character_facts c).2.2.2

theorem printable_text {text : List Byte} (htext : ∀ c ∈ text, isPrintable c = true) :
    containsInvalidHeaderValue text = false :=
  (headerText_iff).mpr fun c hc => (isPrintable_facts c (htext c hc)).2.2.2

theorem hasInvalidByte_line {line : List Byte} (hline : ∀ c ∈ line, isPrintable c = true)
    (previous : Option Byte) : hasInvalidByte previous (line ++ [CR]) = false :=
  hasInvalidByte_textLine (printable_text hline) previous

theorem hasInvalidByte_lines {lines : List (List Byte)}
    (hlines : ∀ line ∈ lines, ∀ c ∈ line, isPrintable c = true) (previous : Option Byte) :
    hasInvalidByte previous (renderLines lines ++ CRLF) = false :=
  hasInvalidByte_textLines (fun line hline => printable_text (hlines line hline)) previous

theorem findCrlf_printable {line : List Byte} (hline : ∀ c ∈ line, isPrintable c = true) :
    findCrlf line = none :=
  findCrlf_text (printable_text hline)

/-! ## Decimal numbers -/

/-- `from_chars` reads back what `to_chars` wrote. -/
theorem fromChars_toChars {n : ℕ} (hn : n < 2 ^ 64) :
    fromChars 10 (toChars 10 n) = (some n, []) := by
  have hvalue : numeralValue 10 (toChars 10 n) = n :=
    numeralValue_toChars (by decide) (by decide) n
  have hdigits : ∀ c ∈ toChars 10 n, isDigit 10 c = true :=
    toChars_digits (by decide) (by decide) n
  rw [fromChars_digits (toChars_ne_nil 10 n) hdigits (by omega), hvalue]

/-! ## Requests -/

/-- A header as it is sent: a token and a trimmed value. -/
structure RequestHeader where
  name : List Byte
  value : List Byte
  name_ne : name ≠ []
  name_token : ∀ c ∈ name, isTokenChar c = true
  value_trimmed : trimOws value = value
  value_printable : ∀ c ∈ value, isPrintable c = true

def RequestHeader.line (header : RequestHeader) : List Byte :=
  header.name ++ 58 :: SP :: header.value

def contentLengthHeader (length : ℕ) : RequestHeader where
  name := bytesOf "Content-Length"
  value := toChars 10 length
  name_ne := by decide
  name_token := by decide +kernel
  value_trimmed :=
    trimOws_eq_self fun c hc => (decimal_facts c (toChars_digits (by decide) (by decide) length c hc)).2
  value_printable c hc := (decimal_facts c (toChars_digits (by decide) (by decide) length c hc)).1

def transferEncodingHeader : RequestHeader where
  name := bytesOf "Transfer-Encoding"
  value := bytesOf "chunked"
  name_ne := by decide
  name_token := by decide +kernel
  value_trimmed := by decide
  value_printable := by decide +kernel

/-- A body and how it is framed. -/
inductive Payload where
  | none
  | length (body : List Byte)
  | chunked (chunks : List Chunk) (lastLine : SizeLine 0)

namespace Payload

def body : Payload → List Byte
  | none => []
  | length body => body
  | chunked chunks _ => chunksBody chunks

def headers : Payload → List RequestHeader
  | none => []
  | length body => [contentLengthHeader body.length]
  | chunked _ _ => [transferEncodingHeader]

def render : Payload → List Byte
  | none => []
  | length body => body
  | chunked chunks lastLine => renderChunks chunks ++ (lastLine.render ++ CRLF ++ CRLF)

end Payload

def methodToString : Method → List Byte
  | .get => bytesOf "GET"
  | .post => bytesOf "POST"
  | .put => bytesOf "PUT"
  | .del => bytesOf "DELETE"
  | .patch => bytesOf "PATCH"
  | .head => bytesOf "HEAD"
  | .options => bytesOf "OPTIONS"
  | .unknown => bytesOf "UNKNOWN"

/-- The parts of a request.  The header that frames the body stands anywhere
among the others. -/
structure RequestParts where
  httpMethod : Method
  uri : List Byte
  before : List RequestHeader
  payload : Payload
  after : List RequestHeader

namespace RequestParts

def headers (request : RequestParts) : List RequestHeader :=
  request.before ++ request.payload.headers ++ request.after

def requestLine (request : RequestParts) : List Byte :=
  methodToString request.httpMethod ++ SP :: (request.uri ++ SP :: bytesOf "HTTP/1.1")

def renderHead (request : RequestParts) : List Byte :=
  renderLines (request.requestLine :: request.headers.map RequestHeader.line) ++ CRLF

def render (request : RequestParts) : List Byte :=
  request.renderHead ++ request.payload.render

end RequestParts

/-- A request that may be sent. -/
structure WireRequest extends RequestParts where
  method_known : httpMethod ≠ .unknown
  uri_ne : uri ≠ []
  uri_chars : ∀ c ∈ uri, 0x21 ≤ c ∧ c ≤ 0x7e
  uri_bound : uri.length ≤ MAX_URI_LENGTH
  headers_count : (before ++ after).length ≤ 99
  headers_distinct : (before ++ after).Pairwise fun a b => ciEqual a.name b.name = false
  headers_framing : ∀ header ∈ before ++ after,
    ciEqual (bytesOf "Content-Length") header.name = false ∧
      ciEqual (bytesOf "Transfer-Encoding") header.name = false
  head_bound : toRequestParts.renderHead.length ≤ MAX_HEADER_SIZE
  body_bound : payload.body.length ≤ MAX_BODY_SIZE

theorem RequestHeader.line_printable (header : RequestHeader) :
    ∀ c ∈ header.line, isPrintable c = true := by
  intro c hc
  simp only [RequestHeader.line, List.mem_append, List.mem_cons] at hc
  rcases hc with hname | rfl | rfl | hvalue
  · exact (isTokenChar_facts c (header.name_token c hname)).1
  · rfl
  · rfl
  · exact header.value_printable c hvalue

theorem RequestHeader.line_ne (header : RequestHeader) : header.line ≠ [] := by
  simp [RequestHeader.line]

theorem methodToString_facts : ∀ httpMethod : Method,
    (∀ c ∈ methodToString httpMethod, isPrintable c = true ∧ c ≠ SP) ∧
      (httpMethod ≠ .unknown → parseMethod (methodToString httpMethod) = httpMethod) ∧
      methodToString httpMethod ≠ [] ∧ (methodToString httpMethod).head?.any isOws = false := by
  intro httpMethod
  cases httpMethod
  all_goals decide +kernel

theorem methodToString_length_le (httpMethod : Method) :
    (methodToString httpMethod).length ≤ 7 := by
  cases httpMethod
  all_goals decide

theorem WireRequest.requestLine_printable (request : WireRequest) :
    ∀ c ∈ request.requestLine, isPrintable c = true := by
  intro c hc
  simp only [RequestParts.requestLine, List.mem_append, List.mem_cons] at hc
  rcases hc with hmethod | rfl | huri | rfl | hversion
  · exact ((methodToString_facts request.httpMethod).1 c hmethod).1
  · rfl
  · exact (uriChar_facts c (request.uri_chars c huri)).1
  · rfl
  · revert c
    decide +kernel

/-- The head of a request, as a head of the parser. -/
def WireRequest.head (request : WireRequest) : RequestHead where
  requestLine := request.requestLine
  headerLines := request.headers.map RequestHeader.line
  requestLine_free := findCrlf_printable request.requestLine_printable
  headerLines_free := by
    intro line hline
    obtain ⟨header, -, rfl⟩ := List.mem_map.mp hline
    exact ⟨findCrlf_printable header.line_printable, header.line_ne⟩

/-- The checks in front of the loop pass. -/
theorem RequestHead.headChecked {head : RequestHead}
    (hvalid : ∀ line ∈ head.requestLine :: head.headerLines,
      containsInvalidHeaderValue line = false)
    (hbound : head.render.length ≤ MAX_HEADER_SIZE) (rest : List Byte) :
    Parser.headChecked (head.render ++ rest) = true := by
  have hpos : head.render.length ≠ 0 := by
    simp [RequestHead.render, Parser.crlf_length]
  have hbytes : hasInvalidByte none head.render = false := hasInvalidByte_textLines hvalid none
  unfold Parser.headChecked
  rw [Parser.findHeaderTerminator_render]
  dsimp only
  rw [if_pos hpos, List.take_left, hbytes, decide_eq_true hbound]
  rfl

theorem WireRequest.headChecked (request : WireRequest) (rest : List Byte) :
    Parser.headChecked (request.render ++ rest) = true := by
  have hrender : request.render ++ rest =
      request.head.render ++ (request.payload.render ++ rest) := by
    rw [RequestParts.render, List.append_assoc]
    rfl
  rw [hrender]
  have hbound : request.head.render.length ≤ MAX_HEADER_SIZE := request.head_bound
  apply RequestHead.headChecked _ hbound
  intro line hline
  rcases List.mem_cons.mp hline with rfl | hheader
  · exact printable_text request.requestLine_printable
  · obtain ⟨header, -, rfl⟩ := List.mem_map.mp hheader
    exact printable_text header.line_printable

theorem Payload.headers_framing (payload : Payload) : ∀ header ∈ payload.headers,
    header.name = bytesOf "Content-Length" ∨ header.name = bytesOf "Transfer-Encoding" := by
  intro header hheader
  cases payload with
  | none => cases hheader
  | length body =>
      rw [List.mem_singleton.mp hheader]
      exact .inl rfl
  | chunked chunks lastLine =>
      rw [List.mem_singleton.mp hheader]
      exact .inr rfl

theorem WireRequest.pairwise_distinct (request : WireRequest) :
    request.headers.Pairwise fun a b => ciEqual a.name b.name = false := by
  have hframing : ∀ header ∈ request.before ++ request.after, ∀ framed ∈ request.payload.headers,
      ciEqual framed.name header.name = false := by
    intro header hheader framed hframed
    rcases request.payload.headers_framing framed hframed with hname | hname
    · rw [hname]
      exact (request.headers_framing header hheader).1
    · rw [hname]
      exact (request.headers_framing header hheader).2
  obtain ⟨hbefore, hafter, hacross⟩ := List.pairwise_append.mp request.headers_distinct
  rw [RequestParts.headers, List.append_assoc, List.pairwise_append, List.pairwise_append]
  refine ⟨hbefore, ⟨?_, hafter, ?_⟩, ?_⟩
  · cases request.payload with
    | none => exact .nil
    | length body => exact List.pairwise_singleton _ _
    | chunked chunks lastLine => exact List.pairwise_singleton _ _
  · intro framed hframed header hheader
    exact hframing header (List.mem_append_right _ hheader) framed hframed
  · intro header hheader other hother
    rcases List.mem_append.mp hother with hframed | hlater
    · rw [ciEqual_comm]
      exact hframing header (List.mem_append_left _ hheader) other hframed
    · exact hacross header hheader other hlater

theorem WireRequest.headers_length (request : WireRequest) :
    request.headers.length ≤ MAX_HEADER_COUNT := by
  have hcount := request.headers_count
  have hframed : request.payload.headers.length ≤ 1 := by
    cases request.payload with
    | none => exact Nat.zero_le 1
    | length body => exact le_rfl
    | chunked chunks lastLine => exact le_rfl
  simp only [RequestParts.headers, List.length_append, MAX_HEADER_COUNT] at hcount ⊢
  omega

/-- A framing header that the payload does not have is nowhere in the request. -/
theorem WireRequest.absent (request : WireRequest) {name : List Byte}
    (hname : name = bytesOf "Content-Length" ∨ name = bytesOf "Transfer-Encoding")
    (hpayload : ∀ framed ∈ request.payload.headers, ciEqual framed.name name = false) :
    ∀ header ∈ request.headers, ciEqual header.name name = false := by
  intro header hheader
  have hother : header ∈ request.before ++ request.after → ciEqual header.name name = false := by
    intro hmem
    rw [ciEqual_comm]
    rcases hname with rfl | rfl
    · exact (request.headers_framing header hmem).1
    · exact (request.headers_framing header hmem).2
  rcases List.mem_append.mp hheader with hfront | hafter
  · rcases List.mem_append.mp hfront with hbefore | hframed
    · exact hother (List.mem_append_left _ hbefore)
    · exact hpayload header hframed
  · exact hother (List.mem_append_right _ hafter)

namespace Parser

/-! ## The passes over a head -/

/-- The request line and these headers have been read. -/
structure HeadRead (request : RequestParts) (done : List RequestHeader) (p : Parser) : Prop where
  state : p.state = .headers
  httpMethod : p.request.httpMethod = request.httpMethod
  uri : p.request.uri.read p.buffer = request.uri
  body : p.request.body = .null
  stored : ∀ header ∈ done,
    (p.request.headers.get p.buffer header.name).map (·.read p.buffer) = some header.value
  noOther : ∀ name, (∀ header ∈ done, ciEqual header.name name = false) →
    p.request.headers.get p.buffer name = none
  headerCount : p.headerCount = done.length
  chunkedBodySize : p.chunkedBodySize = 0

theorem unparsed_buffer {p : Parser} {line rest : List Byte}
    (hunparsed : p.unparsed = line ++ rest) : line <+: p.buffer.drop p.parsePos := by
  have hfront : p.unparsed <+: p.buffer.drop p.parsePos := by
    unfold unparsed bytes
    rw [List.drop_take]
    exact List.take_prefix _ _
  rw [hunparsed] at hfront
  exact (List.prefix_append line rest).trans hfront

theorem get_initial (memory name : List Byte) : ({} : HeadersMap).get memory name = none := by
  have hvacant : ∀ entry ∈ ({} : HeadersMap).unknown.slots,
      HeadersMap.hasName memory name entry = false := by
    intro entry hentry
    have hblank : entry = {} := by
      rw [SlotTable.slots, List.flatten_nil, List.append_nil] at hentry
      exact List.eq_of_mem_replicate hentry
    rw [hblank]
    rfl
  unfold HeadersMap.get
  split
  · unfold HeadersMap.getUnknown SlotTable.find?
    rw [List.find?_eq_none.mpr (by simpa using hvacant)]
    rfl
  next hknown =>
    unfold HeadersMap.getField SlotTable.find?
    rw [if_neg hknown, List.find?_eq_none.mpr, Option.map_none]
    intro entry hentry
    have hblank : entry = {} := by
      rw [SlotTable.slots, List.flatten_nil, List.append_nil] at hentry
      exact List.eq_of_mem_replicate hentry
    rw [hblank]
    simpa [HeadersMap.hasKey] using Ne.symm hknown

theorem processRequestLine_valid {httpMethod : Method} {uri : List Byte}
    (hmethod : httpMethod ≠ .unknown) (huri : ∀ c ∈ uri, 0x21 ≤ c ∧ c ≤ 0x7e)
    (hbound : uri.length ≤ MAX_URI_LENGTH) (start : ℕ) (p : Parser) :
    p.processRequestLine start
        (methodToString httpMethod ++ SP :: (uri ++ SP :: bytesOf "HTTP/1.1")) =
      ({ p with
          request :=
            { p.request with
              httpMethod := httpMethod
              uri := .buffer (start + ((methodToString httpMethod).length + 1)) uri.length } },
        .ok ()) := by
  obtain ⟨hprintable, hparse, hne, hblank⟩ := methodToString_facts httpMethod
  have hspace : SP ∉ methodToString httpMethod := fun hmem => (hprintable SP hmem).2 rfl
  have huriSpace : SP ∉ uri := fun hmem => (uriChar_facts SP (huri SP hmem)).2.1 rfl
  have hvalid : containsInvalidUriChar uri = false := by
    unfold containsInvalidUriChar
    rw [List.any_eq_false]
    intro c hc
    rw [(uriChar_facts c (huri c hc)).2.2]
    exact Bool.false_ne_true
  generalize hline : methodToString httpMethod ++ SP :: (uri ++ SP :: bytesOf "HTTP/1.1") = line
  have hfirst : findByte SP line = some (methodToString httpMethod).length := by
    rw [← hline]
    exact findByte_append hspace _
  have hdrop : line.drop ((methodToString httpMethod).length + 1) =
      uri ++ SP :: bytesOf "HTTP/1.1" := by
    rw [← hline, ← List.drop_drop, List.drop_left]
    rfl
  have hversion : line.drop ((methodToString httpMethod).length + 1 + uri.length + 1) =
      bytesOf "HTTP/1.1" := by
    rw [← List.drop_drop, ← List.drop_drop, hdrop, List.drop_left]
    rfl
  have hends : (line = [] || line.head?.any isOws || line.getLast?.any isOws) = false := by
    have hlast : line.getLast? = some 49 := by
      rw [← hline, List.getLast?_append, List.getLast?_cons, List.getLast?_append,
        List.getLast?_cons]
      rfl
    rw [hlast, ← hline, List.head?_append_of_ne_nil _ hne, hblank]
    simp [isOws, SP, HTAB]
  have htake : line.take (methodToString httpMethod).length = methodToString httpMethod := by
    rw [← hline, List.take_left]
  have hsecond : findByte SP (uri ++ SP :: bytesOf "HTTP/1.1") = some uri.length :=
    findByte_append huriSpace _
  unfold processRequestLine
  rw [hends, if_neg Bool.false_ne_true, hfirst]
  dsimp only
  rw [htake, hparse hmethod, if_neg hmethod, hdrop, hsecond]
  dsimp only
  rw [List.take_left, if_neg (Nat.not_lt.mpr hbound), hvalid, if_neg Bool.false_ne_true, hversion,
    if_neg (not_not.mpr rfl)]

theorem processRequestLine_wire (request : WireRequest) (start : ℕ) (p : Parser) :
    p.processRequestLine start request.requestLine =
      ({ p with
          request :=
            { p.request with
              httpMethod := request.httpMethod
              uri := .buffer (start + ((methodToString request.httpMethod).length + 1))
                request.uri.length } }, .ok ()) :=
  processRequestLine_valid request.method_known request.uri_chars request.uri_bound start p

/-- The pass over a request line that may be sent. -/
theorem Ready.requestPass {request : WireRequest} {rest : List Byte} {p : Parser}
    (h : Ready (request.requestLine ++ CRLF ++ rest) p) :
    ∃ uri q, p.parsePass = .again q ∧
      q = ({ p with
        state := .headers
        request := { p.request with httpMethod := request.httpMethod, uri := uri }
        parsePos := p.parsePos + request.requestLine.length + 2 } : Parser) ∧
      uri.read p.buffer = request.uri ∧ q.unparsed = rest := by
  have hfields : p.state = .requestLine ∧ p.parsePos = 0 := by
    rw [h.same]
    exact ⟨rfl, rfl⟩
  obtain ⟨hstate, hpos⟩ := hfields
  have hunparsed : p.unparsed = request.requestLine ++ CRLF ++ rest := by
    rw [unparsed, hpos, List.drop_zero, h.bytes]
  have hfree := findCrlf_printable request.requestLine_printable
  have hcall := withLine_line true .requestLine useRequestLine hunparsed hfree
  rw [Bool.true_and, hasInvalidByte_line request.requestLine_printable,
    if_neg Bool.false_ne_true, useRequestLine, processRequestLine_wire] at hcall
  have hnext : p.nextState = p.parseRequestLineState := by
    unfold nextState
    rw [hstate]
  have hpass := parsePass_of_ok (by simp [hstate]) (hnext.trans hcall) (.inl (by
    dsimp only
    omega))
  have hline : request.requestLine <+: p.buffer.drop p.parsePos := by
    rw [List.append_assoc] at hunparsed
    exact unparsed_buffer hunparsed
  refine ⟨_, _, hpass, rfl, ?_, ?_⟩
  · obtain ⟨tail, htail⟩ := hline
    rw [View.read_buffer, ← List.drop_drop, ← htail, ← List.drop_drop]
    rw [RequestParts.requestLine, List.append_assoc, List.drop_left, List.drop_one,
      List.cons_append, List.tail_cons, List.append_assoc, List.take_left]
  · have hmoved := unparsed_withPos hunparsed
    rwa [List.length_append, crlf_length, ← Nat.add_assoc] at hmoved

/-- The request line. -/
theorem Ready.requestRead {request : WireRequest} {rest : List Byte} {p : Parser}
    (h : Ready (request.render ++ rest) p) :
    ∃ q, p.parsePass = .again q ∧ HeadRead request.toRequestParts [] q ∧
      q.unparsed = renderLines (request.headers.map RequestHeader.line) ++
        (CRLF ++ (request.payload.render ++ rest)) := by
  have hfields : p.request = {} ∧ p.headerCount = 0 ∧ p.chunkedBodySize = 0 := by
    rw [h.same]
    exact ⟨rfl, rfl, rfl⟩
  obtain ⟨hrequest, hcount, hbody⟩ := hfields
  have hrender : request.render ++ rest = request.requestLine ++ CRLF ++
      (renderLines (request.headers.map RequestHeader.line) ++
        (CRLF ++ (request.payload.render ++ rest))) := by
    rw [RequestParts.render, RequestParts.renderHead, renderLines_cons]
    simp only [List.append_assoc]
  rw [hrender] at h
  obtain ⟨uri, q, hpass, rfl, huri, hunparsed⟩ := h.requestPass
  refine ⟨_, hpass, ⟨rfl, rfl, huri, ?_, by simp, ?_, hcount, hbody⟩, hunparsed⟩
  · dsimp only
    rw [hrequest]
  · intro name _
    dsimp only
    rw [hrequest]
    exact get_initial _ name

/-- One header line. -/
theorem HeadRead.header {request : RequestParts} {done : List RequestHeader} {p : Parser}
    (h : HeadRead request done p) {header : RequestHeader} {rest : List Byte}
    (hunparsed : p.unparsed = header.line ++ CRLF ++ rest)
    (hcount : done.length < MAX_HEADER_COUNT) (hshort : header.line.length < 2 ^ 16)
    (hdistinct : ∀ d ∈ done, ciEqual d.name header.name = false) :
    ∃ q, p.parsePass = .again q ∧ HeadRead request (done ++ [header]) q ∧ q.unparsed = rest := by
  have hcolon : (58 : Byte) ∉ header.name := fun hmem =>
    (isTokenChar_facts 58 (header.name_token 58 hmem)).2.1 rfl
  have hfound : findByte 58 header.line = some header.name.length := findByte_append hcolon _
  have hname : header.line.take header.name.length = header.name := List.take_left
  have hvalue : trimOws (header.line.drop (header.name.length + 1)) = header.value := by
    have hdrop : header.line.drop (header.name.length + 1) = SP :: header.value := by
      rw [RequestHeader.line, ← List.drop_drop, List.drop_left]
      rfl
    rw [hdrop]
    exact header.value_trimmed
  have hblank : header.line.head?.any isOws = false := by
    rw [RequestHeader.line, List.head?_append_of_ne_nil _ header.name_ne,
      List.head?_eq_some_head header.name_ne, Option.any_some]
    exact (isTokenChar_facts _ (header.name_token _ (List.head_mem _))).2.2
  have hprintable := header.line_printable
  have hcall := withLine_line true .headers useHeaderLine hunparsed
    (findCrlf_printable hprintable)
  rw [Bool.true_and, hasInvalidByte_line hprintable, if_neg Bool.false_ne_true] at hcall
  have hline : header.line <+: p.buffer.drop p.parsePos := by
    rw [List.append_assoc] at hunparsed
    exact unparsed_buffer hunparsed
  generalize hmoved : ({ p with parsePos := p.parsePos + header.line.length + 2 } : Parser) = r
    at hcall
  have haccepted : r.HeaderAccepted header.line header.name.length := by
    rw [← hmoved]
    refine ⟨?_, hfound, ?_, ?_, ?_⟩
    · exact h.headerCount ▸ hcount
    · rw [hname]
      exact header.name_ne
    · rw [hname, List.all_eq_true]
      exact header.name_token
    · rw [hvalue, containsInvalidHeaderValue, List.any_eq_false]
      intro c hc
      rw [(isPrintable_facts c (header.value_printable c hc)).2.2.2]
      exact Bool.false_ne_true
  obtain ⟨length, hstored⟩ := processHeaderLine_accepted p.parsePos haccepted
  rw [useHeaderLine, if_neg header.line_ne, hblank, if_neg Bool.false_ne_true, hstored] at hcall
  have hnext : p.nextState = p.parseHeadersState := by
    unfold nextState
    rw [h.state]
  have hbuffer : r.buffer = p.buffer := by
    rw [← hmoved]
  have hrequest : r.request = p.request := by
    rw [← hmoved]
  have hpass := parsePass_of_ok (by rw [h.state]; simp) (hnext.trans hcall) (.inl (by
    have hpos : r.parsePos = p.parsePos + header.line.length + 2 := by
      rw [← hmoved]
    show r.parsePos ≠ p.parsePos
    omega))
  rw [← hbuffer] at hline
  have hself := get_storeHeader_self hline hfound hshort
  have hother : ∀ name, ciEqual header.name name = false →
      (r.storeHeader p.parsePos header.line header.name.length).request.headers.get r.buffer name =
        p.request.headers.get p.buffer name := by
    intro name hne
    rw [← hname] at hne
    rw [get_storeHeader_other hline hfound hshort hne, hbuffer, hrequest]
  rw [hname, hvalue] at hself
  refine ⟨_, hpass, ⟨rfl, ?_, ?_, ?_, ?_, ?_, ?_, ?_⟩, ?_⟩
  · show r.request.httpMethod = request.httpMethod
    rw [hrequest]
    exact h.httpMethod
  · show r.request.uri.read r.buffer = request.uri
    rw [hrequest, hbuffer]
    exact h.uri
  · show r.request.body = .null
    rw [hrequest]
    exact h.body
  · intro d hd
    rcases List.mem_append.mp hd with hold | hnew
    · have hne : ciEqual header.name d.name = false := by
        rw [ciEqual_comm]
        exact hdistinct d hold
      have hstill := h.stored d hold
      rw [← hother d.name hne, ← hbuffer] at hstill
      exact hstill
    · rw [List.mem_singleton.mp hnew]
      exact hself
  · intro name hnone
    have hold := h.noOther name fun d hd => hnone d (List.mem_append_left _ hd)
    rw [← hother name (hnone header (by simp))] at hold
    exact hold
  · show r.headerCount + 1 = _
    rw [List.length_append, List.length_singleton, ← h.headerCount, ← hmoved]
  · show r.chunkedBodySize = 0
    rw [← hmoved]
    exact h.chunkedBodySize
  · show r.unparsed = rest
    have hrest := unparsed_withPos hunparsed
    rwa [List.length_append, crlf_length, ← Nat.add_assoc, hmoved] at hrest

/-- All header lines, by induction from one. -/
theorem HeadRead.headers {request : RequestParts} {headers done : List RequestHeader} {p : Parser}
    (h : HeadRead request done p) {rest : List Byte}
    (hunparsed : p.unparsed = renderLines (headers.map RequestHeader.line) ++ rest)
    (hcount : (done ++ headers).length ≤ MAX_HEADER_COUNT)
    (hshort : (renderLines (headers.map RequestHeader.line)).length < 2 ^ 16)
    (hdistinct : (done ++ headers).Pairwise fun a b => ciEqual a.name b.name = false) :
    ∃ q, Passes parsePass p q ∧ HeadRead request (done ++ headers) q ∧ q.unparsed = rest := by
  induction headers generalizing done p with
  | nil =>
      refine ⟨p, .refl p, ?_, hunparsed⟩
      rwa [List.append_nil]
  | cons header headers ih =>
      rw [List.map_cons, renderLines_cons] at hunparsed hshort
      simp only [List.length_append, crlf_length] at hshort
      rw [List.append_assoc] at hunparsed
      have hsplit : done ++ header :: headers = done ++ [header] ++ headers := by simp
      rw [hsplit] at hcount hdistinct ⊢
      have hnew : ∀ d ∈ done, ciEqual d.name header.name = false := by
        intro d hd
        exact (List.pairwise_append.mp (List.pairwise_append.mp hdistinct).1).2.2 d hd header
          (by simp)
      have hlength := hcount
      simp only [List.length_append, List.length_singleton] at hlength
      obtain ⟨q, hpass, hq, hrest⟩ := h.header hunparsed (by omega) (by omega) hnew
      obtain ⟨last, hpasses, hlast, hend⟩ := ih hq hrest hcount (by omega) hdistinct
      exact ⟨last, .head hpass hpasses, hlast, hend⟩

/-! ## The passes over a body -/

/-- Behind the header section only the body of the request is written. -/
structure SameHead (p q : Parser) : Prop where
  outside : q.inHeaderSection = false
  request : q.request = { p.request with body := q.request.body }
  buffer : q.buffer = p.buffer

theorem nextState_request {p q : Parser} {state : ParserState}
    (hsection : p.inHeaderSection = false) (hnext : p.nextState = (q, .ok state)) :
    q.request = { p.request with body := q.request.body } := by
  have hline : ∀ (stay : ParserState) (use : ℕ → List Byte → Parser → Parsed ParserState),
      (∀ start line (s : Parser),
        (use start line s).1.request = { s.request with body := (use start line s).1.request.body }) →
      p.withLine false stay use = (q, .ok state) →
      q.request = { p.request with body := q.request.body } := by
    intro stay use huse heq
    rcases withLine_cases false stay use p with
      ⟨-, heq'⟩ | ⟨length, -, ⟨hchecked, -⟩ | ⟨-, heq'⟩⟩
    · rw [heq] at heq'
      cases heq'
      rfl
    · cases hchecked
    · have hrequest := huse p.parsePos (p.unparsed.take length)
        { p with parsePos := p.parsePos + length + 2 }
      rw [← heq', heq] at hrequest
      exact hrequest
  unfold nextState at hnext
  cases hstate : p.state with
  | requestLine => simp [inHeaderSection, hstate] at hsection
  | headers => simp [inHeaderSection, hstate] at hsection
  | body =>
      rw [hstate] at hnext
      dsimp only [parseBodyState] at hnext
      split at hnext
      all_goals
        cases hnext
        rfl
  | chunkSize =>
      rw [hstate] at hnext
      apply hline .chunkSize useChunkSizeLine _ hnext
      intro start line s
      unfold useChunkSizeLine
      split
      · split
        · rfl
        dsimp only
        split
        · rfl
        split
        all_goals rfl
      · rfl
  | chunkData =>
      rw [hstate] at hnext
      dsimp only [parseChunkDataState] at hnext
      split at hnext
      · split at hnext
        all_goals
          cases hnext
        rfl
      · cases hnext
        rfl
  | chunkTrailer =>
      rw [hstate] at hnext
      exact hline .chunkTrailer useTrailerLine (fun _ _ _ => rfl) hnext
  | complete =>
      rw [hstate] at hnext
      cases hnext
      rfl

theorem passes_sameHead {p q : Parser} (hsection : p.inHeaderSection = false)
    (hpasses : Passes parsePass p q) : p.SameHead q := by
  have hpass : ∀ s next : Parser, p.SameHead s → s.parsePass = .again next → p.SameHead next := by
    intro s next hs hpass
    obtain ⟨-, t, state, hnext, rfl, -⟩ := (parsePass_again_iff).mp hpass
    have hout := nextState_outside hs.outside (congrArg Prod.snd hnext)
    have hadv := nextState_advances s
    rw [hnext] at hadv
    constructor
    · simp [inHeaderSection, hout]
    · have hrequest := nextState_request hs.outside hnext
      rw [hs.request] at hrequest
      exact hrequest
    · exact hadv.input.buffer.trans hs.buffer
  exact hpasses.invariant hpass ⟨hsection, rfl, rfl⟩

/-- The parser has taken this request, and its views show it. -/
structure Carries (request : RequestParts) (p : Parser) : Prop where
  complete : p.state = .complete
  httpMethod : p.request.httpMethod = request.httpMethod
  uri : p.request.uri.read p.buffer = request.uri
  headers : ∀ header ∈ request.headers,
    (p.request.headers.get p.buffer header.name).map (·.read p.buffer) = some header.value
  noOther : ∀ name, (∀ header ∈ request.headers, ciEqual header.name name = false) →
    p.request.headers.get p.buffer name = none
  body : p.request.body.read p.buffer = request.payload.body

/-- Once the header section is read, a message is carried when its body is read. -/
theorem HeadRead.carries {request : RequestParts} {p last : Parser}
    (h : HeadRead request request.headers p)
    (hrequest : last.request = { p.request with body := last.request.body })
    (hbuffer : last.buffer = p.buffer) (hcomplete : last.state = .complete)
    (hbody : last.request.body.read last.buffer = request.payload.body) :
    Carries request last := by
  refine ⟨hcomplete, ?_, ?_, ?_, ?_, hbody⟩
  · rw [hrequest]
    exact h.httpMethod
  · rw [hrequest, hbuffer]
    exact h.uri
  · rw [hrequest, hbuffer]
    exact h.stored
  · rw [hrequest, hbuffer]
    exact h.noOther

theorem getField_transferEncoding (memory : List Byte) (m : HeadersMap) :
    m.getField .transferEncoding = m.get memory (bytesOf "Transfer-Encoding") := by
  unfold HeadersMap.get
  rw [(stringToField_eq_transferEncoding).mpr (ciEqual_refl _), if_neg nofun]

theorem getField_contentLength (memory : List Byte) (m : HeadersMap) :
    m.getField .contentLength = m.get memory (bytesOf "Content-Length") := by
  unfold HeadersMap.get
  rw [(stringToField_eq_contentLength).mpr (ciEqual_refl _), if_neg nofun]

/-! The three outcomes of the framing decision. -/

theorem endHeaders_none {p : Parser}
    (hte : p.request.headers.get p.buffer (bytesOf "Transfer-Encoding") = none)
    (hcl : p.request.headers.get p.buffer (bytesOf "Content-Length") = none) :
    p.endHeaders = (p, .ok .complete) := by
  rw [← getField_transferEncoding] at hte
  rw [← getField_contentLength] at hcl
  unfold endHeaders
  rw [hte, hcl]
  rfl

theorem endHeaders_length {p : Parser} {length : ℕ}
    (hte : p.request.headers.get p.buffer (bytesOf "Transfer-Encoding") = none)
    (hcl : (p.request.headers.get p.buffer (bytesOf "Content-Length")).map (·.read p.buffer) =
      some (contentLengthHeader length).value) (hbound : length ≤ MAX_BODY_SIZE) :
    p.endHeaders = ({ p with contentLength := length }, .ok .body) := by
  have hmax : MAX_BODY_SIZE < 2 ^ 64 := by
    decide
  obtain ⟨value, hvalue, hread⟩ := Option.map_eq_some_iff.mp hcl
  have htrim : (value.read p.buffer).rdropWhile isOws = toChars 10 length := by
    rw [hread, ← (contentLengthHeader length).value_trimmed, rdropWhile_trimOws,
      (contentLengthHeader length).value_trimmed]
    rfl
  rw [← getField_transferEncoding] at hte
  rw [← getField_contentLength] at hvalue
  unfold endHeaders
  rw [hte, hvalue]
  dsimp only [Option.map_none, Option.any_none]
  rw [if_neg Bool.false_ne_true, htrim, fromChars_toChars (by omega)]
  dsimp only
  rw [if_neg (by omega)]

theorem endHeaders_chunked {p : Parser}
    (hte : (p.request.headers.get p.buffer (bytesOf "Transfer-Encoding")).map (·.read p.buffer) =
      some transferEncodingHeader.value) :
    p.endHeaders = ({ p with isChunked := true }, .ok .chunkSize) := by
  rw [← getField_transferEncoding] at hte
  have hchunked : (some transferEncodingHeader.value).any
      (fun value => ciEqual value (bytesOf "chunked")) = true := by
    rw [Option.any_some]
    exact ciEqual_refl _
  unfold endHeaders
  dsimp only
  rw [hte, if_pos hchunked]

/-- The empty line behind the header lines leads to the framing decision. -/
theorem HeadRead.emptyLine {request : RequestParts} {done : List RequestHeader} {p : Parser}
    (h : HeadRead request done p) {rest : List Byte} (hunparsed : p.unparsed = CRLF ++ rest) :
    p.nextState = endHeaders { p with parsePos := p.parsePos + 2 } ∧
      ({ p with parsePos := p.parsePos + 2 } : Parser).unparsed = rest := by
  have hempty : p.unparsed = [] ++ CRLF ++ rest := hunparsed
  have hcall := withLine_line true .headers useHeaderLine hempty rfl
  have hnext : p.nextState = p.parseHeadersState := by
    unfold nextState
    rw [h.state]
  rw [Bool.true_and, hasInvalidByte_line (List.forall_mem_nil _), if_neg Bool.false_ne_true] at hcall
  exact ⟨hnext.trans hcall, unparsed_withPos hunparsed⟩

/-- A message without a body ends at the empty line. -/
theorem HeadRead.finish_none {request : RequestParts} {rest : List Byte} {p : Parser}
    (h : HeadRead request request.headers p) (hpayload : request.payload = .none)
    (hte : ∀ header ∈ request.headers, ciEqual header.name (bytesOf "Transfer-Encoding") = false)
    (hcl : ∀ header ∈ request.headers, ciEqual header.name (bytesOf "Content-Length") = false)
    (hunparsed : p.unparsed = CRLF ++ rest) :
    ∃ q, Passes parsePass p q ∧ Carries request q ∧ q.unparsed = rest := by
  obtain ⟨hnext, hrest⟩ := h.emptyLine hunparsed
  generalize hq : ({ p with parsePos := p.parsePos + 2 } : Parser) = q at hnext hrest
  have hrequest : q.request = p.request := by
    rw [← hq]
  have hbuffer : q.buffer = p.buffer := by
    rw [← hq]
  rw [endHeaders_none (by rw [hrequest, hbuffer]; exact h.noOther _ hte)
    (by rw [hrequest, hbuffer]; exact h.noOther _ hcl)] at hnext
  have hpass := parsePass_of_ok (by rw [h.state]; nofun) hnext (.inr rfl)
  refine ⟨_, .head hpass (.refl _), ?_, hrest⟩
  refine h.carries ?_ hbuffer rfl ?_
  · show q.request = { p.request with body := q.request.body }
    rw [hrequest]
  · show q.request.body.read q.buffer = request.payload.body
    rw [hrequest, h.body, hpayload]
    rfl

/-- The pass over a body of a known length that is there. -/
theorem parsePass_body {p : Parser} {body rest : List Byte} (hstate : p.state = .body)
    (hlength : p.contentLength = body.length) (hunparsed : p.unparsed = body ++ rest) :
    p.parsePass = .again
      { p with
        state := .complete
        request := { p.request with body := .buffer p.parsePos body.length }
        parsePos := p.parsePos + body.length } := by
  have hroom : p.bufferSize - p.parsePos ≥ p.contentLength := by
    have hle := unparsed_length_le p
    rw [hunparsed, List.length_append] at hle
    omega
  have hnext : p.nextState =
      ({ p with
          request := { p.request with body := .buffer p.parsePos body.length }
          parsePos := p.parsePos + body.length }, .ok .complete) := by
    have hcall : p.nextState = p.parseBodyState := by
      unfold nextState
      rw [hstate]
    rw [hcall, parseBodyState, if_pos hroom, hlength]
  exact parsePass_of_ok (by simp [hstate]) hnext (.inr rfl)

/-- A body of a known length. -/
theorem HeadRead.finish_length {request : RequestParts} {body rest : List Byte} {p : Parser}
    (h : HeadRead request request.headers p) (hpayload : request.payload = .length body)
    (hbound : body.length ≤ MAX_BODY_SIZE)
    (hte : ∀ header ∈ request.headers, ciEqual header.name (bytesOf "Transfer-Encoding") = false)
    (hunparsed : p.unparsed = CRLF ++ (body ++ rest)) :
    ∃ q, Passes parsePass p q ∧ Carries request q ∧ q.unparsed = rest := by
  obtain ⟨hnext, hrest⟩ := h.emptyLine hunparsed
  have hcl := h.stored (contentLengthHeader body.length) (by
    rw [RequestParts.headers, hpayload]
    simp [Payload.headers])
  rw [endHeaders_length (p := { p with parsePos := p.parsePos + 2 }) (h.noOther _ hte) hcl
    hbound] at hnext
  have hpass := parsePass_of_ok (by rw [h.state]; nofun) hnext (.inl (by
    dsimp only
    omega))
  generalize hq : ({ p with
    parsePos := p.parsePos + 2, contentLength := body.length, state := .body } : Parser) = q
      at hpass
  have hunparsed' : q.unparsed = body ++ rest := by
    rw [← hq]
    exact hrest
  have hfields : q.state = .body ∧ q.contentLength = body.length ∧ q.request = p.request ∧
      q.buffer = p.buffer := by
    rw [← hq]
    exact ⟨rfl, rfl, rfl, rfl⟩
  obtain ⟨hstate, hlength, hrequest, hbuffer⟩ := hfields
  have hpass' := parsePass_body hstate hlength hunparsed'
  refine ⟨_, .head hpass (.head hpass' (.refl _)), ?_, ?_⟩
  · refine h.carries ?_ hbuffer rfl ?_
    · dsimp only
      rw [hrequest]
    · obtain ⟨tail, htail⟩ := unparsed_buffer hunparsed'
      dsimp only
      rw [View.read_buffer, ← htail, List.take_left, hpayload]
      rfl
  · exact unparsed_withPos hunparsed'

/-- A chunked body. -/
theorem HeadRead.finish_chunked {request : RequestParts} {chunks : List Chunk}
    {lastLine : SizeLine 0} {rest : List Byte} {p : Parser}
    (h : HeadRead request request.headers p) (hpayload : request.payload = .chunked chunks lastLine)
    (hbound : (chunksBody chunks).length ≤ MAX_BODY_SIZE)
    (hunparsed : p.unparsed =
      CRLF ++ (renderChunks chunks ++ (lastLine.render ++ CRLF ++ (CRLF ++ rest)))) :
    ∃ q, Passes parsePass p q ∧ Carries request q ∧ q.unparsed = rest := by
  obtain ⟨hnext, hrest⟩ := h.emptyLine hunparsed
  have hte := h.stored transferEncodingHeader (by
    rw [RequestParts.headers, hpayload]
    simp [Payload.headers])
  rw [endHeaders_chunked (p := { p with parsePos := p.parsePos + 2 }) hte] at hnext
  have hpass := parsePass_of_ok (by rw [h.state]; nofun) hnext (.inl (by
    dsimp only
    omega))
  generalize hq : ({ p with
    parsePos := p.parsePos + 2, isChunked := true, state := .chunkSize } : Parser) = q at hpass
  have hfields : q.state = .chunkSize ∧ q.chunkedBodySize = 0 ∧ q.request = p.request ∧
      q.buffer = p.buffer := by
    rw [← hq]
    exact ⟨rfl, h.chunkedBodySize, rfl, rfl⟩
  obtain ⟨hstate, hnone, hrequest, hbuffer⟩ := hfields
  have hgathered : Gathered [] (renderChunks chunks ++
      (lastLine.render ++ CRLF ++ (CRLF ++ rest))) q := by
    refine ⟨hstate, hnone, ?_, ?_⟩
    · rw [hnone, List.take_zero]
    · rw [← hq]
      exact hrest
  obtain ⟨middle, hchunks, hmiddle⟩ := hgathered.chunks hbound
  rw [List.nil_append] at hmiddle
  obtain ⟨last, hfinish, hcomplete, hbody, hend⟩ :=
    @Gathered.finish lastLine [] _ rest _ hmiddle (List.forall_mem_nil _) hbound
  have hpasses := hchunks.trans hfinish
  have houtside : q.inHeaderSection = false := by
    simp [inHeaderSection, hstate]
  refine ⟨last, .head hpass hpasses, ?_, hend⟩
  have hsame := passes_sameHead houtside hpasses
  refine h.carries ?_ (hsame.buffer.trans hbuffer) hcomplete ?_
  · have hkept := hsame.request
    rwa [hrequest] at hkept
  · rw [hbody, hpayload]
    rfl

/-! ## One message after another -/

theorem HeadRead.finish {request : WireRequest} {rest : List Byte} {p : Parser}
    (h : HeadRead request.toRequestParts request.headers p)
    (hunparsed : p.unparsed = CRLF ++ (request.payload.render ++ rest)) :
    ∃ q, Passes parsePass p q ∧ Carries request.toRequestParts q ∧ q.unparsed = rest := by
  have hbound := request.body_bound
  have hte := request.absent (.inr rfl)
  have hcl := request.absent (.inl rfl)
  cases hpayload : request.payload with
  | none =>
      rw [hpayload] at hunparsed hte hcl
      exact h.finish_none hpayload (hte (List.forall_mem_nil _)) (hcl (List.forall_mem_nil _))
        hunparsed
  | length body =>
      rw [hpayload] at hunparsed hte hbound
      refine h.finish_length hpayload hbound (hte ?_) hunparsed
      intro framed hframed
      rw [List.mem_singleton.mp hframed]
      show ciEqual (bytesOf "Content-Length") (bytesOf "Transfer-Encoding") = false
      decide
  | chunked chunks lastLine =>
      rw [hpayload] at hunparsed hbound
      refine h.finish_chunked hpayload hbound ?_
      rw [hunparsed, Payload.render]
      simp only [List.append_assoc]

/-- The parser has taken this request, and its checks keep passing. -/
structure Taken (request : RequestParts) (rest : List Byte) (p : Parser) : Prop where
  carries : Carries request p
  unparsed : p.unparsed = rest
  safe : p.Safe
  headerEndPos : p.headerEndPos ≠ 0 ∧ p.headerEndPos ≤ MAX_HEADER_SIZE

theorem parsePass_complete {p : Parser} (h : p.state = .complete) :
    p.parsePass = .done (p, .ok .complete) := by
  unfold parsePass
  rw [if_pos h]

/-- One request at the start of the buffer, with anything behind it. -/
theorem Fresh.taken {request : WireRequest} {rest : List Byte} {p : Parser}
    (h : Fresh (request.render ++ rest) p) :
    ∃ q, p.parseAvailable = (q, .ok .complete) ∧ Taken request.toRequestParts rest q := by
  have hchecked := request.headChecked rest
  rcases h.parseAvailable with ⟨hbad, -⟩ | ⟨-, checked, hloop, hready, -⟩
  · rw [hchecked] at hbad
    cases hbad
  have hrender : request.render ++ rest =
      request.head.render ++ (request.payload.render ++ rest) := by
    rw [RequestParts.render, List.append_assoc]
    rfl
  have hbound : request.head.render.length ≤ MAX_HEADER_SIZE := request.head_bound
  have hshort : (renderLines (request.headers.map RequestHeader.line)).length < 2 ^ 16 := by
    have hmax : MAX_HEADER_SIZE < 2 ^ 16 := by
      decide
    have hlines : (renderLines (request.headers.map RequestHeader.line)).length ≤
        request.head.render.length := by
      rw [RequestHead.render, renderLines_cons]
      simp only [List.length_append]
      show _ ≤ _ + (renderLines (request.headers.map RequestHeader.line)).length + _
      omega
    omega
  obtain ⟨first, hpass, hfirst, hlines⟩ := hready.requestRead
  obtain ⟨read, hpasses, hread, hempty⟩ := hfirst.headers hlines
    (by simpa using request.headers_length) hshort (by simpa using request.pairwise_distinct)
  rw [List.nil_append] at hread
  obtain ⟨q, hfinish, hcarries, hrest⟩ := hread.finish hempty
  have hall : Passes parsePass checked q := .head hpass (hpasses.trans hfinish)
  refine ⟨q, ?_, hcarries, hrest, passes_safe hready.safe hall, ?_⟩
  · rw [hloop]
    exact parseLoop_eq (.of_passes hall (.of_done (parsePass_complete hcarries.complete)))
  · rw [(passes_input hall).2, hready.headerEndPos, hrender, findHeaderTerminator_render]
    refine ⟨?_, hbound⟩
    simp [RequestHead.render, crlf_length]

/-- Nothing happens when a message that has been taken is parsed again. -/
theorem Taken.parseAvailable {request : RequestParts} {rest : List Byte} {p : Parser}
    (h : Taken request rest p) : p.parseAvailable = (p, .ok .complete) := by
  have hcomplete := h.carries.complete
  have houtside : p.inHeaderSection = false := by
    simp [inHeaderSection, hcomplete]
  have hlimit : p.exceedsSizeLimit = false := by
    obtain ⟨hne, hle⟩ := h.headerEndPos
    unfold exceedsSizeLimit
    simp [hcomplete, hne, hle]
  unfold Parser.parseAvailable
  rw [checkInput_outside houtside, hlimit, if_neg Bool.false_ne_true]
  exact parseLoop_eq (.of_done (parsePass_complete hcomplete))

/-- The bytes behind a message are the input for the next one. -/
theorem Taken.prepareForNextRequest {request : RequestParts} {rest : List Byte} {p : Parser}
    (h : Taken request rest p) : Fresh rest p.prepareForNextRequest := by
  have hsafe := prepareForNextRequest_safe h.safe
  have hinside := h.safe.parsePos
  have hwritten := h.safe.written
  have hrest := h.unparsed
  have hbuffered : p.unparsed.length = p.bufferedBytes := by
    rw [Parser.unparsed, List.length_drop, bytes_length hwritten]
    rfl
  refine ⟨rfl, ?_, hsafe⟩
  rw [hrest] at hbuffered
  show (p.prepareForNextRequest).buffer.take p.prepareForNextRequest.bufferSize = rest
  unfold Parser.prepareForNextRequest
  dsimp only
  split
  next hnone =>
    rw [hnone, List.length_eq_zero_iff] at hbuffered
    rw [hbuffered]
    rfl
  split
  · show ((p.buffer.drop p.parsePos).take p.bufferedBytes ++ p.buffer.drop p.bufferedBytes).take
      p.bufferedBytes = rest
    have hfront : (p.buffer.drop p.parsePos).take p.bufferedBytes = rest := by
      rw [← hrest, Parser.unparsed, bytes, List.drop_take]
      rfl
    rw [hfront, ← hbuffered, List.take_left]
  · have hzero : p.parsePos = 0 := by
      omega
    rw [Parser.unparsed, hzero, List.drop_zero] at hrest
    exact hrest

/-- Alternate `parse_available` and `prepare_for_next_request` as long as
messages are complete: the parsers that hold them, and the last parser. -/
def drain : ℕ → Parser → List Parser × Parser
  | 0, p => ([], p)
  | rounds + 1, p =>
      match p.parseAvailable with
      | (q, .ok .complete) =>
          (q :: (drain rounds q.prepareForNextRequest).1,
            (drain rounds q.prepareForNextRequest).2)
      | (q, _) => ([], q)

theorem Fresh.drain_nil {p : Parser} (h : Fresh [] p) (rounds : ℕ) :
    (p.drain (rounds + 1)).1 = [] ∧ (p.drain (rounds + 1)).2.bufferedBytes = 0 := by
  rcases h.parseAvailable with ⟨hbad, -⟩ | ⟨-, q, hloop, hready, -⟩
  · exact absurd hbad (by decide)
  have hstate : q.state = .requestLine := by
    rw [hready.same]
    rfl
  have hwait : q.Waits := by
    constructor
    · rw [hstate]
      nofun
    · have hnone : q.unparsed = [] := by
        rw [Parser.unparsed, hready.bytes, List.drop_nil]
      have hcall : q.nextState = q.parseRequestLineState := by
        unfold nextState
        rw [hstate]
      rw [hcall, parseRequestLineState, withLine, hnone, hstate]
      rfl
  have hsize : q.bufferSize = 0 := by
    rw [← bytes_length hready.safe.written, hready.bytes]
    rfl
  have hpos : q.parsePos = 0 := by
    rw [hready.same]
    rfl
  have hkept : q.stall = q := by
    apply stall_eq
    simp [stallDrops, hsize, hpos]
  rw [parseLoop_eq (.of_done (parsePass_of_waits hwait)), hkept, hstate] at hloop
  unfold drain
  rw [hloop]
  refine ⟨rfl, ?_⟩
  show q.bufferSize - q.parsePos = 0
  omega

/-- All requests in the buffer, by induction from one. -/
theorem Fresh.drain {requests : List WireRequest} {p : Parser}
    (h : Fresh (requests.flatMap (·.render)) p) {rounds : ℕ} (hrounds : requests.length < rounds) :
    List.Forall₂ (fun request q => Carries request.toRequestParts q) requests (p.drain rounds).1 ∧
      (p.drain rounds).2.bufferedBytes = 0 := by
  induction requests generalizing p rounds with
  | nil =>
      cases rounds with
      | zero => cases hrounds
      | succ rounds =>
          obtain ⟨hnone, hempty⟩ := h.drain_nil rounds
          rw [hnone]
          exact ⟨.nil, hempty⟩
  | cons request requests ih =>
      cases rounds with
      | zero => cases hrounds
      | succ rounds =>
          rw [List.flatMap_cons] at h
          obtain ⟨q, hparse, htaken⟩ := h.taken
          rw [List.length_cons, Nat.add_lt_add_iff_right] at hrounds
          obtain ⟨hrest, hempty⟩ := ih htaken.prepareForNextRequest hrounds
          unfold Parser.drain
          rw [hparse]
          exact ⟨.cons htaken.carries hrest, hempty⟩

/-- Parsing again before the first round changes nothing. -/
theorem Fresh.drain_again {request : WireRequest} {rest : List Byte} {p : Parser}
    (h : Fresh (request.render ++ rest) p) (rounds : ℕ) :
    p.parseAvailable.1.drain rounds = p.drain rounds ∨ rounds = 0 := by
  cases rounds with
  | zero => exact .inr rfl
  | succ rounds =>
      obtain ⟨q, hparse, htaken⟩ := h.taken
      left
      unfold Parser.drain
      rw [hparse]
      dsimp only
      rw [htaken.parseAvailable]

/-- Requests that are written one behind the other and arrive in one piece are
taken one by one, and no byte is left over. -/
theorem drain_requests (requests : List WireRequest) (rounds : ℕ)
    (hrounds : requests.length < rounds)
    (hlength : (requests.flatMap (·.render)).length ≤ MAX_BUFFER_SIZE) :
    List.Forall₂ (fun request q => Carries request.toRequestParts q) requests
        ((({} : Parser).parse (requests.flatMap (·.render))).1.drain rounds).1 ∧
      ((({} : Parser).parse (requests.flatMap (·.render))).1.drain rounds).2.bufferedBytes = 0 := by
  cases requests with
  | nil =>
      -- an empty commit: the parser waits for a request line
      cases rounds with
      | zero => cases hrounds
      | succ rounds =>
          have hidle : (({} : Parser).parse []).1.parseAvailable.2 = .ok .requestLine ∧
              (({} : Parser).parse []).1.parseAvailable.1.bufferedBytes = 0 := by
            decide +kernel
          show List.Forall₂ _ [] ((({} : Parser).parse []).1.drain (rounds + 1)).1 ∧
            ((({} : Parser).parse []).1.drain (rounds + 1)).2.bufferedBytes = 0
          unfold drain
          rcases hresult : (({} : Parser).parse []).1.parseAvailable with ⟨q, r⟩
          rw [hresult] at hidle
          obtain ⟨rfl, hempty⟩ : r = .ok .requestLine ∧ q.bufferedBytes = 0 := hidle
          exact ⟨.nil, hempty⟩
  | cons request requests =>
      obtain ⟨p, hparse, hfresh, -⟩ := parse_fresh hlength
      have hdrain := hfresh.drain hrounds
      rw [List.flatMap_cons] at hfresh
      rw [hparse, (hfresh.drain_again rounds).resolve_right (by omega)]
      exact hdrain

/-- A request with one header and a body of two bytes. -/
def putRequest : WireRequest where
  httpMethod := .put
  uri := bytesOf "/a"
  before := [⟨bytesOf "Host", bytesOf "b", by decide +kernel, by decide +kernel, by decide +kernel, by decide +kernel⟩]
  payload := .length (bytesOf "xy")
  after := []
  method_known := by decide
  uri_ne := by decide
  uri_chars := by decide +kernel
  uri_bound := by decide
  headers_count := by decide
  headers_distinct := by decide
  headers_framing := by decide
  head_bound := by decide
  body_bound := by decide

theorem drain_requests_two :
    List.Forall₂ (fun request q => Carries request.toRequestParts q) [putRequest, putRequest]
        ((({} : Parser).parse (putRequest.render ++ putRequest.render)).1.drain 3).1 ∧
      ((({} : Parser).parse (putRequest.render ++ putRequest.render)).1.drain 3).2.bufferedBytes =
        0 :=
  drain_requests [putRequest, putRequest] 3 (by decide) (by decide)

end Parser

end Http
end Katana
