import Katana.Http.HeadersMap
import Katana.Library.Loop

/-!
# The request parser

The incremental parser keeps the bytes it was given in one buffer and a number
of cursors into it.  Requests hold views into the buffer, which are offsets
here: a view shows whatever the buffer holds when it is read.  Every function
returns the parser it leaves behind also when it fails, because fields written
before the failure keep their new value.  Allocation is taken to succeed, so
`buffer_` is never null.
-/

namespace Katana
namespace Http

open Library

def MAX_HEADER_SIZE : ℕ := 8192
def MAX_BODY_SIZE : ℕ := 10 * 1024 * 1024
def MAX_URI_LENGTH : ℕ := 2048
def MAX_HEADER_COUNT : ℕ := 100
def MAX_BUFFER_SIZE : ℕ := MAX_HEADER_SIZE + MAX_BODY_SIZE

def INITIAL_BUFFER_CAPACITY : ℕ := 16 * 1024
def RETAIN_BUFFER_CAPACITY : ℕ := 64 * 1024
def COMPACT_THRESHOLD : ℕ := 2048

inductive Method where
  | get | post | put | del | patch | head | options | unknown
  deriving DecidableEq

/-- The error code every failure of the parser carries. -/
inductive ErrorCode where
  | invalidFd
  deriving DecidableEq

inductive ParserState where
  | requestLine | headers | body | chunkSize | chunkData | chunkTrailer | complete
  deriving DecidableEq

structure Request where
  httpMethod : Method := .unknown
  uri : View := .null
  headers : HeadersMap := {}
  body : View := .null

/-- `buffer` holds the bytes written to the buffer so far; those from
`bufferSize` on are left over from earlier contents. -/
structure Parser where
  state : ParserState := .requestLine
  request : Request := {}
  buffer : List Byte := []
  bufferSize : ℕ := 0
  bufferCapacity : ℕ := INITIAL_BUFFER_CAPACITY
  chunkedBody : Option (List Byte) := none
  chunkedBodySize : ℕ := 0
  lastHeaderField : Field := .unknown
  lastHeaderName : View := .null
  parsePos : ℕ := 0
  contentLength : ℕ := 0
  currentChunkSize : ℕ := 0
  headerCount : ℕ := 0
  validatedBytes : ℕ := 0
  headerEndPos : ℕ := 0
  crlfScanPos : ℕ := 0
  isChunked : Bool := false

/-- The part of the buffer a caller may write to. -/
structure Span where
  offset : ℕ
  length : ℕ
  deriving DecidableEq

def parseMethod (str : List Byte) : Method :=
  if str = bytesOf "GET" then .get
  else if str = bytesOf "POST" then .post
  else if str = bytesOf "PUT" then .put
  else if str = bytesOf "DELETE" then .del
  else if str = bytesOf "PATCH" then .patch
  else if str = bytesOf "HEAD" then .head
  else if str = bytesOf "OPTIONS" then .options
  else .unknown

/-- `string_view::find` of one character. -/
def findByte (c : Byte) (bytes : List Byte) : Option ℕ :=
  bytes.findIdx? (· = c)

/-- Bytes in front of and including the first CRLFCRLF at or after
`scanStart`, or 0. -/
def findHeaderTerminator (bytes : List Byte) (scanStart : ℕ) : ℕ :=
  match firstIndex (CRLF ++ CRLF) (bytes.drop scanStart) with
  | some i => scanStart + i + 4
  | none => 0

/-- Result of a parser function, with the parser it leaves behind. -/
abbrev Parsed (α : Type) := Parser × Except ErrorCode α

namespace Parser

/-- The first `buffer_size_` bytes of the buffer. -/
def bytes (p : Parser) : List Byte :=
  p.buffer.take p.bufferSize

def unparsed (p : Parser) : List Byte :=
  p.bytes.drop p.parsePos

/-- `buffer_[i - 1]`, for the checks that look at the byte before `i`. -/
def byteBefore (p : Parser) (i : ℕ) : Option Byte :=
  if i = 0 then none else p.buffer[i - 1]?

def bufferedBytes (p : Parser) : ℕ :=
  p.bufferSize - p.parsePos

def fail {α : Type} (p : Parser) : Parsed α :=
  (p, .error .invalidFd)

/-! ## Lines -/

def processRequestLine (start : ℕ) (line : List Byte) (p : Parser) : Parsed Unit :=
  if line = [] || line.head?.any isOws || line.getLast?.any isOws then p.fail
  else
    match findByte SP line with
    | none => p.fail
    | some methodEnd =>
        let httpMethod := parseMethod (line.take methodEnd)
        let p := { p with request := { p.request with httpMethod } }
        if httpMethod = .unknown then p.fail
        else
          let uriStart := methodEnd + 1
          match findByte SP (line.drop uriStart) with
          | none => p.fail
          | some uriLength =>
              let uri := (line.drop uriStart).take uriLength
              if uri.length > MAX_URI_LENGTH then p.fail
              else if containsInvalidUriChar uri then p.fail
              else
                let uriView := View.buffer (start + uriStart) uriLength
                let p := { p with request := { p.request with uri := uriView } }
                if line.drop (uriStart + uriLength + 1) ≠ bytesOf "HTTP/1.1" then p.fail
                else (p, .ok ())

/-- Where `trim_ows` leaves the value of a header line: its distance from the
start of the line and its length. -/
def headerValueRange (line : List Byte) (colon : ℕ) : ℕ × ℕ :=
  let value := line.drop (colon + 1)
  let blanks := (value.takeWhile isOws).length
  (colon + 1 + blanks, (trimOws value).length)

def countHeader (p : Parser) : Parser :=
  { p with headerCount := p.headerCount + 1 }

def storeKnown (f : Field) (value : View) (p : Parser) : Parser :=
  { p with
    request := { p.request with headers := p.request.headers.setKnownBorrowed f value }
    lastHeaderField := f }

def storeUnknown (name value : View) (p : Parser) : Parser :=
  { p with
    request :=
      { p.request with
        headers := p.request.headers.setUnknownBorrowed p.buffer name value }
    lastHeaderName := name }

/-- The early `content_length_` of a Content-Length line; the trailing text is
looked at only at the end of the header section. -/
def noteContentLength (value : List Byte) (p : Parser) : Parser :=
  match (fromChars 10 value).1 with
  | some length => { p with contentLength := length }
  | none => p

def processHeaderLine (start : ℕ) (line : List Byte) (p : Parser) : Parsed Unit :=
  if p.headerCount ≥ MAX_HEADER_COUNT then p.fail
  else
    match findByte 58 line with
    | none => p.fail
    | some colon =>
        let name := line.take colon
        let value := trimOws (line.drop (colon + 1))
        if name = [] then p.fail
        else if !name.all isTokenChar then p.fail
        else if containsInvalidHeaderValue value then p.fail
        else
          let (valueStart, valueLength) := headerValueRange line colon
          let nameView := View.buffer start colon
          let valueView := View.buffer (start + valueStart) valueLength
          let p := { p with lastHeaderField := .unknown, lastHeaderName := .null }
          if name.length = 4 && (name.head? = some 72 || name.head? = some 104) &&
              ciEqual name (bytesOf "Host") then
            ((p.storeKnown .host valueView).countHeader, .ok ())
          else if name.length = 14 && (name.head? = some 67 || name.head? = some 99) &&
              ciEqual name (bytesOf "Content-Length") then
            (((p.storeKnown .contentLength valueView).noteContentLength value).countHeader,
              .ok ())
          else if stringToField name ≠ .unknown then
            ((p.storeKnown (stringToField name) valueView).countHeader, .ok ())
          else
            ((p.storeUnknown nameView valueView).countHeader, .ok ())

/-! ## Parser states -/

/-- The line at `parse_pos_`, up to the next CRLF.  The first two states check
its bytes before `parse_pos_` moves behind it. -/
def withLine (checked : Bool) (stay : ParserState)
    (use : ℕ → List Byte → Parser → Parsed ParserState) (p : Parser) : Parsed ParserState :=
  match findCrlf p.unparsed with
  | none => (p, .ok stay)
  | some length =>
      if checked &&
          hasInvalidByte (p.byteBefore p.parsePos) (p.unparsed.take (length + 1)) then
        p.fail
      else
        use p.parsePos (p.unparsed.take length)
          { p with parsePos := p.parsePos + length + 2 }

def useRequestLine (start : ℕ) (line : List Byte) (p : Parser) : Parsed ParserState :=
  match p.processRequestLine start line with
  | (p, .error e) => (p, .error e)
  | (p, .ok _) => (p, .ok .headers)

def parseRequestLineState (p : Parser) : Parsed ParserState :=
  p.withLine true .requestLine useRequestLine

/-- The framing decision at the empty line. -/
def endHeaders (p : Parser) : Parsed ParserState :=
  let te := (p.request.headers.getField .transferEncoding).map (·.read p.buffer)
  if te.any fun value => ciEqual value (bytesOf "chunked") then
    ({ p with isChunked := true }, .ok .chunkSize)
  else
    match p.request.headers.getField .contentLength with
    | none => (p, .ok .complete)
    | some cl =>
        let clView := (cl.read p.buffer).rdropWhile isOws
        match fromChars 10 clView with
        | (some val, []) =>
            if val > MAX_BODY_SIZE then p.fail
            else ({ p with contentLength := val }, .ok .body)
        | _ => p.fail

/-- The value of the header the last line belonged to, by field or by name. -/
def lastHeaderValue (p : Parser) : Option View :=
  if p.lastHeaderField ≠ .unknown then p.request.headers.getField p.lastHeaderField
  else p.request.headers.get p.buffer (p.lastHeaderName.read p.buffer)

def setLastHeader (value : View) (p : Parser) : Parser :=
  let headers :=
    if p.lastHeaderField ≠ .unknown then
      p.request.headers.setKnownBorrowed p.lastHeaderField value
    else p.request.headers.setUnknownBorrowed p.buffer p.lastHeaderName value
  { p with request := { p.request with headers } }

/-- A line that begins with a blank continues the last header. -/
def foldHeader (line : List Byte) (p : Parser) : Parsed ParserState :=
  if p.lastHeaderName.isNull then p.fail
  else
    match p.lastHeaderValue with
    | none => p.fail
    | some current =>
        let folded := trimOws (line.dropWhile isOws)
        if containsInvalidHeaderValue folded then p.fail
        else
          (p.setLastHeader (.owned (current.read p.buffer ++ SP :: folded)), .ok .headers)

def useHeaderLine (start : ℕ) (line : List Byte) (p : Parser) : Parsed ParserState :=
  if line = [] then p.endHeaders
  else if line.head?.any isOws then p.foldHeader line
  else
    match p.processHeaderLine start line with
    | (p, .error e) => (p, .error e)
    | (p, .ok _) => (p, .ok .headers)

def parseHeadersState (p : Parser) : Parsed ParserState :=
  p.withLine true .headers useHeaderLine

def parseBodyState (p : Parser) : Parsed ParserState :=
  if p.bufferSize - p.parsePos ≥ p.contentLength then
    ({ p with
        request := { p.request with body := .buffer p.parsePos p.contentLength }
        parsePos := p.parsePos + p.contentLength }, .ok .complete)
  else (p, .ok .body)

/-- The chunk size line without its extension. -/
def chunkSizeText (line : List Byte) : List Byte :=
  trimOws (line.takeWhile (· ≠ 59))

def useChunkSizeLine (_start : ℕ) (line : List Byte) (p : Parser) : Parsed ParserState :=
  match fromChars 16 (chunkSizeText line) with
  | (some chunkVal, []) =>
      if chunkVal > MAX_BODY_SIZE then p.fail
      else
        let p := { p with currentChunkSize := chunkVal }
        if chunkVal = 0 then (p, .ok .chunkTrailer)
        else if chunkVal > MAX_BODY_SIZE || p.chunkedBodySize > MAX_BODY_SIZE - chunkVal then
          p.fail
        else (p, .ok .chunkData)
  | _ => p.fail

def parseChunkSizeState (p : Parser) : Parsed ParserState :=
  p.withLine false .chunkSize useChunkSizeLine

def parseChunkDataState (p : Parser) : Parsed ParserState :=
  if p.bufferSize - p.parsePos ≥ p.currentChunkSize + 2 then
    if (p.unparsed.drop p.currentChunkSize).take 2 ≠ CRLF then p.fail
    else
      let chunk := p.unparsed.take p.currentChunkSize
      let written := (p.chunkedBody.getD []).take p.chunkedBodySize
      ({ p with
          chunkedBody := some (written ++ chunk)
          chunkedBodySize := p.chunkedBodySize + p.currentChunkSize
          parsePos := p.parsePos + p.currentChunkSize + 2 }, .ok .chunkSize)
  else (p, .ok .chunkData)

def chunkedBodyView (p : Parser) : View :=
  match p.chunkedBody with
  | none => .null
  | some body => .owned (body.take p.chunkedBodySize)

def useTrailerLine (_start : ℕ) (_line : List Byte) (p : Parser) : Parsed ParserState :=
  ({ p with request := { p.request with body := p.chunkedBodyView } }, .ok .complete)

def parseChunkTrailerState (p : Parser) : Parsed ParserState :=
  p.withLine false .chunkTrailer useTrailerLine

/-! ## The buffer -/

def compactBuffer (p : Parser) : Parser :=
  if p.parsePos ≥ p.bufferSize then
    { p with
      bufferSize := 0, parsePos := 0, validatedBytes := 0, headerEndPos := 0
      crlfScanPos := 0 }
  else if p.parsePos > COMPACT_THRESHOLD / 2 then
    let consumed := p.parsePos
    let moved := p.bufferSize - consumed
    { p with
      buffer := (p.buffer.drop consumed).take moved ++ p.buffer.drop moved
      bufferSize := moved
      parsePos := 0
      validatedBytes := p.validatedBytes - consumed
      headerEndPos := p.headerEndPos - consumed
      crlfScanPos := p.crlfScanPos - consumed }
  else p

/-- A new buffer receives a copy of the first `buffer_size_` bytes. -/
def reserveBuffer (capacity : ℕ) (p : Parser) : Parser × Bool :=
  if capacity > MAX_BUFFER_SIZE then (p, false)
  else if capacity ≤ p.bufferCapacity then (p, true)
  else ({ p with buffer := p.bytes, bufferCapacity := capacity }, true)

/-- The doubling loop of `ensure_buffer_capacity`. -/
def growCapacity (required : ℕ) : ℕ → ℕ → ℕ
  | 0, capacity => capacity
  | rounds + 1, capacity =>
      if capacity < required then
        if capacity ≥ MAX_BUFFER_SIZE / 2 then MAX_BUFFER_SIZE
        else growCapacity required rounds (capacity * 2)
      else capacity

def ensureBufferCapacity (required : ℕ) (p : Parser) : Parser × Bool :=
  if required > MAX_BUFFER_SIZE then (p, false)
  else if required ≤ p.bufferCapacity then (p, true)
  else
    let start := if p.bufferCapacity > 0 then p.bufferCapacity else INITIAL_BUFFER_CAPACITY
    let grown := growCapacity required required start
    p.reserveBuffer (if grown < required then required else grown)

/-- A large buffer is given back and a small one taken instead. -/
def maybeShrinkBuffer (p : Parser) : Parser :=
  if p.bufferCapacity ≤ RETAIN_BUFFER_CAPACITY then p
  else ({ p with buffer := [], bufferCapacity := 0 } : Parser).reserveBuffer
    INITIAL_BUFFER_CAPACITY |>.1

/-! ## Parsing what is in the buffer -/

def inHeaderSection (p : Parser) : Bool :=
  p.state = .requestLine || p.state = .headers

def scanHeaderEnd (p : Parser) : Parser :=
  if p.headerEndPos = 0 then
    let scanStart := if p.crlfScanPos > 3 then p.crlfScanPos - 3 else 0
    { p with
      headerEndPos := findHeaderTerminator p.bytes scanStart
      crlfScanPos := p.bufferSize }
  else p

def validationLimit (p : Parser) : ℕ :=
  if p.headerEndPos ≠ 0 then p.headerEndPos else p.bufferSize

def validateHeaderSection (p : Parser) : Parsed Unit :=
  let start := p.validatedBytes - 1
  if hasInvalidByte (p.byteBefore start) ((p.buffer.take p.validationLimit).drop start) then
    p.fail
  else ({ p with validatedBytes := p.validationLimit }, .ok ())

def exceedsSizeLimit (p : Parser) : Bool :=
  if p.state ≠ .body && p.state ≠ .chunkData then
    (p.headerEndPos = 0 && p.bufferSize > MAX_HEADER_SIZE) ||
      (p.headerEndPos ≠ 0 && p.headerEndPos > MAX_HEADER_SIZE)
  else p.bufferSize > MAX_HEADER_SIZE + MAX_BODY_SIZE

/-- What `parse_available` does before its loop. -/
def checkInput (p : Parser) : Parsed Unit :=
  match (if p.inHeaderSection then p.scanHeaderEnd.validateHeaderSection else (p, .ok ())) with
  | (p, .error e) => (p, .error e)
  | (p, .ok _) => if p.exceedsSizeLimit then p.fail else (p, .ok ())

def nextState (p : Parser) : Parsed ParserState :=
  match p.state with
  | .requestLine => p.parseRequestLineState
  | .headers => p.parseHeadersState
  | .body => p.parseBodyState
  | .chunkSize => p.parseChunkSizeState
  | .chunkData => p.parseChunkDataState
  | .chunkTrailer => p.parseChunkTrailerState
  | .complete => (p, .ok .complete)

/-- The exit of the loop that waits for more input. -/
def stall (p : Parser) : Parser :=
  if p.parsePos > COMPACT_THRESHOLD || p.bufferSize > MAX_HEADER_SIZE * 2 then p.compactBuffer
  else p

/-- One pass over the loop of `parse_available`. -/
def parsePass (p : Parser) : Pass Parser (Parsed ParserState) :=
  if p.state = .complete then .done (p, .ok .complete)
  else
    match p.nextState with
    | (next, .error e) => .done (next, .error e)
    | (next, .ok state) =>
        let next := { next with state }
        if next.parsePos = p.parsePos && state ≠ .complete then .done (next.stall, .ok state)
        else .again next

/-- Every further pass consumes bytes or completes the message. -/
def workLeft (p : Parser) : ℕ :=
  p.bufferSize - p.parsePos + if p.state = .complete then 0 else 1

def parseLoop (p : Parser) : Parsed ParserState :=
  evalLoop parsePass workLeft (fun p => (p, .ok p.state)) p

def parseAvailable (p : Parser) : Parsed ParserState :=
  match p.checkInput with
  | (p, .error e) => (p, .error e)
  | (p, .ok _) => p.parseLoop

/-! ## Interface -/

/-- The last capacity check of `writable_input_span` and the span itself. -/
def inputSpan (desiredSize : ℕ) (p : Parser) : Parsed Span :=
  if desiredSize > p.bufferCapacity - p.bufferSize then
    match p.ensureBufferCapacity (p.bufferSize + desiredSize) with
    | (p, false) => p.fail
    | (p, true) => (p, .ok ⟨p.bufferSize, desiredSize⟩)
  else (p, .ok ⟨p.bufferSize, desiredSize⟩)

def writableInputSpan (desiredSize : ℕ) (p : Parser) : Parsed Span :=
  if desiredSize > MAX_BUFFER_SIZE then p.fail
  else if p.bufferSize > p.bufferCapacity then p.fail
  else if desiredSize > p.bufferCapacity - p.bufferSize then
    let p := if 0 < p.parsePos && p.state ≠ .complete then p.compactBuffer else p
    if p.bufferSize > p.bufferCapacity then p.fail
    else if desiredSize > p.bufferCapacity - p.bufferSize then
      if desiredSize > MAX_BUFFER_SIZE - p.bufferSize then p.fail
      else
        match p.ensureBufferCapacity (p.bufferSize + desiredSize) with
        | (p, false) => p.fail
        | (p, true) => p.inputSpan desiredSize
    else p.inputSpan desiredSize
  else p.inputSpan desiredSize

/-- The caller has put `data` at the start of the span before it commits. -/
def writeInput (data : List Byte) (p : Parser) : Parser :=
  { p with
    buffer := p.bytes ++ data ++ p.buffer.drop (p.bufferSize + data.length)
    bufferSize := p.bufferSize + data.length }

def commitInput (data : List Byte) (p : Parser) : Parsed ParserState :=
  if p.bufferSize > p.bufferCapacity then p.fail
  else if data.length > p.bufferCapacity - p.bufferSize then p.fail
  else (p.writeInput data).parseAvailable

def parse (data : List Byte) (p : Parser) : Parsed ParserState :=
  if data = [] then p.parseAvailable
  else
    match p.writableInputSpan data.length with
    | (p, .error e) => (p, .error e)
    | (p, .ok _) => p.commitInput data

def resetMessageState (p : Parser) : Parser :=
  { buffer := p.buffer, bufferSize := p.bufferSize, bufferCapacity := p.bufferCapacity }

def reset (p : Parser) : Parser :=
  ({ p with bufferSize := 0 } : Parser).maybeShrinkBuffer.resetMessageState

def prepareForNextRequest (p : Parser) : Parser :=
  let remaining := p.bufferedBytes
  let p :=
    if remaining = 0 then { p with bufferSize := 0 }
    else if p.parsePos > 0 then
      { p with
        buffer := (p.buffer.drop p.parsePos).take remaining ++ p.buffer.drop remaining
        bufferSize := remaining }
    else p
  p.resetMessageState

end Parser

end Http
end Katana
