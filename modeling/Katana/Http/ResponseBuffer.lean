import Katana.Http.Response
import Katana.Memory.IoBuffer

/-!
# Writing responses

The serialisers as the server calls them: into a string that is cleared first,
and into an `io_buffer`.  The latter asks for a span of a length computed in
advance, writes the pieces through a pointer into it and commits that length.
All of them write the text of the response.
-/

namespace Katana
namespace Http

open Library
open Memory (Garbage IoBuffer)

namespace Response

/-- Empty if the headers have a `Content-Length` already. -/
def contentLengthValue (resp : Response) : List Byte :=
  if resp.headers.containsField .contentLength then [] else toChars 10 resp.body.length

def appendHeader (out : List Byte) (field : List Byte × List Byte) : List Byte :=
  out ++ field.1 ++ HEADER_SEPARATOR ++ field.2 ++ CRLF

/-- What the string held before is cleared. -/
def serializeHeadIntoString (resp : Response) (_out : List Byte) : List Byte :=
  if resp.chunked then resp.serializeChunked DEFAULT_CHUNK_SIZE
  else
    let contentLengthValue := resp.contentLengthValue
    let out := [] ++ HTTP_VERSION_PREFIX
    let out := out ++ intToChars resp.status
    let out := out ++ [SP]
    let out := out ++ resp.reason
    let out := out ++ CRLF
    let out := (resp.headers.entries []).foldl appendHeader out
    let out :=
      if contentLengthValue.isEmpty then out
      else appendHeader out (bytesOf "Content-Length", contentLengthValue)
    out ++ CRLF

def serializeIntoString (resp : Response) (_out : List Byte) : List Byte :=
  if resp.chunked then resp.serializeChunked DEFAULT_CHUNK_SIZE
  else
    let contentLengthValue := resp.contentLengthValue
    let out := [] ++ HTTP_VERSION_PREFIX
    let out := out ++ intToChars resp.status
    let out := out ++ [SP]
    let out := out ++ resp.reason
    let out := out ++ CRLF
    let out := (resp.headers.entries []).foldl appendHeader out
    let out :=
      if contentLengthValue.isEmpty then out
      else appendHeader out (bytesOf "Content-Length", contentLengthValue)
    let out := out ++ CRLF
    out ++ resp.body

/-- The lines of the header fields, the added `Content-Length` included. -/
def headersSize (resp : Response) : ℕ :=
  let headersSize := (resp.headers.entries []).foldl
    (fun size field =>
      size + (field.1.length + HEADER_SEPARATOR.length + field.2.length + CRLF.length)) 0
  if resp.contentLengthValue.isEmpty then headersSize
  else headersSize +
    (14 + HEADER_SEPARATOR.length + resp.contentLengthValue.length + CRLF.length)

def totalSize (resp : Response) : ℕ :=
  (HTTP_VERSION_PREFIX.length + (intToChars resp.status).length + 1 + resp.reason.length +
    CRLF.length + resp.headersSize + CRLF.length + resp.body.length) % 2 ^ 64

def putHeader (w : SpanWriter Byte) (field : List Byte × List Byte) :
    Option (SpanWriter Byte) := do
  let w ← w.put field.1
  let w ← w.put HEADER_SEPARATOR
  let w ← w.put field.2
  w.put CRLF

def putContentLength (resp : Response) (w : SpanWriter Byte) : Option (SpanWriter Byte) :=
  if resp.contentLengthValue.isEmpty then some w
  else putHeader w (bytesOf "Content-Length", resp.contentLengthValue)

/-- The copies through `write_ptr`. -/
def putText (resp : Response) (w : SpanWriter Byte) : Option (SpanWriter Byte) := do
  let w ← w.put HTTP_VERSION_PREFIX
  let w ← w.put (intToChars resp.status)
  let w ← w.put [SP]
  let w ← w.put resp.reason
  let w ← w.put CRLF
  let w ← (resp.headers.entries []).foldlM putHeader w
  let w ← resp.putContentLength w
  let w ← w.put CRLF
  w.put resp.body

def serializeIntoBuffer (garbage : Garbage) (resp : Response) (out : IoBuffer) :
    Option IoBuffer := do
  if resp.chunked then
    out.append garbage (resp.serializeChunked DEFAULT_CHUNK_SIZE)
  else
    let (out, span) ← out.writableSpan garbage resp.totalSize
    let writer ← resp.putText { span := span, pos := 0 }
    let out ← out.fill writer.span
    return out.commit resp.totalSize

variable {resp : Response}

theorem contentLengthLine_eq (resp : Response) :
    resp.contentLengthLine =
      if resp.contentLengthValue.isEmpty then []
      else headerLine (bytesOf "Content-Length", resp.contentLengthValue) := by
  unfold contentLengthLine contentLengthValue
  split
  · rfl
  next =>
    have hdigits := toChars_ne_nil 10 resp.body.length
    simp [hdigits]

theorem foldl_appendHeader (fields : List (List Byte × List Byte)) (out : List Byte) :
    fields.foldl appendHeader out = out ++ fields.flatMap headerLine := by
  induction fields generalizing out with
  | nil => simp
  | cons field fields ih => simp [ih, appendHeader, headerLine]

theorem serializeHeadIntoString_eq (resp : Response) (out : List Byte) :
    resp.serializeHeadIntoString out = resp.serializeHeadInto := by
  unfold serializeHeadIntoString serializeHeadInto
  split
  · rfl
  next =>
    rw [contentLengthLine_eq]
    simp only [foldl_appendHeader]
    split
    · simp [statusLine]
    · simp [statusLine, appendHeader, headerLine]

theorem serializeIntoString_eq (resp : Response) (out : List Byte) :
    resp.serializeIntoString out = resp.serialize := by
  rw [← serializeInto_eq]
  unfold serializeIntoString serializeInto
  split
  · rfl
  next =>
    rw [contentLengthLine_eq]
    simp only [foldl_appendHeader]
    split
    · simp [statusLine]
    · simp [statusLine, appendHeader, headerLine]

theorem puts_putHeader (field : List Byte × List Byte) :
    Puts (fun w => putHeader w field) (headerLine field) := by
  have h := (puts_put field.1).bind ((puts_put HEADER_SEPARATOR).bind
    ((puts_put field.2).bind (puts_put CRLF)))
  have htext : headerLine field = field.1 ++ (HEADER_SEPARATOR ++ (field.2 ++ CRLF)) := by
    simp [headerLine]
  rw [htext]
  exact h

theorem puts_putContentLength (resp : Response) :
    Puts resp.putContentLength resp.contentLengthLine := by
  rw [contentLengthLine_eq]
  by_cases hempty : resp.contentLengthValue.isEmpty = true
  · have hskip : resp.putContentLength = some := by
      funext w
      simp only [putContentLength, hempty, if_true]
    rw [hskip, if_pos hempty]
    exact puts_nil
  · have hput : resp.putContentLength =
        fun w => putHeader w (bytesOf "Content-Length", resp.contentLengthValue) := by
      funext w
      simp only [putContentLength, hempty, Bool.false_eq_true, if_false]
    rw [hput, if_neg hempty]
    exact puts_putHeader _

theorem puts_putText (hchunked : resp.chunked = false) : Puts resp.putText resp.serialize := by
  have h := (puts_put HTTP_VERSION_PREFIX).bind ((puts_put (intToChars resp.status)).bind
    ((puts_put [SP]).bind ((puts_put resp.reason).bind ((puts_put CRLF).bind
      ((puts_foldlM puts_putHeader (resp.headers.entries [])).bind
        ((puts_putContentLength resp).bind ((puts_put CRLF).bind (puts_put resp.body))))))))
  have htext : resp.serialize = HTTP_VERSION_PREFIX ++ (intToChars resp.status ++ ([SP] ++
      (resp.reason ++ (CRLF ++ ((resp.headers.entries []).flatMap headerLine ++
        (resp.contentLengthLine ++ (CRLF ++ resp.body))))))) := by
    rw [← serializeInto_eq]
    simp [serializeInto, hchunked, statusLine]
  rw [htext]
  exact h

theorem foldl_headerSize (fields : List (List Byte × List Byte)) (size : ℕ) :
    fields.foldl
        (fun size field =>
          size + (field.1.length + HEADER_SEPARATOR.length + field.2.length + CRLF.length)) size =
      size + (fields.flatMap headerLine).length := by
  induction fields generalizing size with
  | nil => simp
  | cons field fields ih =>
      rw [List.foldl_cons, ih, List.flatMap_cons]
      simp only [headerLine, List.length_append]
      omega

theorem headersSize_eq (resp : Response) :
    resp.headersSize =
      ((resp.headers.entries []).flatMap headerLine ++ resp.contentLengthLine).length := by
  have hname : (bytesOf "Content-Length").length = 14 := by decide
  unfold headersSize
  rw [foldl_headerSize, contentLengthLine_eq]
  split
  · simp
  · simp only [headerLine, List.length_append, hname]
    omega

theorem totalSize_eq (hchunked : resp.chunked = false)
    (hfits : resp.serialize.length < 2 ^ 64) : resp.totalSize = resp.serialize.length := by
  have hlength : HTTP_VERSION_PREFIX.length + (intToChars resp.status).length + 1 +
      resp.reason.length + CRLF.length + resp.headersSize + CRLF.length + resp.body.length =
        resp.serialize.length := by
    rw [← serializeInto_eq, headersSize_eq]
    simp only [serializeInto, hchunked, statusLine, List.length_append, List.length_cons,
      Bool.false_eq_true, if_false]
    omega
  unfold totalSize
  rw [hlength, Nat.mod_eq_of_lt hfits]

theorem serializeIntoBuffer_holds {garbage : Garbage} {out : IoBuffer} {queue : List Byte}
    (hout : out.Holds queue) (hfits : out.writePos + resp.serialize.length < 2 ^ 64) :
    ∃ out', serializeIntoBuffer garbage resp out = some out' ∧
      out'.Holds (queue ++ resp.serialize) := by
  unfold serializeIntoBuffer
  by_cases hchunked : resp.chunked = true
  · have htext : resp.serialize = resp.serializeChunked DEFAULT_CHUNK_SIZE := by
      simp [serialize, hchunked]
    rw [if_pos hchunked, ← htext]
    exact hout.append garbage hfits
  · rw [Bool.not_eq_true] at hchunked
    have htotal := totalSize_eq hchunked (by omega)
    obtain ⟨b, span, hspan, hholds, hlength, hroom⟩ :=
      hout.writableSpan garbage hfits
    have hput := (puts_putText hchunked).fills hlength
    obtain ⟨b', hfill, hcommit⟩ := hholds.fill_commit hroom le_rfl
    rw [List.take_length] at hcommit
    refine ⟨_, ?_, hcommit⟩
    simp only [hchunked, htotal, hspan, hput, hfill, Option.bind_eq_bind, Option.bind_some,
      Bool.false_eq_true, if_false]
    rfl

/-- The serialisers agree: the string versions on any string, and the `io_buffer`
version on any buffer, which computes its size right and fills exactly its span. -/
theorem serializers_agree (resp : Response) (out : List Byte) :
    resp.serializeIntoString out = resp.serialize ∧
    (resp.chunked = false → resp.serializeHeadIntoString out ++ resp.body = resp.serialize) ∧
    (resp.chunked = false → resp.serialize.length < 2 ^ 64 →
      resp.totalSize = resp.serialize.length ∧
      ∀ span : List Byte, span.length = resp.totalSize →
        resp.putText { span := span, pos := 0 } =
          some { span := resp.serialize, pos := resp.totalSize }) ∧
    ∀ (garbage : Garbage) (b : IoBuffer) (queue : List Byte), b.Holds queue →
      b.writePos + resp.serialize.length < 2 ^ 64 →
      ∃ b', serializeIntoBuffer garbage resp b = some b' ∧
        b'.Holds (queue ++ resp.serialize) := by
  refine ⟨serializeIntoString_eq resp out, ?_, ?_, ?_⟩
  · intro hchunked
    rw [serializeHeadIntoString_eq, serializeHeadInto_append hchunked]
  · intro hchunked hfits
    have htotal := totalSize_eq hchunked hfits
    rw [htotal]
    exact ⟨rfl, fun span hspan => (puts_putText hchunked).fills hspan⟩
  · intro garbage b queue hholds hfits
    exact serializeIntoBuffer_holds hholds hfits

/-- A short response behind three bytes that were not read yet. -/
def okResponse : Response :=
  { reason := bytesOf "OK", body := bytesOf "hi" }

theorem serializers_agree_okResponse :
    okResponse.serialize = bytesOf "HTTP/1.1 200 OK" ++ CRLF ++ bytesOf "Content-Length: 2" ++
        CRLF ++ CRLF ++ bytesOf "hi" ∧
      okResponse.serializeHeadIntoString (bytesOf "old") ++ okResponse.body =
        okResponse.serialize ∧
      ∃ b', serializeIntoBuffer (fun _ => 0) okResponse
          { data := [1, 2, 3, 4], capacity := 4, writePos := 3 } = some b' ∧
        b'.Holds ([1, 2, 3] ++ okResponse.serialize) := by
  have hagree := serializers_agree okResponse (bytesOf "old")
  have hholds : IoBuffer.Holds { data := [1, 2, 3, 4], capacity := 4, writePos := 3 } [1, 2, 3] := by
    constructor <;> decide
  exact ⟨by decide +kernel, hagree.2.1 rfl, hagree.2.2.2 _ _ _ hholds (by decide +kernel)⟩

end Response

end Http
end Katana
