import Katana.Http.HeadersMap
import Katana.Http.Problem

/-!
# Responses

A response and its text on the wire.  Header views of a response refer to
literals and to arena memory, never to an input buffer, so they are read without
one.  The text of a response that is not chunked is its head followed by its
body, which lets the server keep the two in different buffers.
-/

namespace Katana
namespace Http

def HTTP_VERSION_PREFIX : List Byte := bytesOf "HTTP/1.1 "
def HEADER_SEPARATOR : List Byte := bytesOf ": "
def CHUNKED_ENCODING_HEADER : List Byte := bytesOf "Transfer-Encoding: chunked" ++ CRLF ++ CRLF
def CHUNKED_TERMINATOR : List Byte := bytesOf "0" ++ CRLF ++ CRLF
def CONTENT_TYPE_PROBLEM_JSON : List Byte := bytesOf "application/problem+json"
def DEFAULT_CHUNK_SIZE : ℕ := 4096

structure Response where
  status : ℤ := 200
  reason : List Byte := []
  headers : HeadersMap := {}
  body : List Byte := []
  chunked : Bool := false

namespace Response

def statusLine (resp : Response) : List Byte :=
  HTTP_VERSION_PREFIX ++ intToChars resp.status ++ SP :: resp.reason ++ CRLF

def headerLine (field : List Byte × List Byte) : List Byte :=
  field.1 ++ HEADER_SEPARATOR ++ field.2 ++ CRLF

/-- The line added to a response whose headers do not say how long it is. -/
def contentLengthLine (resp : Response) : List Byte :=
  if resp.headers.containsField .contentLength then []
  else headerLine (bytesOf "Content-Length", toChars 10 resp.body.length)

/-- The loop over the body; it would not end for a chunk size of zero. -/
def chunkText (chunkSize : ℕ) : ℕ → List Byte → List Byte
  | 0, _ => []
  | rounds + 1, body =>
      if body = [] then []
      else
        let currentChunk := min chunkSize body.length
        toChars 16 currentChunk ++ CRLF ++ body.take currentChunk ++ CRLF ++
          chunkText chunkSize rounds (body.drop currentChunk)

def serializeChunked (chunkSize : ℕ) (resp : Response) : List Byte :=
  resp.statusLine ++
    ((resp.headers.entries []).filter (·.1 ≠ bytesOf "Content-Length")).flatMap headerLine ++
    CHUNKED_ENCODING_HEADER ++ chunkText chunkSize resp.body.length resp.body ++
    CHUNKED_TERMINATOR

def serializeHeadInto (resp : Response) : List Byte :=
  if resp.chunked then resp.serializeChunked DEFAULT_CHUNK_SIZE
  else
    resp.statusLine ++ (resp.headers.entries []).flatMap headerLine ++ resp.contentLengthLine ++
      CRLF

def serializeInto (resp : Response) : List Byte :=
  if resp.chunked then resp.serializeChunked DEFAULT_CHUNK_SIZE
  else
    resp.statusLine ++ (resp.headers.entries []).flatMap headerLine ++ resp.contentLengthLine ++
      CRLF ++ resp.body

def serialize (resp : Response) : List Byte :=
  if resp.chunked then resp.serializeChunked DEFAULT_CHUNK_SIZE
  else resp.serializeInto

def assignError (problem : ProblemDetails) : Response :=
  { status := problem.status
    reason := problem.title
    body := problem.toJson
    headers :=
      ({} : HeadersMap).setKnownBorrowed .contentType (.owned CONTENT_TYPE_PROBLEM_JSON) }

theorem serializeInto_eq (resp : Response) : resp.serializeInto = resp.serialize := by
  unfold serialize
  split
  next hchunked =>
    unfold serializeInto
    rw [if_pos hchunked]
  · rfl

theorem serializeHeadInto_append {resp : Response} (hchunked : resp.chunked = false) :
    resp.serializeHeadInto ++ resp.body = resp.serialize := by
  unfold serialize serializeHeadInto serializeInto
  rw [hchunked]
  rfl

theorem serialize_ne (resp : Response) : resp.serialize ≠ [] := by
  unfold serialize serializeInto serializeChunked
  split
  · simp [statusLine, HTTP_VERSION_PREFIX, bytesOf]
  · simp [statusLine, HTTP_VERSION_PREFIX, bytesOf]

end Response

end Http
end Katana
