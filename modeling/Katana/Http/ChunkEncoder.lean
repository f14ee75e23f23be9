import Katana.Http.ChunkedBody
import Katana.Http.Response

/-!
# Chunks written and read

What a chunked response has behind its header section is a chunked body: the
chunks of its body, the last chunk and no trailer lines.  So the parser reads
it back, unless the limit for header sections is applied to it.
-/

namespace Katana
namespace Http

open Library

namespace Response

/-- The header section of a chunked response. -/
def chunkedHead (resp : Response) : List Byte :=
  resp.statusLine ++
    ((resp.headers.entries []).filter (·.1 ≠ bytesOf "Content-Length")).flatMap headerLine ++
    CHUNKED_ENCODING_HEADER

/-- What follows the header section. -/
def chunkedPart (chunkSize : ℕ) (resp : Response) : List Byte :=
  chunkText chunkSize resp.body.length resp.body ++ CHUNKED_TERMINATOR

theorem serializeChunked_eq (chunkSize : ℕ) (resp : Response) :
    resp.serializeChunked chunkSize = resp.chunkedHead ++ resp.chunkedPart chunkSize := by
  simp [serializeChunked, chunkedHead, chunkedPart]

end Response

theorem toChars_hex (size : ℕ) : ∀ c ∈ toChars 16 size, isDigit 16 c = true :=
  toChars_digits (by decide) (by decide) size

theorem hexValue_toChars (size : ℕ) : numeralValue 16 (toChars 16 size) = size :=
  numeralValue_toChars (by decide) (by decide) size

theorem no_extension_mark : ([] : List Byte) = [] ∨ ([] : List Byte).head? = some 59 :=
  .inl rfl

theorem no_extension_free : findCrlf [] = none :=
  rfl

/-- The size of a chunk as it is written. -/
def sizeLineOf (size : ℕ) : SizeLine size where
  digits := toChars 16 size
  extension := []
  digits_ne := toChars_ne_nil 16 size
  digits_hex := toChars_hex size
  digits_value := hexValue_toChars size
  extension_mark := no_extension_mark
  extension_free := no_extension_free

theorem render_sizeLineOf (size : ℕ) : (sizeLineOf size).render = toChars 16 size := by
  simp [SizeLine.render, sizeLineOf]

/-- The loop over the body writes chunks with the body in them. -/
theorem chunkText_chunks {chunkSize : ℕ} (hchunk : 1 ≤ chunkSize) (rounds : ℕ)
    (body : List Byte) (hrounds : body.length ≤ rounds) :
    ∃ chunks : List Chunk, renderChunks chunks = Response.chunkText chunkSize rounds body ∧
      chunksBody chunks = body := by
  induction rounds generalizing body with
  | zero =>
      have hempty : body = [] := List.length_eq_zero_iff.mp (Nat.le_zero.mp hrounds)
      exact ⟨[], rfl, hempty.symm⟩
  | succ rounds ih =>
      by_cases hempty : body = []
      · refine ⟨[], ?_, hempty.symm⟩
        simp [Response.chunkText, hempty, renderChunks]
      · have hpos := List.length_pos_iff.mpr hempty
        have hfirst : (body.take (min chunkSize body.length)).length =
            min chunkSize body.length := by
          simp
        have hne : body.take (min chunkSize body.length) ≠ [] := by
          apply List.length_pos_iff.mp
          omega
        obtain ⟨chunks, hrender, hbody⟩ := ih (body.drop (min chunkSize body.length)) (by
          simp only [List.length_drop]
          omega)
        let chunk : Chunk :=
          { data := body.take (min chunkSize body.length), data_ne := hne, sizeLine := sizeLineOf _ }
        refine ⟨chunk :: chunks, ?_, ?_⟩
        · have hline : chunk.sizeLine.render = toChars 16 (min chunkSize body.length) := by
            rw [← hfirst]
            exact render_sizeLineOf _
          rw [Response.chunkText, if_neg hempty]
          dsimp only
          rw [← hrender]
          simp [renderChunks, Chunk.render, hline, chunk]
        · simp only [chunksBody, List.flatMap_cons] at hbody ⊢
          rw [hbody]
          exact List.take_append_drop _ _

theorem chunkedPart_message {resp : Response} {chunkSize : ℕ} (hchunk : 1 ≤ chunkSize)
    (hbody : resp.body.length ≤ MAX_BODY_SIZE) :
    ∃ message : ChunkedBody, message.render = resp.chunkedPart chunkSize ∧
      message.body = resp.body ∧ message.trailers = [] := by
  obtain ⟨chunks, hrender, hchunks⟩ := chunkText_chunks hchunk resp.body.length resp.body le_rfl
  let message : ChunkedBody :=
    { chunks := chunks, lastLine := sizeLineOf 0, trailers := []
      chunks_bound := by rwa [hchunks]
      trailers_free := List.forall_mem_nil _ }
  refine ⟨message, ?_, hchunks, rfl⟩
  have hlast : (sizeLineOf 0).render = bytesOf "0" := by decide
  simp only [ChunkedBody.render, message, hrender, hlast, Response.chunkedPart,
    CHUNKED_TERMINATOR, renderLines, List.append_assoc]
  rfl

namespace Parser

/-- The chunks of a response behind a head of chunked framing are read back, and no
byte is left.  Where the head was parsed in an earlier call, they must be short
enough to be taken for a header section, or fit into the initial buffer behind a
short head. -/
theorem parse_chunkedPart (head : RequestHead) (resp : Response) (chunkSize : ℕ)
    (hchunk : 1 ≤ chunkSize) (hbody : resp.body.length ≤ MAX_BODY_SIZE)
    (hwaits : (({} : Parser).parse head.render).2 = .ok .chunkSize)
    (hlength : (head.render ++ resp.chunkedPart chunkSize).length ≤ MAX_BUFFER_SIZE) :
    resp.serializeChunked chunkSize = resp.chunkedHead ++ resp.chunkedPart chunkSize ∧
      Consumed resp.body [] (({} : Parser).parse (head.render ++ resp.chunkedPart chunkSize)) ∧
      (Consumed resp.body []
          ((({} : Parser).parse head.render).1.parse (resp.chunkedPart chunkSize)) ↔
        (resp.chunkedPart chunkSize).length ≤ MAX_HEADER_SIZE ∨
          head.render.length ≤ COMPACT_THRESHOLD ∧
            head.render.length + (resp.chunkedPart chunkSize).length ≤
              INITIAL_BUFFER_CAPACITY) := by
  obtain ⟨message, hrender, hmessage, htrailers⟩ := chunkedPart_message hchunk hbody
  have hpart : resp.chunkedPart chunkSize = message.render ++ [] := by
    rw [hrender, List.append_nil]
  rw [hpart] at hlength ⊢
  rw [← hmessage]
  refine ⟨?_, ?_, ?_⟩
  · rw [← hpart]
    exact Response.serializeChunked_eq chunkSize resp
  · exact (parse_chunked_together message [] hwaits hlength).mpr htrailers
  · rw [parse_chunked_behind message [] hwaits hlength]
    simp [htrailers]

theorem parse_chunkedPart_hello :
    Consumed (bytesOf "hello") []
        (({} : Parser).parse
          (chunkedHead.render ++ Response.chunkedPart 2 { body := bytesOf "hello" })) ∧
      Consumed (bytesOf "hello") []
        ((({} : Parser).parse chunkedHead.render).1.parse
          (Response.chunkedPart 2 { body := bytesOf "hello" })) := by
  have hparse := parse_chunkedPart chunkedHead { body := bytesOf "hello" } 2 (by decide)
    (by decide) chunkedHead_waits (by decide)
  exact ⟨hparse.2.1, hparse.2.2.mpr (Or.inl (by decide))⟩

/-- A response whose body is written as one chunk of 16 KiB. -/
def longResponse : Response :=
  { body := List.replicate 16384 97 }

theorem length_longResponse : longResponse.body.length = 16384 :=
  List.length_replicate

theorem length_chunkedPart_longResponse :
    (longResponse.chunkedPart 16384).length = 16397 := by
  have hlength := length_longResponse
  have hne : longResponse.body ≠ [] := by
    apply List.length_pos_iff.mp
    omega
  have hdigits : (toChars 16 16384).length = 4 := by decide
  have hrest : ∀ rounds, Response.chunkText 16384 rounds [] = [] := by
    intro rounds
    cases rounds <;> simp [Response.chunkText]
  have htext : Response.chunkText 16384 longResponse.body.length longResponse.body =
      toChars 16 16384 ++ CRLF ++ longResponse.body ++ CRLF := by
    have htake : longResponse.body.take 16384 = longResponse.body :=
      List.take_of_length_le hlength.le
    have hdrop : longResponse.body.drop 16384 = [] := List.drop_of_length_le hlength.le
    rw [hlength, Response.chunkText, if_neg hne]
    simp only [hlength, min_self, htake, hdrop, hrest, List.append_nil]
  have hend : CHUNKED_TERMINATOR.length = 5 := by decide
  rw [Response.chunkedPart, htext]
  simp only [List.length_append, hlength, hdigits, hend, crlf_length]

/-- The 16 KiB chunk behind a head that was parsed before it is refused. -/
theorem long_chunk_refused :
    (({} : Parser).parse chunkedHead.render).2 = .ok .chunkSize ∧
      longResponse.body.length ≤ MAX_BODY_SIZE ∧
      (chunkedHead.render ++ longResponse.chunkedPart 16384).length ≤ MAX_BUFFER_SIZE ∧
      ¬ Consumed longResponse.body []
        ((({} : Parser).parse chunkedHead.render).1.parse (longResponse.chunkedPart 16384)) := by
  have hpart := length_chunkedPart_longResponse
  have hhead : chunkedHead.render.length = 47 := by decide
  have hwaits := chunkedHead_waits
  have hbody : longResponse.body.length ≤ MAX_BODY_SIZE := by
    rw [length_longResponse]
    decide
  have htotal : (chunkedHead.render ++ longResponse.chunkedPart 16384).length ≤
      MAX_BUFFER_SIZE := by
    rw [List.length_append, hpart, hhead]
    decide
  refine ⟨hwaits, hbody, htotal, ?_⟩
  have hchunk : 1 ≤ 16384 := by decide
  obtain ⟨message, hrender, hmessage, -⟩ := chunkedPart_message hchunk hbody
  have hsame : longResponse.chunkedPart 16384 = message.render ++ [] := by
    rw [hrender, List.append_nil]
  rw [hsame] at hpart htotal ⊢
  rw [← hmessage, parse_chunked_behind message [] hwaits htotal, hpart, hhead]
  rintro ⟨-, hcondition⟩
  revert hcondition
  decide

end Parser

end Http
end Katana
