import Katana.Http.RequestHead

/-!
# Chunked bodies

A chunked body is decoded chunk by chunk into memory of its own, so what matters
between two passes is the part of the body gathered so far and the bytes still
to be parsed.  The trailer state reads one line and completes the message: the
body is right in any case, but only without trailer lines does the parser stop
behind the last line of the message.
-/

namespace Katana
namespace Http

open Library

/-- The line in front of a chunk: the size in hexadecimal digits, and perhaps an
extension that begins with a semicolon. -/
structure SizeLine (size : ℕ) where
  digits : List Byte
  extension : List Byte
  digits_ne : digits ≠ []
  digits_hex : ∀ c ∈ digits, isDigit 16 c = true
  digits_value : numeralValue 16 digits = size
  extension_mark : extension = [] ∨ extension.head? = some 59
  extension_free : findCrlf extension = none

def SizeLine.render {size : ℕ} (line : SizeLine size) : List Byte :=
  line.digits ++ line.extension

structure Chunk where
  data : List Byte
  data_ne : data ≠ []
  sizeLine : SizeLine data.length

def Chunk.render (chunk : Chunk) : List Byte :=
  chunk.sizeLine.render ++ CRLF ++ chunk.data ++ CRLF

def chunksBody (chunks : List Chunk) : List Byte :=
  chunks.flatMap (·.data)

def renderChunks (chunks : List Chunk) : List Byte :=
  chunks.flatMap Chunk.render

/-- The part of a message behind a head with chunked framing. -/
structure ChunkedBody where
  chunks : List Chunk
  lastLine : SizeLine 0
  trailers : List (List Byte)
  chunks_bound : (chunksBody chunks).length ≤ MAX_BODY_SIZE
  trailers_free : ∀ line ∈ trailers, findCrlf line = none ∧ line ≠ []

def ChunkedBody.body (message : ChunkedBody) : List Byte :=
  chunksBody message.chunks

def ChunkedBody.render (message : ChunkedBody) : List Byte :=
  renderChunks message.chunks ++ (message.lastLine.render ++ CRLF) ++
    (renderLines message.trailers ++ CRLF)

/-! ## Size lines -/

theorem isDigit_facts :
    ∀ c : Byte, isDigit 16 c = true → c ≠ CR ∧ c ≠ 59 ∧ isOws c = false := by
  apply byte_forall
  decide +kernel

theorem SizeLine.findCrlf {size : ℕ} (line : SizeLine size) :
    findCrlf line.render = none := by
  apply findCrlf_append
  · intro hmem
    exact (isDigit_facts CR (line.digits_hex CR hmem)).1 rfl
  · exact line.extension_free

theorem trimOws_eq_self {value : List Byte} (hfree : ∀ c ∈ value, isOws c = false) :
    trimOws value = value := by
  have hfront : value.dropWhile isOws = value := by
    cases value with
    | nil => rfl
    | cons c rest => rw [List.dropWhile_cons, hfree c (by simp), if_neg Bool.false_ne_true]
  unfold trimOws
  rw [hfront, List.rdropWhile_eq_self_iff]
  intro hne
  rw [hfree _ (List.getLast_mem hne)]
  exact Bool.false_ne_true

/-- The size line without its extension is its digits. -/
theorem SizeLine.chunkSizeText {size : ℕ} (line : SizeLine size) :
    Parser.chunkSizeText line.render = line.digits := by
  have hmark : ∀ c ∈ line.digits, (c ≠ 59 : Bool) = true := by
    intro c hc
    simpa using (isDigit_facts c (line.digits_hex c hc)).2.1
  have htake : line.render.takeWhile (· ≠ 59) = line.digits := by
    unfold SizeLine.render
    rw [List.takeWhile_append_of_pos hmark]
    rcases line.extension_mark with hnone | hsome
    · rw [hnone]
      simp
    · obtain ⟨rest, hrest⟩ := List.head?_eq_some_iff.mp hsome
      rw [hrest]
      simp
  unfold Parser.chunkSizeText
  rw [htake]
  apply trimOws_eq_self
  intro c hc
  exact (isDigit_facts c (line.digits_hex c hc)).2.2

theorem fromChars_digits {base : ℕ} {digits : List Byte} (hne : digits ≠ [])
    (hdigits : ∀ c ∈ digits, isDigit base c = true)
    (hvalue : numeralValue base digits < 2 ^ 64) :
    fromChars base digits = (some (numeralValue base digits), []) := by
  have htake : digits.takeWhile (isDigit base) = digits :=
    List.takeWhile_eq_self_iff.mpr hdigits
  have hdrop : digits.dropWhile (isDigit base) = [] :=
    List.dropWhile_eq_nil_iff.mpr hdigits
  unfold fromChars
  rw [htake, hdrop, if_neg hne, if_pos hvalue]

namespace Parser

/-- A size line that fits is followed by its chunk, the last one by the trailer. -/
theorem parsePass_sizeLine {size : ℕ} (line : SizeLine size) {p : Parser} {rest : List Byte}
    (hstate : p.state = .chunkSize) (hunparsed : p.unparsed = line.render ++ CRLF ++ rest)
    (hbound : p.chunkedBodySize + size ≤ MAX_BODY_SIZE) :
    p.parsePass = .again
      { p with
        state := if size = 0 then .chunkTrailer else .chunkData
        currentChunkSize := size
        parsePos := p.parsePos + line.render.length + 2 } := by
  have hmax : MAX_BODY_SIZE < 2 ^ 64 := by
    decide
  have hcall := withLine_line false .chunkSize useChunkSizeLine hunparsed line.findCrlf
  have hvalue : fromChars 16 (chunkSizeText line.render) = (some size, []) := by
    rw [line.chunkSizeText]
    have hdigits := fromChars_digits line.digits_ne line.digits_hex
    rw [line.digits_value] at hdigits
    exact hdigits (by omega)
  have hnext : p.nextState = p.parseChunkSizeState := by
    unfold nextState
    rw [hstate]
  have huse : p.nextState =
      ({ p with
          currentChunkSize := size
          parsePos := p.parsePos + line.render.length + 2 },
        .ok (if size = 0 then .chunkTrailer else .chunkData)) := by
    rw [hnext, parseChunkSizeState, hcall, Bool.false_and, if_neg Bool.false_ne_true]
    unfold useChunkSizeLine
    rw [hvalue]
    dsimp only
    rw [if_neg (by omega)]
    by_cases hzero : size = 0
    · rw [if_pos hzero, if_pos hzero]
    · have hsmall : (decide (size > MAX_BODY_SIZE) ||
          decide (p.chunkedBodySize > MAX_BODY_SIZE - size)) = false := by
        rw [Bool.or_eq_false_iff, decide_eq_false_iff_not, decide_eq_false_iff_not]
        omega
      rw [if_neg hzero, if_neg hzero, hsmall, if_neg Bool.false_ne_true]
  apply parsePass_of_ok (by rw [hstate]; nofun) huse
  left
  dsimp only
  omega

/-! ## Chunks -/

/-- The parser stands in front of a size line, with a first part of the body
gathered. -/
structure Gathered (body rest : List Byte) (p : Parser) : Prop where
  state : p.state = .chunkSize
  size : p.chunkedBodySize = body.length
  body : (p.chunkedBody.getD []).take p.chunkedBodySize = body
  unparsed : p.unparsed = rest

/-- One chunk: its size line and its data. -/
theorem Gathered.chunk {chunk : Chunk} {body rest : List Byte} {p : Parser}
    (h : Gathered body (chunk.render ++ rest) p)
    (hbound : (body ++ chunk.data).length ≤ MAX_BODY_SIZE) :
    ∃ q, Passes parsePass p q ∧ Gathered (body ++ chunk.data) rest q := by
  have hne := List.length_pos_of_ne_nil chunk.data_ne
  have hsize := h.size
  have hunparsed : p.unparsed =
      chunk.sizeLine.render ++ CRLF ++ (chunk.data ++ CRLF ++ rest) := by
    rw [h.unparsed, Chunk.render]
    simp only [List.append_assoc]
  rw [List.length_append] at hbound
  have hline := parsePass_sizeLine chunk.sizeLine h.state hunparsed (by omega)
  rw [if_neg (by omega)] at hline
  have hrest : ({ p with
      state := .chunkData
      currentChunkSize := chunk.data.length
      parsePos := p.parsePos + chunk.sizeLine.render.length + 2 } : Parser).unparsed =
        chunk.data ++ CRLF ++ rest := by
    have hmoved := unparsed_withPos hunparsed
    rwa [List.length_append, crlf_length, ← Nat.add_assoc] at hmoved
  generalize hq : ({ p with
      state := .chunkData
      currentChunkSize := chunk.data.length
      parsePos := p.parsePos + chunk.sizeLine.render.length + 2 } : Parser) = q at hline hrest
  have hfields : q.state = .chunkData ∧ q.currentChunkSize = chunk.data.length ∧
      q.chunkedBodySize = p.chunkedBodySize ∧ q.chunkedBody = p.chunkedBody := by
    rw [← hq]
    exact ⟨rfl, rfl, rfl, rfl⟩
  obtain ⟨hstate, hcurrent, hgathered, hbody⟩ := hfields
  have hroom : q.bufferSize - q.parsePos ≥ q.currentChunkSize + 2 := by
    have hle := unparsed_length_le q
    rw [hrest] at hle
    simp only [List.length_append, crlf_length] at hle
    omega
  have hcrlf : (q.unparsed.drop q.currentChunkSize).take 2 = CRLF := by
    rw [hrest, hcurrent, List.append_assoc, List.drop_left]
    rfl
  have hdata : q.unparsed.take q.currentChunkSize = chunk.data := by
    rw [hrest, hcurrent, List.append_assoc, List.take_left]
  have hnext : q.nextState =
      ({ q with
          chunkedBody := some (body ++ chunk.data)
          chunkedBodySize := q.chunkedBodySize + q.currentChunkSize
          parsePos := q.parsePos + q.currentChunkSize + 2 }, .ok .chunkSize) := by
    have hcall : q.nextState = q.parseChunkDataState := by
      unfold nextState
      rw [hstate]
    rw [hcall]
    unfold parseChunkDataState
    rw [if_pos hroom, if_neg (not_not.mpr hcrlf), hdata, hbody, hgathered, h.body]
  have hpass := parsePass_of_ok (by rw [hstate]; nofun) hnext (.inl (by
    dsimp only
    omega))
  refine ⟨_, .head hline (.head hpass (.refl _)), rfl, ?_, ?_, ?_⟩
  · rw [List.length_append]
    dsimp only
    omega
  · dsimp only [Option.getD_some]
    apply List.take_of_length_le
    rw [List.length_append]
    omega
  · have hmoved := unparsed_withPos hrest
    rwa [List.length_append, crlf_length, ← hcurrent, ← Nat.add_assoc] at hmoved

/-- All chunks, by induction from one. -/
theorem Gathered.chunks {chunks : List Chunk} {body rest : List Byte} {p : Parser}
    (h : Gathered body (renderChunks chunks ++ rest) p)
    (hbound : (body ++ chunksBody chunks).length ≤ MAX_BODY_SIZE) :
    ∃ q, Passes parsePass p q ∧ Gathered (body ++ chunksBody chunks) rest q := by
  induction chunks generalizing body p with
  | nil =>
      refine ⟨p, .refl p, ?_⟩
      simpa [chunksBody, renderChunks] using h
  | cons chunk chunks ih =>
      have hsplit : renderChunks (chunk :: chunks) ++ rest =
          chunk.render ++ (renderChunks chunks ++ rest) := by
        simp [renderChunks]
      have hbody : body ++ chunksBody (chunk :: chunks) =
          body ++ chunk.data ++ chunksBody chunks := by
        simp [chunksBody]
      rw [hsplit] at h
      rw [hbody] at hbound ⊢
      obtain ⟨middle, hfirst, hmiddle⟩ := h.chunk (by
        rw [List.length_append] at hbound
        omega)
      obtain ⟨last, hpasses, hlast⟩ := ih hmiddle hbound
      exact ⟨last, hfirst.trans hpasses, hlast⟩

/-! ## The end of the message -/

/-- What the parser leaves unread: it takes one line for the whole trailer. -/
def behindTrailerLine (trailers : List (List Byte)) (rest : List Byte) : List Byte :=
  match trailers with
  | [] => rest
  | _ :: trailers => renderLines trailers ++ CRLF ++ rest

theorem behindTrailerLine_eq_iff {trailers : List (List Byte)} {rest : List Byte} :
    behindTrailerLine trailers rest = rest ↔ trailers = [] := by
  cases trailers with
  | nil => exact iff_of_true rfl rfl
  | cons line trailers =>
      constructor
      · intro heq
        have hlength := congrArg List.length heq
        simp only [behindTrailerLine, List.length_append, crlf_length] at hlength
        omega
      · nofun

/-- The last size line and the line behind it complete the message. -/
theorem Gathered.finish {lastLine : SizeLine 0} {trailers : List (List Byte)}
    {body rest : List Byte} {p : Parser}
    (h : Gathered body (lastLine.render ++ CRLF ++ (renderLines trailers ++ CRLF ++ rest)) p)
    (htrailers : ∀ line ∈ trailers, findCrlf line = none ∧ line ≠ [])
    (hbound : body.length ≤ MAX_BODY_SIZE) :
    ∃ q, Passes parsePass p q ∧ q.state = .complete ∧ q.request.body.read q.buffer = body ∧
      q.unparsed = behindTrailerLine trailers rest := by
  have hsize := h.size
  have hline := parsePass_sizeLine lastLine h.state h.unparsed (by omega)
  rw [if_pos rfl] at hline
  obtain ⟨line, hfree, hnextLine⟩ : ∃ line, findCrlf line = none ∧
      renderLines trailers ++ CRLF ++ rest =
        line ++ CRLF ++ behindTrailerLine trailers rest := by
    cases trailers with
    | nil => exact ⟨[], rfl, rfl⟩
    | cons line trailers =>
        refine ⟨line, (htrailers line (by simp)).1, ?_⟩
        rw [renderLines_cons, behindTrailerLine]
        simp only [List.append_assoc]
  have hrest : ({ p with
      state := .chunkTrailer
      currentChunkSize := 0
      parsePos := p.parsePos + lastLine.render.length + 2 } : Parser).unparsed =
        line ++ CRLF ++ behindTrailerLine trailers rest := by
    have hmoved := unparsed_withPos h.unparsed
    rw [hnextLine] at hmoved
    rwa [List.length_append, crlf_length, ← Nat.add_assoc] at hmoved
  generalize hq : ({ p with
      state := .chunkTrailer
      currentChunkSize := 0
      parsePos := p.parsePos + lastLine.render.length + 2 } : Parser) = q at hline hrest
  have hfields : q.state = .chunkTrailer ∧ q.chunkedBodySize = p.chunkedBodySize ∧
      q.chunkedBody = p.chunkedBody := by
    rw [← hq]
    exact ⟨rfl, rfl, rfl⟩
  obtain ⟨hstate, hgathered, hbody⟩ := hfields
  have hview : q.chunkedBodyView.read q.buffer = body := by
    have hread := h.body
    rw [← hgathered, ← hbody] at hread
    unfold chunkedBodyView
    cases hmemory : q.chunkedBody with
    | none =>
        rw [hmemory] at hread
        simpa using hread
    | some memory =>
        rw [hmemory] at hread
        exact hread
  have hcall : q.nextState = q.parseChunkTrailerState := by
    unfold nextState
    rw [hstate]
  have hnext : q.nextState =
      ({ q with
          request := { q.request with body := q.chunkedBodyView }
          parsePos := q.parsePos + line.length + 2 }, .ok .complete) := by
    rw [hcall, parseChunkTrailerState, withLine_line false .chunkTrailer useTrailerLine hrest hfree]
    rfl
  have hpass := parsePass_of_ok (by rw [hstate]; nofun) hnext (.inr rfl)
  refine ⟨_, .head hline (.head hpass (.refl _)), rfl, hview, ?_⟩
  have hmoved := unparsed_withPos hrest
  rwa [List.length_append, crlf_length, ← Nat.add_assoc] at hmoved

/-- The parser has taken the message with this body, and exactly `rest` is
behind `parse_pos_`. -/
structure Consumed (body rest : List Byte) (r : Parsed ParserState) : Prop where
  complete : r.2 = .ok .complete
  body : r.1.request.body.read r.1.buffer = body
  unparsed : r.1.unparsed = rest
  parsePos : r.1.parsePos + rest.length = r.1.bufferSize

theorem Gathered.parseLoop {message : ChunkedBody} {rest : List Byte} {p : Parser}
    (h : Gathered [] (message.render ++ rest) p) (hsafe : p.Safe) :
    Consumed message.body rest p.parseLoop ↔ message.trailers = [] := by
  have hrender : message.render ++ rest = renderChunks message.chunks ++
      (message.lastLine.render ++ CRLF ++ (renderLines message.trailers ++ CRLF ++ rest)) := by
    unfold ChunkedBody.render
    simp only [List.append_assoc]
  rw [hrender] at h
  obtain ⟨middle, hchunks, hmiddle⟩ := h.chunks message.chunks_bound
  rw [List.nil_append] at hmiddle
  obtain ⟨q, hlast, hcomplete, hbody, hunparsed⟩ :=
    hmiddle.finish message.trailers_free message.chunks_bound
  have hpasses := hchunks.trans hlast
  have hq := passes_safe hsafe hpasses
  have hdone : q.parsePass = .done (q, .ok .complete) := by
    unfold parsePass
    rw [if_pos hcomplete]
  rw [parseLoop_eq (.of_passes hpasses (.of_done hdone)), ← behindTrailerLine_eq_iff,
    ← hunparsed]
  constructor
  · intro hconsumed
    rw [hconsumed.unparsed]
  · intro hrest
    refine ⟨rfl, hbody, hrest, ?_⟩
    have hlength : q.unparsed.length = q.bufferSize - q.parsePos := by
      rw [Parser.unparsed, List.length_drop, bytes_length hq.written]
    rw [hrest] at hlength
    have hinside := hq.parsePos
    dsimp only
    omega

/-! ## Behind a head -/

theorem passes_input {p q : Parser} (hpasses : Passes parsePass p q) :
    q.bytes = p.bytes ∧ q.headerEndPos = p.headerEndPos := by
  have hpass : ∀ s next : Parser, s.bytes = p.bytes ∧ s.headerEndPos = p.headerEndPos →
      s.parsePass = .again next → next.bytes = p.bytes ∧ next.headerEndPos = p.headerEndPos := by
    intro s next hs hpass
    obtain ⟨-, q, state, hnext, rfl, -⟩ := (parsePass_again_iff).mp hpass
    have hadv := nextState_advances s
    rw [hnext] at hadv
    exact ⟨hadv.input.bytes.trans hs.1, hadv.input.headerEndPos.trans hs.2⟩
  exact hpasses.invariant hpass ⟨rfl, rfl⟩

/-- The parser has read a head of chunked framing and nothing else. -/
structure BehindHead (head : RequestHead) (checked q : Parser) : Prop where
  ready : Ready head.render checked
  size : head.render.length ≤ MAX_HEADER_SIZE
  headChecked : headChecked head.render = true
  passes : Passes parsePass checked q
  gathered : Gathered [] [] q
  parsePos : q.parsePos = head.render.length
  bufferSize : q.bufferSize = head.render.length
  bufferCapacity : q.bufferCapacity = INITIAL_BUFFER_CAPACITY
  headerEndPos : q.headerEndPos = head.render.length

theorem findHeaderTerminator_render (head : RequestHead) (rest : List Byte) :
    findHeaderTerminator (head.render ++ rest) 0 = head.render.length :=
  findHeaderTerminator_lines head.requestLine_free head.headerLines_free rest

/-- A head after which the parser waits for a size line. -/
theorem behindHead {head : RequestHead}
    (hwaits : (({} : Parser).parse head.render).2 = .ok .chunkSize)
    (hlength : head.render.length ≤ MAX_BUFFER_SIZE) :
    ∃ checked q, BehindHead head checked q ∧
      ({} : Parser).parse head.render = (q.stall, .ok .chunkSize) := by
  obtain ⟨p, hparse, hfresh, hcapacity⟩ := parse_fresh hlength
  rw [hparse] at hwaits ⊢
  rcases hfresh.parseAvailable with
    ⟨-, q, e, herror, -⟩ | ⟨hchecked, checked, hloop, hready, hkept⟩
  · rw [herror] at hwaits
    cases hwaits
  rw [hloop] at hwaits ⊢
  have hself : head.render ++ [] = head.render := List.append_nil _
  rw [← hself] at hready hchecked
  have hsize := render_length_le hchecked
  have hmax : MAX_HEADER_SIZE < 2 ^ 16 := by
    decide
  have hinitial : MAX_HEADER_SIZE ≤ INITIAL_BUFFER_CAPACITY := by
    decide
  rcases hready.framed (by omega) with
    ⟨q, e, hend, -⟩ | ⟨f, q, -, hpasses, hholds, hrest, hpos⟩
  · rw [parseLoop_eq hend] at hwaits
    cases hwaits
  have hsizes := passes_sizes hpasses
  have hinput := passes_input hpasses
  rw [hself] at hready hchecked
  have hbuffer : checked.bufferSize = head.render.length := by
    rw [← hready.bytes, bytes_length hready.safe.written]
  have hended : checked.headerEndPos = head.render.length := by
    rw [hready.headerEndPos, ← hself, findHeaderTerminator_render, hself]
  have hnever : ∀ r : Parsed ParserState, EndsWith parsePass q r → r.2 ≠ .ok .chunkSize →
      False := by
    intro r hend hne
    rw [parseLoop_eq (.of_passes hpasses hend)] at hwaits
    exact hne hwaits
  cases f with
  | noBody =>
      have hcomplete : q.state = .complete := hholds
      have hdone : q.parsePass = .done (q, .ok .complete) := by
        unfold parsePass
        rw [if_pos hcomplete]
      exact (hnever _ (.of_done hdone) nofun).elim
  | length n =>
      exfalso
      obtain ⟨hbody, -⟩ : q.state = .body ∧ q.contentLength = n := hholds
      have hcall : q.nextState = q.parseBodyState := by
        unfold nextState
        rw [hbody]
      unfold parseBodyState at hcall
      have hnot : q.state ≠ .complete := by
        rw [hbody]
        nofun
      split at hcall
      · have hpass := parsePass_of_ok hnot hcall (.inr rfl)
        apply hnever _ (.of_passes (.head hpass (.refl _)) (.of_done rfl))
        nofun
      · have hwait : q.Waits := ⟨hnot, by rw [hcall, hbody]⟩
        apply hnever _ (.of_done (parsePass_of_waits hwait))
        rw [hbody]
        nofun
  | chunked =>
      obtain ⟨hstate, hnone⟩ : q.state = .chunkSize ∧ q.chunkedBodySize = 0 := hholds
      have hwait : q.Waits := by
        constructor
        · rw [hstate]
          nofun
        · have hcall : q.nextState = q.parseChunkSizeState := by
            unfold nextState
            rw [hstate]
          rw [hcall, parseChunkSizeState, withLine, hrest, hstate]
          rfl
      refine ⟨checked, q, ⟨hready, hsize, hchecked, hpasses, ⟨hstate, hnone, ?_, hrest⟩, hpos,
        hsizes.1.trans hbuffer, ?_, hinput.2.trans hended⟩, ?_⟩
      · rw [hnone, List.take_zero]
      · rw [hsizes.2, hkept]
        exact hcapacity (by omega)
      · rw [parseLoop_eq (.of_passes hpasses (.of_done (parsePass_of_waits hwait))), hstate]

/-- The same passes, when more has arrived with the head. -/
theorem BehindHead.more {head : RequestHead} {checked q r : Parser} {rest : List Byte}
    (h : BehindHead head checked q) (hready : Ready (head.render ++ rest) r) :
    ∃ last, Passes parsePass r last ∧ Gathered [] rest last := by
  have hextends : checked.Extends r := by
    have hsame := h.ready.same
    have hsame' := hready.same
    refine ⟨?_, ?_, h.ready.safe.written, h.ready.safe.parsePos, ?_⟩
    · rw [hsame]
      exact hsame'
    · rw [h.ready.bytes, hready.bytes]
      exact List.prefix_append _ _
    · rw [hsame]
      exact ⟨trivial, HeadersMap.within_initial _, trivial, trivial⟩
  obtain ⟨last, hpasses, hlast⟩ := hextends.passes h.passes
  have hbytes := (passes_input hpasses).1
  have hsame := hlast.same
  refine ⟨last, hpasses, ?_, ?_, ?_, ?_⟩
  · rw [hsame]
    exact h.gathered.state
  · rw [hsame]
    exact h.gathered.size
  · rw [hsame]
    exact h.gathered.body
  · rw [Parser.unparsed, hbytes, hready.bytes, hlast.parsePos, h.parsePos, List.drop_left]

/-- Bytes that arrive when nothing is buffered: the size check that is meant for
the header section applies once `header_end_pos_` has been lost. -/
theorem Gathered.parse {q : Parser} (h : Gathered [] [] q) (data : List Byte) (hsafe : q.Safe)
    (hkeep : q.spanDrops data.length = false)
    (hroom : q.bufferSize + data.length ≤ MAX_BUFFER_SIZE)
    (hhead : q.headerEndPos ≤ MAX_HEADER_SIZE) :
    (q.headerEndPos = 0 ∧ MAX_HEADER_SIZE < q.bufferSize + data.length ∧
        ∃ r e, q.parse data = (r, .error e)) ∨
      (¬(q.headerEndPos = 0 ∧ MAX_HEADER_SIZE < q.bufferSize + data.length) ∧
        ∃ r, q.parse data = r.parseLoop ∧ Gathered [] data r ∧ r.Safe) := by
  obtain ⟨hparse, hreceived, hbytes, hsame⟩ := received_spec hsafe (fun _ => hkeep) hroom
  generalize q.received data = r at hparse hreceived hbytes hsame
  have hfields : r.state = q.state ∧ r.parsePos = q.parsePos ∧
      r.headerEndPos = q.headerEndPos ∧ r.chunkedBodySize = q.chunkedBodySize ∧
      r.chunkedBody = q.chunkedBody := by
    rw [hsame]
    exact ⟨rfl, rfl, rfl, rfl, rfl⟩
  obtain ⟨hstate, hpos, hend, hsize, hbody⟩ := hfields
  have hlength : r.bufferSize = q.bufferSize + data.length := by
    rw [← bytes_length hreceived.written, hbytes, List.length_append, bytes_length hsafe.written]
  have hgathered : Gathered [] data r := by
    refine ⟨hstate.trans h.state, hsize.trans h.size, ?_, ?_⟩
    · rw [hsize, hbody]
      exact h.body
    · have hinside := hsafe.parsePos
      have hold := h.unparsed
      rw [Parser.unparsed] at hold
      rw [Parser.unparsed, hbytes, hpos, List.drop_append_of_le_length (by
        rw [bytes_length hsafe.written]
        exact hinside), hold, List.nil_append]
  have houtside : r.inHeaderSection = false := by
    simp [inHeaderSection, hgathered.state]
  have hlimit : r.exceedsSizeLimit =
      decide (q.headerEndPos = 0 ∧ MAX_HEADER_SIZE < q.bufferSize + data.length) := by
    have hnot : ¬ MAX_HEADER_SIZE < q.headerEndPos := Nat.not_lt.mpr hhead
    unfold exceedsSizeLimit
    rw [hgathered.state, hend, hlength]
    simp [hnot]
  rw [hparse, parseAvailable, checkInput_outside houtside, hlimit]
  by_cases hlost : q.headerEndPos = 0 ∧ MAX_HEADER_SIZE < q.bufferSize + data.length
  · left
    rw [decide_eq_true hlost]
    exact ⟨hlost.1, hlost.2, r, .invalidFd, rfl⟩
  · right
    rw [decide_eq_false hlost]
    exact ⟨hlost, r, rfl, hgathered, hreceived⟩

theorem compactBuffer_parsePos {p : Parser} (hdrops : p.compactionDrops = true) :
    p.compactBuffer.parsePos = 0 := by
  simp only [compactionDrops, Bool.and_eq_true, Bool.or_eq_true, decide_eq_true_eq] at hdrops
  unfold compactBuffer
  split
  · rfl
  next hmore =>
    rw [if_pos (hdrops.2.resolve_left hmore)]

/-- Asking for a span that makes room first is asking the compacted parser. -/
theorem parse_of_drops {p : Parser} {data : List Byte} (hsafe : p.Safe)
    (hdrops : p.spanDrops data.length = true) (hlength : data.length ≤ MAX_BUFFER_SIZE) :
    p.parse data = p.compactBuffer.parse data := by
  unfold spanDrops at hdrops
  simp only [Bool.and_eq_true, decide_eq_true_eq] at hdrops
  obtain ⟨⟨hfull, hstate⟩, hcompaction⟩ := hdrops
  have hzero := compactBuffer_parsePos hcompaction
  have hcompact := compactBuffer_safe hsafe
  have hsome : (decide (0 < p.parsePos) && decide (p.state ≠ .complete)) = true := by
    simp only [compactionDrops, Bool.and_eq_true, decide_eq_true_eq] at hcompaction
    simp [hcompaction.1, hstate]
  have hnone : (decide (0 < p.compactBuffer.parsePos) &&
      decide (p.compactBuffer.state ≠ .complete)) = false := by
    rw [hzero]
    rfl
  have hshort := Nat.not_lt.mpr hlength
  have hsize := Nat.not_lt.mpr hsafe.bufferSize
  have hsize' := Nat.not_lt.mpr hcompact.bufferSize
  have hspan : p.writableInputSpan data.length =
      p.compactBuffer.writableInputSpan data.length := by
    unfold writableInputSpan
    rw [if_neg hshort, if_neg hsize, if_pos hfull, hsome, if_pos rfl, if_neg hshort, hnone,
      if_neg Bool.false_ne_true]
    dsimp only
    rw [if_neg hsize', if_neg hsize']
    split
    · rfl
    · rfl
  have hne : data ≠ [] := by
    rintro rfl
    exact Nat.not_lt_zero _ hfull
  unfold parse
  rw [if_neg hne, if_neg hne, hspan]

/-- Compaction when everything has been parsed. -/
theorem Gathered.compact {q : Parser} (h : Gathered [] [] q) (hall : q.bufferSize ≤ q.parsePos) :
    Gathered [] [] q.compactBuffer ∧ q.compactBuffer.headerEndPos = 0 ∧
      q.compactBuffer.bufferSize = 0 ∧ q.compactBuffer.compactionDrops = false := by
  unfold compactBuffer
  rw [if_pos hall]
  refine ⟨⟨h.state, h.size, h.body, rfl⟩, rfl, rfl, ?_⟩
  simp [compactionDrops]

/-- The message behind a head that has been dropped from the buffer. -/
theorem Gathered.parse_compact {q : Parser} (h : Gathered [] [] q) (message : ChunkedBody)
    (rest : List Byte) (hsafe : q.Safe) (hall : q.bufferSize ≤ q.parsePos)
    (hlength : (message.render ++ rest).length ≤ MAX_BUFFER_SIZE) :
    Consumed message.body rest (q.compactBuffer.parse (message.render ++ rest)) ↔
      message.trailers = [] ∧ (message.render ++ rest).length ≤ MAX_HEADER_SIZE := by
  obtain ⟨hcompact, hend, hsize, hdrops⟩ := h.compact hall
  rcases hcompact.parse (message.render ++ rest) (compactBuffer_safe hsafe)
      (by simp [spanDrops, hdrops]) (by omega) (by omega) with
    ⟨-, hlong, r, e, herror⟩ | ⟨hfits, r, hloop, hgathered, hr⟩
  · rw [herror]
    constructor
    · intro hconsumed
      cases hconsumed.complete
    · omega
  · rw [hloop, hgathered.parseLoop hr]
    rw [hsize, Nat.zero_add, not_and, Nat.not_lt] at hfits
    exact ⟨fun htrailers => ⟨htrailers, hfits hend⟩, And.left⟩

/-- The head and the body in one piece. -/
theorem parse_chunked_together {head : RequestHead} (message : ChunkedBody) (rest : List Byte)
    (hwaits : (({} : Parser).parse head.render).2 = .ok .chunkSize)
    (hlength : (head.render ++ (message.render ++ rest)).length ≤ MAX_BUFFER_SIZE) :
    Consumed message.body rest (({} : Parser).parse (head.render ++ (message.render ++ rest))) ↔
      message.trailers = [] := by
  have hsum := hlength
  rw [List.length_append] at hsum
  obtain ⟨checked, q, hbehind, -⟩ := behindHead hwaits (by omega)
  -- the passes over the head are the same with the body behind it
  obtain ⟨p, hparse, hfresh, -⟩ := parse_fresh hlength
  have hend : findHeaderTerminator head.render 0 ≠ 0 := by
    have hself := findHeaderTerminator_render head []
    rw [List.append_nil] at hself
    rw [hself]
    simp [RequestHead.render, crlf_length]
  have hchecked := headChecked_append hbehind.headChecked hend (message.render ++ rest)
  rcases hfresh.parseAvailable with ⟨hbad, -⟩ | ⟨-, r, hloop, hready, -⟩
  · rw [hchecked] at hbad
    cases hbad
  obtain ⟨last, hpasses, hgathered⟩ := hbehind.more hready
  rw [hparse, hloop, parseLoop_eq (.of_passes hpasses (parseLoop_endsWith last))]
  exact hgathered.parseLoop (passes_safe hready.safe hpasses)

/-- The body behind a head that has been parsed. -/
theorem parse_chunked_behind {head : RequestHead} (message : ChunkedBody) (rest : List Byte)
    (hwaits : (({} : Parser).parse head.render).2 = .ok .chunkSize)
    (hlength : (head.render ++ (message.render ++ rest)).length ≤ MAX_BUFFER_SIZE) :
    Consumed message.body rest
        ((({} : Parser).parse head.render).1.parse (message.render ++ rest)) ↔
      message.trailers = [] ∧
        ((message.render ++ rest).length ≤ MAX_HEADER_SIZE ∨
          head.render.length ≤ COMPACT_THRESHOLD ∧
            head.render.length + (message.render ++ rest).length ≤ INITIAL_BUFFER_CAPACITY) := by
  have hsum := hlength
  rw [List.length_append] at hsum
  obtain ⟨checked, q, hbehind, hfirst⟩ := behindHead hwaits (by omega)
  have hq := passes_safe hbehind.ready.safe hbehind.passes
  have hpos := hbehind.parsePos
  have hsize := hbehind.bufferSize
  have hcapacity := hbehind.bufferCapacity
  have hpositive : 0 < head.render.length := by
    simp [RequestHead.render, crlf_length]
  have hlarge : COMPACT_THRESHOLD + MAX_HEADER_SIZE ≤ INITIAL_BUFFER_CAPACITY := by
    decide
  have hdropped := hbehind.gathered.parse_compact message rest hq
    (by omega) (by omega)
  rw [hfirst]
  dsimp only
  by_cases hshort : head.render.length ≤ COMPACT_THRESHOLD
  · have hkept : q.stall = q := by
      have hsmall : ¬ MAX_HEADER_SIZE * 2 < q.bufferSize := by
        have hheader := hbehind.size
        omega
      apply stall_eq
      simp [stallDrops, hsmall, hpos, hshort]
    rw [hkept]
    by_cases hfits : head.render.length + (message.render ++ rest).length ≤
        INITIAL_BUFFER_CAPACITY
    · have hkeep : q.spanDrops (message.render ++ rest).length = false := by
        have hroom : ¬ q.bufferCapacity - q.bufferSize < (message.render ++ rest).length := by
          omega
        rw [spanDrops, decide_eq_false hroom, Bool.false_and, Bool.false_and]
      rcases hbehind.gathered.parse (message.render ++ rest) hq
          hkeep (by omega) (by rw [hbehind.headerEndPos]; exact hbehind.size)
        with ⟨hlost, -⟩ | ⟨-, r, hloop, hgathered, hr⟩
      · rw [hbehind.headerEndPos] at hlost
        omega
      · rw [hloop, hgathered.parseLoop hr]
        exact ⟨fun htrailers => ⟨htrailers, .inr ⟨hshort, hfits⟩⟩, And.left⟩
    · have hdrops : q.spanDrops (message.render ++ rest).length = true := by
        have hfull : q.bufferCapacity - q.bufferSize < (message.render ++ rest).length := by
          omega
        have hstate := hbehind.gathered.state
        have hall : q.compactionDrops = true := by
          rw [compactionDrops, hpos, hsize]
          simp [hpositive]
        rw [spanDrops, decide_eq_true hfull, hall, hstate]
        rfl
      rw [parse_of_drops hq hdrops (by omega), hdropped]
      exact and_congr_right fun _ => ⟨.inl, fun h => h.resolve_right (by omega)⟩
  · have hmoved : q.stall = q.compactBuffer := by
      have hlong : COMPACT_THRESHOLD < q.parsePos := by
        omega
      unfold stall
      simp [hlong]
    rw [hmoved, hdropped]
    exact and_congr_right fun _ => ⟨.inl, fun h => h.resolve_right (by omega)⟩

/-- A chunked body behind a head with chunked framing is taken whole if it has
no trailer lines.  Where the head came before it in an earlier call, it must
also be short enough to be taken for a header section, or fit into the initial
buffer behind a short head: else `header_end_pos_` is lost to compaction. -/
theorem parse_chunked (head : RequestHead) (message : ChunkedBody) (rest : List Byte)
    (hwaits : (({} : Parser).parse head.render).2 = .ok .chunkSize)
    (hlength : (head.render ++ (message.render ++ rest)).length ≤ MAX_BUFFER_SIZE) :
    (Consumed message.body rest (({} : Parser).parse (head.render ++ (message.render ++ rest))) ↔
        message.trailers = []) ∧
      (Consumed message.body rest
          ((({} : Parser).parse head.render).1.parse (message.render ++ rest)) ↔
        message.trailers = [] ∧
          ((message.render ++ rest).length ≤ MAX_HEADER_SIZE ∨
            head.render.length ≤ COMPACT_THRESHOLD ∧
              head.render.length + (message.render ++ rest).length ≤
                INITIAL_BUFFER_CAPACITY)) :=
  ⟨parse_chunked_together message rest hwaits hlength,
    parse_chunked_behind message rest hwaits hlength⟩

/-- A chunk of three bytes, an extension, and one trailer line or none. -/
def smallBody (trailers : List (List Byte))
    (htrailers : ∀ line ∈ trailers, findCrlf line = none ∧ line ≠ []) : ChunkedBody where
  chunks := [⟨bytesOf "abc", by decide +kernel, ⟨bytesOf "3", bytesOf ";x=1", by decide +kernel, by decide +kernel,
    by decide +kernel, by decide +kernel, by decide +kernel⟩⟩]
  lastLine := ⟨bytesOf "0", [], by decide +kernel, by decide +kernel, by decide +kernel, by decide +kernel, by decide +kernel⟩
  trailers
  chunks_bound := by decide +kernel
  trailers_free := htrailers

def chunkedHead : RequestHead where
  requestLine := bytesOf "POST / HTTP/1.1"
  headerLines := [bytesOf "Transfer-Encoding: chunked"]
  requestLine_free := by decide +kernel
  headerLines_free := by decide

theorem chunkedHead_waits : (({} : Parser).parse chunkedHead.render).2 = .ok .chunkSize := by
  decide +kernel

theorem parse_chunked_small :
    Consumed (bytesOf "abc") (bytesOf "GET")
        (({} : Parser).parse (chunkedHead.render ++ ((smallBody [] nofun).render ++ bytesOf "GET"))) ∧
      Consumed (bytesOf "abc") (bytesOf "GET")
        ((({} : Parser).parse chunkedHead.render).1.parse
          ((smallBody [] nofun).render ++ bytesOf "GET")) := by
  have hparse := parse_chunked chunkedHead (smallBody [] nofun) (bytesOf "GET")
    chunkedHead_waits (by decide)
  exact ⟨hparse.1.mpr rfl, hparse.2.mpr ⟨rfl, .inl (by decide)⟩⟩

/-- With a trailer line the message is complete while its last line is still
unread. -/
theorem parse_trailer :
    (({} : Parser).parse chunkedHead.render).2 = .ok .chunkSize ∧
      ¬ Consumed (smallBody [bytesOf "X: y"] (by decide)).body []
        (({} : Parser).parse
          (chunkedHead.render ++ ((smallBody [bytesOf "X: y"] (by decide)).render ++ []))) := by
  constructor
  · exact chunkedHead_waits
  · intro hconsumed
    have hrest : (({} : Parser).parse (chunkedHead.render ++
        ((smallBody [bytesOf "X: y"] (by decide)).render ++ []))).1.unparsed = CRLF := by
      decide +kernel
    rw [hconsumed.unparsed] at hrest
    cases hrest

end Parser

end Http
end Katana
