import Katana.Http.ParserSteps

/-!
# Cursor safety

The cursors of the parser stay inside the buffer, the buffer inside its
capacity, and the decoded body inside the arena block that receives it, in
every state the interface can bring about.  Calls that fail count like any
other: the parser they leave behind is used again.
-/

namespace Katana
namespace Http

open Library

namespace Parser

structure CursorSafe (p : Parser) : Prop where
  parsePos : p.parsePos ≤ p.bufferSize
  bufferSize : p.bufferSize ≤ p.bufferCapacity
  bufferCapacity : p.bufferCapacity ≤ MAX_BUFFER_SIZE
  headerEndPos : p.headerEndPos ≤ p.bufferSize
  validatedBytes : p.validatedBytes ≤ p.bufferSize
  crlfScanPos : p.crlfScanPos ≤ p.bufferSize
  headerCount : p.headerCount ≤ MAX_HEADER_COUNT
  contentLength : p.state = .body → p.contentLength ≤ MAX_BODY_SIZE
  chunkData : p.state = .chunkData →
    p.chunkedBodySize + p.currentChunkSize ≤ MAX_BODY_SIZE

/-- The bounds that carry cursor safety from step to step: the bytes below
`buffer_size_` have been written and the decoded body fits in its block. -/
structure Safe (p : Parser) : Prop extends CursorSafe p where
  written : p.bufferSize ≤ p.buffer.length
  chunkedBodySize : p.chunkedBodySize ≤ MAX_BODY_SIZE

theorem safe_initial : Safe {} := by
  refine ⟨⟨?_, ?_, ?_, ?_, ?_, ?_, ?_, nofun, nofun⟩, ?_, ?_⟩
  all_goals decide

/-- The parser once the state a step returned has been stored. -/
def settled : Parsed ParserState → Parser
  | (p, .ok state) => { p with state }
  | (p, .error _) => p

/-! ## Steps of the loop -/

/-- The bounds of `Safe` that a step moving inside the buffer keeps by itself. -/
theorem Safe.of_advances {p q : Parser} {r : Parsed ParserState} (hsafe : p.Safe)
    (hadv : p.Advances r) (hq : q = settled r)
    (hbody : q.state = .body → q.contentLength ≤ MAX_BODY_SIZE)
    (hchunk : q.state = .chunkData → q.chunkedBodySize + q.currentChunkSize ≤ MAX_BODY_SIZE)
    (hsize : q.chunkedBodySize ≤ MAX_BODY_SIZE) : q.Safe := by
  obtain ⟨hinput, -, hinside, -, hcount⟩ := hadv
  have hpos := hinside hsafe.parsePos
  have hheaders := hcount hsafe.headerCount
  have hfields : q.bufferSize = p.bufferSize ∧ q.bufferCapacity = p.bufferCapacity ∧
      q.headerEndPos = p.headerEndPos ∧ q.validatedBytes = p.validatedBytes ∧
      q.crlfScanPos = p.crlfScanPos ∧ q.buffer = p.buffer ∧ q.parsePos ≤ p.bufferSize ∧
      q.headerCount ≤ MAX_HEADER_COUNT := by
    obtain ⟨q', result⟩ := r
    cases result <;>
      (subst hq
       exact ⟨hinput.bufferSize, hinput.bufferCapacity, hinput.headerEndPos,
        hinput.validatedBytes, hinput.crlfScanPos, hinput.buffer, hpos, hheaders⟩)
  obtain ⟨h1, h2, h3, h4, h5, h6, h7, h8⟩ := hfields
  refine ⟨⟨?_, ?_, ?_, ?_, ?_, ?_, h8, hbody, hchunk⟩, ?_, hsize⟩
  · rw [h1]
    exact h7
  · rw [h1, h2]
    exact hsafe.bufferSize
  · rw [h2]
    exact hsafe.bufferCapacity
  · rw [h1, h3]
    exact hsafe.headerEndPos
  · rw [h1, h4]
    exact hsafe.validatedBytes
  · rw [h1, h5]
    exact hsafe.crlfScanPos
  · rw [h1, h6]
    exact hsafe.written

theorem withLine_safe {checked : Bool} {stay : ParserState}
    {use : ℕ → List Byte → Parser → Parsed ParserState}
    (huse : ∀ start line (q : Parser), q.LineUse (use start line q)) {p : Parser}
    (hsafe : p.Safe) (hstay : p.state = stay) (hbody : stay ≠ .body)
    (hchunk : stay ≠ .chunkData) : (settled (p.withLine checked stay use)).Safe := by
  refine hsafe.of_advances (withLine_advances huse p) rfl ?_ ?_ ?_
  all_goals
    rcases withLine_cases checked stay use p with
      ⟨-, heq⟩ | ⟨length, -, ⟨-, -, heq⟩ | ⟨-, heq⟩⟩
  · rw [heq]
    exact fun h => absurd h hbody
  · rw [heq]
    exact fun h => absurd (hstay.symm.trans h) hbody
  · rw [heq]
    have hline := huse p.parsePos (p.unparsed.take length)
      { p with parsePos := p.parsePos + length + 2 }
    generalize use p.parsePos _ _ = r at hline
    obtain ⟨q, e | s⟩ := r
    · exact fun h => absurd (hstay.symm.trans (hline.frame.state.symm.trans h)) hbody
    · rintro (rfl : s = .body)
      exact hline.body rfl
  · rw [heq]
    exact fun h => absurd h hchunk
  · rw [heq]
    exact fun h => absurd (hstay.symm.trans h) hchunk
  · rw [heq]
    have hline := huse p.parsePos (p.unparsed.take length)
      { p with parsePos := p.parsePos + length + 2 }
    generalize use p.parsePos _ _ = r at hline
    obtain ⟨q, e | s⟩ := r
    · exact fun h => absurd (hstay.symm.trans (hline.frame.state.symm.trans h)) hchunk
    · rintro (rfl : s = .chunkData)
      exact hline.chunkData rfl
  · rw [heq]
    exact hsafe.chunkedBodySize
  · rw [heq]
    exact hsafe.chunkedBodySize
  · rw [heq]
    have hline := huse p.parsePos (p.unparsed.take length)
      { p with parsePos := p.parsePos + length + 2 }
    generalize use p.parsePos _ _ = r at hline
    have hsame : r.1.chunkedBodySize ≤ MAX_BODY_SIZE :=
      hline.frame.chunkedBodySize.trans_le hsafe.chunkedBodySize
    obtain ⟨q, e | s⟩ := r
    · exact hsame
    · exact hsame

theorem parseBodyState_safe {p : Parser} (hsafe : p.Safe) (hstate : p.state = .body) :
    (settled p.parseBodyState).Safe := by
  refine hsafe.of_advances (parseBodyState_advances p) rfl ?_ ?_ ?_
  all_goals
    unfold parseBodyState
    split
  · nofun
  · exact fun _ => hsafe.contentLength hstate
  · nofun
  · nofun
  · exact hsafe.chunkedBodySize
  · exact hsafe.chunkedBodySize

theorem parseChunkDataState_safe {p : Parser} (hsafe : p.Safe) (hstate : p.state = .chunkData) :
    (settled p.parseChunkDataState).Safe := by
  have hfits := hsafe.chunkData hstate
  refine hsafe.of_advances (parseChunkDataState_advances p) rfl ?_ ?_ ?_
  all_goals
    unfold parseChunkDataState
    split
  · split
    · exact fun h => absurd (hstate.symm.trans h) nofun
    · nofun
  · nofun
  · split
    · exact hsafe.chunkData
    · nofun
  · exact fun _ => hfits
  · split
    · exact hsafe.chunkedBodySize
    · exact hfits
  · exact hsafe.chunkedBodySize

theorem nextState_safe {p : Parser} (hsafe : p.Safe) : (settled p.nextState).Safe := by
  unfold nextState
  cases hstate : p.state with
  | requestLine => exact withLine_safe useRequestLine_use hsafe hstate nofun nofun
  | headers => exact withLine_safe useHeaderLine_use hsafe hstate nofun nofun
  | body => exact parseBodyState_safe hsafe hstate
  | chunkSize => exact withLine_safe useChunkSizeLine_use hsafe hstate nofun nofun
  | chunkData => exact parseChunkDataState_safe hsafe hstate
  | chunkTrailer => exact withLine_safe useTrailerLine_use hsafe hstate nofun nofun
  | complete =>
      have hsame : settled (p, .ok .complete) = p := by
        rw [settled, ← hstate]
      rw [hsame]
      exact hsafe

/-! ## The buffer -/

theorem compactBuffer_safe {p : Parser} (hsafe : p.Safe) : p.compactBuffer.Safe := by
  have hpos := hsafe.parsePos
  have hwritten := hsafe.written
  unfold compactBuffer
  split
  · refine ⟨⟨le_rfl, Nat.zero_le _, hsafe.bufferCapacity, le_rfl, le_rfl, le_rfl,
      hsafe.headerCount, hsafe.contentLength, hsafe.chunkData⟩, Nat.zero_le _,
      hsafe.chunkedBodySize⟩
  split
  · refine ⟨⟨Nat.zero_le _, (Nat.sub_le _ _).trans hsafe.bufferSize, hsafe.bufferCapacity,
      Nat.sub_le_sub_right hsafe.headerEndPos _, Nat.sub_le_sub_right hsafe.validatedBytes _,
      Nat.sub_le_sub_right hsafe.crlfScanPos _, hsafe.headerCount, hsafe.contentLength,
      hsafe.chunkData⟩, ?_, hsafe.chunkedBodySize⟩
    simp only [List.length_append, List.length_take, List.length_drop]
    omega
  · exact hsafe

theorem growCapacity_le (required rounds : ℕ) {capacity : ℕ}
    (hcapacity : capacity ≤ MAX_BUFFER_SIZE) :
    growCapacity required rounds capacity ≤ MAX_BUFFER_SIZE := by
  induction rounds generalizing capacity with
  | zero => exact hcapacity
  | succ rounds ih =>
      unfold growCapacity
      split
      · split
        · exact le_rfl
        · exact ih (by omega)
      · exact hcapacity

/-- The doubling loop ends before it runs out of rounds. -/
theorem le_growCapacity {required : ℕ} (hrequired : required ≤ MAX_BUFFER_SIZE)
    (rounds : ℕ) {capacity : ℕ} (hpos : 0 < capacity)
    (hrounds : required ≤ capacity + rounds) :
    required ≤ growCapacity required rounds capacity := by
  induction rounds generalizing capacity with
  | zero => simpa [growCapacity] using hrounds
  | succ rounds ih =>
      unfold growCapacity
      split
      · split
        · exact hrequired
        · exact ih (by omega) (by omega)
      · omega

/-- `reserve_buffer` keeps the bytes below `buffer_size_`. -/
theorem reserveBuffer_safe {capacity : ℕ} {p : Parser} (hsafe : p.Safe) :
    (p.reserveBuffer capacity).1.Safe := by
  unfold reserveBuffer
  split
  · exact hsafe
  split
  · exact hsafe
  next hlimit hgrow =>
    refine ⟨⟨hsafe.parsePos, ?_, ?_, hsafe.headerEndPos, hsafe.validatedBytes,
      hsafe.crlfScanPos, hsafe.headerCount, hsafe.contentLength, hsafe.chunkData⟩, ?_,
      hsafe.chunkedBodySize⟩
    · have hsize := hsafe.bufferSize
      dsimp only
      omega
    · dsimp only
      omega
    · exact (bytes_length hsafe.written).ge

theorem ensureBufferCapacity_safe (required : ℕ) {p : Parser} (hsafe : p.Safe) :
    (p.ensureBufferCapacity required).1.Safe := by
  unfold ensureBufferCapacity
  split
  · exact hsafe
  split
  · exact hsafe
  · exact reserveBuffer_safe hsafe

/-- Capacity for at most `MAX_BUFFER_SIZE` bytes is always found, and only the
buffer's place and capacity change. -/
theorem ensureBufferCapacity_grows {required : ℕ} {p : Parser}
    (hrequired : required ≤ MAX_BUFFER_SIZE) (hcapacity : p.bufferCapacity ≤ MAX_BUFFER_SIZE) :
    (p.ensureBufferCapacity required).2 = true ∧
      required ≤ (p.ensureBufferCapacity required).1.bufferCapacity ∧
      ((p.ensureBufferCapacity required).1 = p ∨
        ∃ capacity, (p.ensureBufferCapacity required).1 =
          { p with buffer := p.bytes, bufferCapacity := capacity }) := by
  unfold ensureBufferCapacity
  rw [if_neg (by omega)]
  split
  next hfits => exact ⟨rfl, hfits, .inl rfl⟩
  next hfits =>
    dsimp only
    have hstart : (if p.bufferCapacity > 0 then p.bufferCapacity else INITIAL_BUFFER_CAPACITY) ≤
        MAX_BUFFER_SIZE := by
      split
      · exact hcapacity
      · decide
    generalize (if p.bufferCapacity > 0 then p.bufferCapacity
      else INITIAL_BUFFER_CAPACITY) = start at hstart
    have hgrown := growCapacity_le required required hstart
    generalize growCapacity required required start = grown at hgrown
    have hle : required ≤ if grown < required then required else grown := by
      split <;> omega
    have hmax : (if grown < required then required else grown) ≤ MAX_BUFFER_SIZE := by
      split <;> omega
    generalize (if grown < required then required else grown) = capacity at hle hmax
    unfold reserveBuffer
    rw [if_neg (by omega), if_neg (by omega)]
    exact ⟨rfl, hle, .inr ⟨capacity, rfl⟩⟩

theorem maybeShrinkBuffer_bounds {p : Parser} (hcapacity : p.bufferCapacity ≤ MAX_BUFFER_SIZE) :
    p.maybeShrinkBuffer.bufferSize = p.bufferSize ∧
      p.maybeShrinkBuffer.bufferCapacity ≤ MAX_BUFFER_SIZE := by
  unfold maybeShrinkBuffer
  split
  · exact ⟨rfl, hcapacity⟩
  · unfold reserveBuffer
    rw [if_neg (by decide), if_neg (by simp [INITIAL_BUFFER_CAPACITY])]
    have hinitial : INITIAL_BUFFER_CAPACITY ≤ MAX_BUFFER_SIZE := by decide
    exact ⟨rfl, hinitial⟩

/-! ## Parsing -/

theorem scanHeaderEnd_safe {p : Parser} (hsafe : p.Safe) : p.scanHeaderEnd.Safe := by
  unfold scanHeaderEnd
  split
  next hnone =>
    dsimp only
    refine ⟨⟨hsafe.parsePos, hsafe.bufferSize, hsafe.bufferCapacity, ?_,
      hsafe.validatedBytes, le_rfl, hsafe.headerCount, hsafe.contentLength,
      hsafe.chunkData⟩, hsafe.written, hsafe.chunkedBodySize⟩
    dsimp only
    unfold findHeaderTerminator
    split
    next i hfind =>
      have hbound := firstIndex_bound hfind
      have hlength := bytes_length hsafe.written
      rw [List.length_drop] at hbound
      have hfour : (CRLF ++ CRLF).length = 4 := rfl
      omega
    · exact Nat.zero_le _
  · exact hsafe

theorem validateHeaderSection_safe {p : Parser} (hsafe : p.Safe) :
    p.validateHeaderSection.1.Safe := by
  unfold validateHeaderSection
  dsimp only
  split
  · exact hsafe
  · refine ⟨⟨hsafe.parsePos, hsafe.bufferSize, hsafe.bufferCapacity, hsafe.headerEndPos, ?_,
      hsafe.crlfScanPos, hsafe.headerCount, hsafe.contentLength, hsafe.chunkData⟩,
      hsafe.written, hsafe.chunkedBodySize⟩
    dsimp only
    unfold validationLimit
    split
    · exact hsafe.headerEndPos
    · exact le_rfl

theorem checkInput_safe {p : Parser} (hsafe : p.Safe) : p.checkInput.1.Safe := by
  have hchecked : (if p.inHeaderSection then p.scanHeaderEnd.validateHeaderSection
      else (p, .ok ()) : Parsed Unit).1.Safe := by
    split
    · exact validateHeaderSection_safe (scanHeaderEnd_safe hsafe)
    · exact hsafe
  unfold checkInput
  split
  next q e heq => rwa [heq] at hchecked
  next q _ heq =>
    rw [heq] at hchecked
    split
    · exact hchecked
    · exact hchecked

theorem stall_safe {p : Parser} (hsafe : p.Safe) : p.stall.Safe := by
  unfold stall
  split
  · exact compactBuffer_safe hsafe
  · exact hsafe

theorem parsePass_again_safe {p next : Parser} (hsafe : p.Safe)
    (hpass : p.parsePass = .again next) : next.Safe := by
  obtain ⟨-, q, state, hnext, rfl, -⟩ := (parsePass_again_iff).mp hpass
  have hstep := nextState_safe hsafe
  rwa [hnext] at hstep

theorem passes_safe {p q : Parser} (hsafe : p.Safe) (hpasses : Passes parsePass p q) : q.Safe :=
  hpasses.invariant (fun _ _ h hpass => parsePass_again_safe h hpass) hsafe

theorem parseLoop_safe {p : Parser} (hsafe : p.Safe) : p.parseLoop.1.Safe := by
  obtain ⟨last, hpasses, hdone⟩ := parseLoop_endsWith p
  have hlast := passes_safe hsafe hpasses
  have hstep := nextState_safe hlast
  rcases parsePass_done_cases hdone with
    ⟨-, heq⟩ | ⟨-, q, e, hnext, heq⟩ | ⟨-, q, state, hnext, -, -, heq⟩
  · rw [heq]
    exact hlast
  · rw [heq]
    rwa [hnext] at hstep
  · rw [heq]
    rw [hnext] at hstep
    exact stall_safe hstep

theorem parseAvailable_safe {p : Parser} (hsafe : p.Safe) : p.parseAvailable.1.Safe := by
  have hchecked := checkInput_safe hsafe
  unfold parseAvailable
  split
  next q e heq => rwa [heq] at hchecked
  next q _ heq =>
    rw [heq] at hchecked
    exact parseLoop_safe hchecked

/-! ## Interface -/

theorem inputSpan_safe {desiredSize : ℕ} {p : Parser} (hsafe : p.Safe) :
    (p.inputSpan desiredSize).1.Safe := by
  have hgrown := ensureBufferCapacity_safe (p.bufferSize + desiredSize) hsafe
  unfold inputSpan
  split
  · split
    next q heq => rwa [heq] at hgrown
    next q heq => rwa [heq] at hgrown
  · exact hsafe

theorem writableInputSpan_safe (desiredSize : ℕ) {p : Parser} (hsafe : p.Safe) :
    (p.writableInputSpan desiredSize).1.Safe := by
  unfold writableInputSpan
  split
  · exact hsafe
  split
  · exact hsafe
  split
  · dsimp only
    have hcompact : (if 0 < p.parsePos && p.state ≠ .complete then p.compactBuffer
        else p).Safe := by
      split
      · exact compactBuffer_safe hsafe
      · exact hsafe
    generalize (if 0 < p.parsePos && p.state ≠ .complete then p.compactBuffer
      else p) = q at hcompact
    have hgrown := ensureBufferCapacity_safe (q.bufferSize + desiredSize) hcompact
    split
    · exact hcompact
    split
    · split
      · exact hcompact
      split
      next q' heq => rwa [heq] at hgrown
      next q' heq =>
        rw [heq] at hgrown
        exact inputSpan_safe hgrown
    · exact inputSpan_safe hcompact
  · exact inputSpan_safe hsafe

/-- A span lies behind the bytes already in the buffer and inside its capacity. -/
theorem inputSpan_inside {desiredSize : ℕ} {p : Parser} (hsafe : p.Safe) {span : Span}
    (hspan : (p.inputSpan desiredSize).2 = .ok span) :
    span.offset = (p.inputSpan desiredSize).1.bufferSize ∧ span.length = desiredSize ∧
      span.offset + span.length ≤ (p.inputSpan desiredSize).1.bufferCapacity := by
  have hgrown := ensureBufferCapacity_safe (p.bufferSize + desiredSize) hsafe
  unfold inputSpan at hspan ⊢
  split at hspan
  next hfull =>
    rw [if_pos hfull]
    by_cases hrequired : p.bufferSize + desiredSize ≤ MAX_BUFFER_SIZE
    · obtain ⟨htrue, hroom, hsame⟩ := ensureBufferCapacity_grows hrequired hsafe.bufferCapacity
      rcases hensure : p.ensureBufferCapacity (p.bufferSize + desiredSize) with ⟨q, found⟩
      rw [hensure] at htrue hroom hsame hspan
      obtain rfl : found = true := htrue
      cases hspan
      have hsize : q.bufferSize = p.bufferSize := by
        rcases hsame with heq | ⟨capacity, heq⟩
        · rw [show q = p from heq]
        · rw [show q = _ from heq]
      refine ⟨rfl, rfl, ?_⟩
      dsimp only at hroom ⊢
      omega
    · have hrefused : p.ensureBufferCapacity (p.bufferSize + desiredSize) = (p, false) := by
        unfold ensureBufferCapacity
        rw [if_pos (by omega)]
      rw [hrefused] at hspan
      cases hspan
  next hroom =>
    rw [if_neg hroom]
    cases hspan
    have hsize := hsafe.bufferSize
    refine ⟨rfl, rfl, ?_⟩
    dsimp only
    omega

theorem writableInputSpan_inside {desiredSize : ℕ} {p : Parser} (hsafe : p.Safe) {span : Span}
    (hspan : (p.writableInputSpan desiredSize).2 = .ok span) :
    span.offset = (p.writableInputSpan desiredSize).1.bufferSize ∧
      span.length = desiredSize ∧
      span.offset + span.length ≤ (p.writableInputSpan desiredSize).1.bufferCapacity := by
  unfold writableInputSpan at hspan ⊢
  split at hspan
  · cases hspan
  next hmax =>
  rw [if_neg hmax]
  split at hspan
  · cases hspan
  next hsize =>
  rw [if_neg hsize]
  split at hspan
  next hfull =>
    rw [if_pos hfull]
    dsimp only at hspan ⊢
    have hcompact : (if 0 < p.parsePos && p.state ≠ .complete then p.compactBuffer
        else p).Safe := by
      split
      · exact compactBuffer_safe hsafe
      · exact hsafe
    generalize (if 0 < p.parsePos && p.state ≠ .complete then p.compactBuffer
      else p) = q at hcompact hspan
    have hgrown := ensureBufferCapacity_safe (q.bufferSize + desiredSize) hcompact
    split at hspan
    · cases hspan
    next hsize' =>
    rw [if_neg hsize']
    split at hspan
    next hfull' =>
      rw [if_pos hfull']
      split at hspan
      · cases hspan
      next hmax' =>
      rw [if_neg hmax']
      rcases hensure : q.ensureBufferCapacity (q.bufferSize + desiredSize) with ⟨q', found⟩
      rw [hensure] at hspan hgrown
      cases found with
      | false => cases hspan
      | true => exact inputSpan_inside hgrown hspan
    next hroom' =>
      rw [if_neg hroom']
      exact inputSpan_inside hcompact hspan
  next hroom =>
    rw [if_neg hroom]
    exact inputSpan_inside hsafe hspan

theorem writeInput_safe {data : List Byte} {p : Parser} (hsafe : p.Safe)
    (hroom : data.length ≤ p.bufferCapacity - p.bufferSize) : (p.writeInput data).Safe := by
  have hsize := hsafe.bufferSize
  have hlength := bytes_length hsafe.written
  refine ⟨⟨?_, ?_, hsafe.bufferCapacity, ?_, ?_, ?_, hsafe.headerCount, hsafe.contentLength,
    hsafe.chunkData⟩, ?_, hsafe.chunkedBodySize⟩
  · exact hsafe.parsePos.trans (Nat.le_add_right _ _)
  · show p.bufferSize + data.length ≤ p.bufferCapacity
    omega
  · exact hsafe.headerEndPos.trans (Nat.le_add_right _ _)
  · exact hsafe.validatedBytes.trans (Nat.le_add_right _ _)
  · exact hsafe.crlfScanPos.trans (Nat.le_add_right _ _)
  · simp only [writeInput, List.length_append, hlength]
    omega

theorem commitInput_safe {data : List Byte} {p : Parser} (hsafe : p.Safe) :
    (p.commitInput data).1.Safe := by
  unfold commitInput
  split
  · exact hsafe
  split
  · exact hsafe
  next hroom => exact parseAvailable_safe (writeInput_safe hsafe (by omega))

theorem parse_safe {data : List Byte} {p : Parser} (hsafe : p.Safe) :
    (p.parse data).1.Safe := by
  have hspan := writableInputSpan_safe data.length hsafe
  unfold parse
  split
  · exact parseAvailable_safe hsafe
  split
  next q e heq => rwa [heq] at hspan
  next q _ heq =>
    rw [heq] at hspan
    exact commitInput_safe hspan

theorem resetMessageState_safe {p : Parser} (hsize : p.bufferSize ≤ p.bufferCapacity)
    (hcapacity : p.bufferCapacity ≤ MAX_BUFFER_SIZE)
    (hwritten : p.bufferSize ≤ p.buffer.length) : p.resetMessageState.Safe :=
  ⟨⟨Nat.zero_le _, hsize, hcapacity, Nat.zero_le _, Nat.zero_le _, Nat.zero_le _,
    Nat.zero_le _, nofun, nofun⟩, hwritten, Nat.zero_le _⟩

theorem reset_safe {p : Parser} (hsafe : p.Safe) : p.reset.Safe := by
  -- the old cursors may point behind the emptied buffer until they are reset
  obtain ⟨hsize, hcapacity⟩ :=
    maybeShrinkBuffer_bounds (p := { p with bufferSize := 0 }) hsafe.bufferCapacity
  refine resetMessageState_safe ?_ hcapacity ?_
  · rw [hsize]
    exact Nat.zero_le _
  · rw [hsize]
    exact Nat.zero_le _

theorem prepareForNextRequest_safe {p : Parser} (hsafe : p.Safe) :
    p.prepareForNextRequest.Safe := by
  have hsize := hsafe.bufferSize
  have hwritten := hsafe.written
  unfold prepareForNextRequest bufferedBytes
  dsimp only
  apply resetMessageState_safe
  all_goals
    split
    · first
      | exact Nat.zero_le _
      | exact hsafe.bufferCapacity
    split
  · dsimp only
    omega
  · exact hsize
  · exact hsafe.bufferCapacity
  · exact hsafe.bufferCapacity
  · simp only [List.length_append, List.length_take, List.length_drop]
    omega
  · exact hwritten

/-- The calls a user of the parser can make.  `commitInput` carries the bytes
that were put into the span. -/
inductive Call where
  | parse (data : List Byte)
  | writableInputSpan (desiredSize : ℕ)
  | commitInput (data : List Byte)
  | parseAvailable
  | prepareForNextRequest
  | reset

/-- The parser a call leaves behind, whatever the call returned. -/
def call (p : Parser) : Call → Parser
  | .parse data => (p.parse data).1
  | .writableInputSpan desiredSize => (p.writableInputSpan desiredSize).1
  | .commitInput data => (p.commitInput data).1
  | .parseAvailable => p.parseAvailable.1
  | .prepareForNextRequest => p.prepareForNextRequest
  | .reset => p.reset

theorem call_safe {p : Parser} (hsafe : p.Safe) (c : Call) : (p.call c).Safe := by
  cases c with
  | parse data => exact parse_safe hsafe
  | writableInputSpan desiredSize => exact writableInputSpan_safe _ hsafe
  | commitInput data => exact commitInput_safe hsafe
  | parseAvailable => exact parseAvailable_safe hsafe
  | prepareForNextRequest => exact prepareForNextRequest_safe hsafe
  | reset => exact reset_safe hsafe

theorem calls_safe (calls : List Call) {p : Parser} (hsafe : p.Safe) :
    (calls.foldl call p).Safe := by
  induction calls generalizing p with
  | nil => exact hsafe
  | cons c calls ih => exact ih (call_safe hsafe c)

/-- After any calls on a fresh parser the cursors are safe and a span that is
returned lies inside the buffer.  The cursors are also safe in the middle of the
loop that runs when `data` is committed next, where a chunk is copied inside its
block. -/
theorem calls_cursorSafe (calls : List Call) :
    (calls.foldl call {}).CursorSafe ∧
      (∀ desiredSize span,
        ((calls.foldl call {}).writableInputSpan desiredSize).2 = .ok span →
          span.offset + span.length ≤
            ((calls.foldl call {}).writableInputSpan desiredSize).1.bufferCapacity) ∧
      ∀ data p,
        data.length ≤
          (calls.foldl call {}).bufferCapacity - (calls.foldl call {}).bufferSize →
        Passes parsePass ((calls.foldl call {}).writeInput data).checkInput.1 p →
          p.CursorSafe ∧
            (p.state = .chunkData → p.nextState.1.chunkedBodySize ≤ MAX_BODY_SIZE) := by
  have hsafe := calls_safe calls safe_initial
  refine ⟨hsafe.toCursorSafe, ?_, ?_⟩
  · intro desiredSize span hspan
    exact (writableInputSpan_inside hsafe hspan).2.2
  · intro data p hroom hpasses
    have hp := passes_safe (checkInput_safe (writeInput_safe hsafe hroom)) hpasses
    refine ⟨hp.toCursorSafe, fun _ => ?_⟩
    have hnext := (nextState_safe hp).chunkedBodySize
    generalize p.nextState = r at hnext
    obtain ⟨q, e | s⟩ := r
    · exact hnext
    · exact hnext

end Parser

end Http
end Katana
