import Katana.Http.Parser

/-!
# What one parser step can do

Each parser function moves `parse_pos_` forward inside the buffer and leaves the
buffer and the cursors of the header scan alone; only the interface functions
write to the buffer.  The lemmas below say this once for every function, so that
the invariants of the parser do not unfold it again.
-/

namespace Katana
namespace Http

open Library

namespace Parser

/-- Two parsers with the same buffer, the same scan cursors and the same state. -/
structure SameInput (p q : Parser) : Prop where
  state : q.state = p.state
  buffer : q.buffer = p.buffer
  bufferSize : q.bufferSize = p.bufferSize
  bufferCapacity : q.bufferCapacity = p.bufferCapacity
  validatedBytes : q.validatedBytes = p.validatedBytes
  headerEndPos : q.headerEndPos = p.headerEndPos
  crlfScanPos : q.crlfScanPos = p.crlfScanPos

theorem SameInput.refl (p : Parser) : p.SameInput p :=
  ⟨rfl, rfl, rfl, rfl, rfl, rfl, rfl⟩

theorem SameInput.withPos (p : Parser) (pos : ℕ) : p.SameInput { p with parsePos := pos } :=
  ⟨rfl, rfl, rfl, rfl, rfl, rfl, rfl⟩

theorem SameInput.trans {p q r : Parser} (hpq : p.SameInput q) (hqr : q.SameInput r) :
    p.SameInput r :=
  ⟨hqr.state.trans hpq.state, hqr.buffer.trans hpq.buffer,
    hqr.bufferSize.trans hpq.bufferSize, hqr.bufferCapacity.trans hpq.bufferCapacity,
    hqr.validatedBytes.trans hpq.validatedBytes,
    hqr.headerEndPos.trans hpq.headerEndPos, hqr.crlfScanPos.trans hpq.crlfScanPos⟩

theorem SameInput.bytes {p q : Parser} (h : p.SameInput q) : q.bytes = p.bytes := by
  rw [Parser.bytes, Parser.bytes, h.buffer, h.bufferSize]

theorem bytes_length {p : Parser} (hsize : p.bufferSize ≤ p.buffer.length) :
    p.bytes.length = p.bufferSize := by
  rw [bytes, List.length_take]
  omega

theorem unparsed_length_le (p : Parser) : p.unparsed.length ≤ p.bufferSize - p.parsePos := by
  rw [unparsed, bytes, List.length_drop, List.length_take]
  omega

theorem crlf_length : CRLF.length = 2 := rfl

theorem findCrlf_bound {bytes : List Byte} {i : ℕ} (h : findCrlf bytes = some i) :
    i + 2 ≤ bytes.length :=
  firstIndex_bound h

/-! ## Lines -/

/-- What working on one line leaves alone. -/
structure LineFrame (p q : Parser) : Prop extends SameInput p q where
  parsePos : q.parsePos = p.parsePos
  chunkedBody : q.chunkedBody = p.chunkedBody
  chunkedBodySize : q.chunkedBodySize = p.chunkedBodySize

theorem LineFrame.refl (p : Parser) : p.LineFrame p :=
  ⟨.refl p, rfl, rfl, rfl⟩

theorem processRequestLine_frame (start : ℕ) (line : List Byte) (p : Parser) :
    p.LineFrame (p.processRequestLine start line).1 ∧
      (p.processRequestLine start line).1.headerCount = p.headerCount := by
  unfold processRequestLine
  split
  · exact ⟨.refl p, rfl⟩
  split
  · exact ⟨.refl p, rfl⟩
  dsimp only
  split
  · exact ⟨⟨⟨rfl, rfl, rfl, rfl, rfl, rfl, rfl⟩, rfl, rfl, rfl⟩, rfl⟩
  split
  · exact ⟨⟨⟨rfl, rfl, rfl, rfl, rfl, rfl, rfl⟩, rfl, rfl, rfl⟩, rfl⟩
  split
  · exact ⟨⟨⟨rfl, rfl, rfl, rfl, rfl, rfl, rfl⟩, rfl, rfl, rfl⟩, rfl⟩
  split
  · exact ⟨⟨⟨rfl, rfl, rfl, rfl, rfl, rfl, rfl⟩, rfl, rfl, rfl⟩, rfl⟩
  split
  · exact ⟨⟨⟨rfl, rfl, rfl, rfl, rfl, rfl, rfl⟩, rfl, rfl, rfl⟩, rfl⟩
  · exact ⟨⟨⟨rfl, rfl, rfl, rfl, rfl, rfl, rfl⟩, rfl, rfl, rfl⟩, rfl⟩

theorem noteContentLength_eq (value : List Byte) (p : Parser) :
    ∃ length, p.noteContentLength value = { p with contentLength := length } := by
  unfold noteContentLength
  split
  · exact ⟨_, rfl⟩
  · exact ⟨p.contentLength, rfl⟩

theorem processHeaderLine_frame (start : ℕ) (line : List Byte) (p : Parser) :
    p.LineFrame (p.processHeaderLine start line).1 ∧
      (p.headerCount ≤ MAX_HEADER_COUNT →
        (p.processHeaderLine start line).1.headerCount ≤ MAX_HEADER_COUNT) := by
  unfold processHeaderLine
  split
  · exact ⟨.refl p, id⟩
  next hcount =>
  have hnext : p.headerCount + 1 ≤ MAX_HEADER_COUNT := by omega
  split
  · exact ⟨.refl p, id⟩
  dsimp only
  split
  · exact ⟨.refl p, id⟩
  split
  · exact ⟨.refl p, id⟩
  split
  · exact ⟨.refl p, id⟩
  split
  · exact ⟨⟨⟨rfl, rfl, rfl, rfl, rfl, rfl, rfl⟩, rfl, rfl, rfl⟩, fun _ => hnext⟩
  split
  · obtain ⟨length, hlength⟩ := noteContentLength_eq
      (trimOws (line.drop (_ + 1)))
      (({ p with lastHeaderField := .unknown, lastHeaderName := .null } : Parser).storeKnown
        .contentLength _)
    rw [hlength]
    exact ⟨⟨⟨rfl, rfl, rfl, rfl, rfl, rfl, rfl⟩, rfl, rfl, rfl⟩, fun _ => hnext⟩
  split
  · exact ⟨⟨⟨rfl, rfl, rfl, rfl, rfl, rfl, rfl⟩, rfl, rfl, rfl⟩, fun _ => hnext⟩
  · exact ⟨⟨⟨rfl, rfl, rfl, rfl, rfl, rfl, rfl⟩, rfl, rfl, rfl⟩, fun _ => hnext⟩

/-- What a state function does with a complete line. -/
structure LineUse (p : Parser) (r : Parsed ParserState) : Prop where
  frame : p.LineFrame r.1
  headerCount : p.headerCount ≤ MAX_HEADER_COUNT → r.1.headerCount ≤ MAX_HEADER_COUNT
  body : r.2 = .ok .body → r.1.contentLength ≤ MAX_BODY_SIZE
  chunkData : r.2 = .ok .chunkData →
    r.1.chunkedBodySize + r.1.currentChunkSize ≤ MAX_BODY_SIZE

theorem LineUse.fail (p : Parser) : p.LineUse p.fail :=
  ⟨.refl p, id, nofun, nofun⟩

theorem useRequestLine_use (start : ℕ) (line : List Byte) (p : Parser) :
    p.LineUse (p.useRequestLine start line) := by
  obtain ⟨hframe, hcount⟩ := processRequestLine_frame start line p
  unfold useRequestLine
  split
  next q e heq =>
    rw [heq] at hframe hcount
    exact ⟨hframe, fun h => hcount.trans_le h, nofun, nofun⟩
  next q _ heq =>
    rw [heq] at hframe hcount
    exact ⟨hframe, fun h => hcount.trans_le h, nofun, nofun⟩

theorem endHeaders_use (p : Parser) : p.LineUse p.endHeaders := by
  unfold endHeaders
  dsimp only
  split
  · exact ⟨⟨⟨rfl, rfl, rfl, rfl, rfl, rfl, rfl⟩, rfl, rfl, rfl⟩, id, nofun, nofun⟩
  split
  · exact ⟨.refl p, id, nofun, nofun⟩
  split
  · split
    · exact .fail p
    next val _ hval =>
      exact ⟨⟨⟨rfl, rfl, rfl, rfl, rfl, rfl, rfl⟩, rfl, rfl, rfl⟩, id,
        fun _ => Nat.le_of_not_lt hval, nofun⟩
  · exact .fail p

theorem foldHeader_use (line : List Byte) (p : Parser) : p.LineUse (p.foldHeader line) := by
  unfold foldHeader
  split
  · exact .fail p
  dsimp only
  split
  · exact .fail p
  split
  · exact .fail p
  · exact ⟨⟨⟨rfl, rfl, rfl, rfl, rfl, rfl, rfl⟩, rfl, rfl, rfl⟩, id, nofun, nofun⟩

theorem useHeaderLine_use (start : ℕ) (line : List Byte) (p : Parser) :
    p.LineUse (p.useHeaderLine start line) := by
  unfold useHeaderLine
  split
  · exact endHeaders_use p
  split
  · exact foldHeader_use line p
  obtain ⟨hframe, hcount⟩ := processHeaderLine_frame start line p
  split
  next q e heq =>
    rw [heq] at hframe hcount
    exact ⟨hframe, hcount, nofun, nofun⟩
  next q _ heq =>
    rw [heq] at hframe hcount
    exact ⟨hframe, hcount, nofun, nofun⟩

theorem useChunkSizeLine_use (start : ℕ) (line : List Byte) (p : Parser) :
    p.LineUse (p.useChunkSizeLine start line) := by
  unfold useChunkSizeLine
  split
  · split
    · exact .fail p
    next val _ hval =>
    dsimp only
    split
    · exact ⟨⟨⟨rfl, rfl, rfl, rfl, rfl, rfl, rfl⟩, rfl, rfl, rfl⟩, id, nofun, nofun⟩
    split
    · exact ⟨⟨⟨rfl, rfl, rfl, rfl, rfl, rfl, rfl⟩, rfl, rfl, rfl⟩, id, nofun, nofun⟩
    next hfits =>
      refine ⟨⟨⟨rfl, rfl, rfl, rfl, rfl, rfl, rfl⟩, rfl, rfl, rfl⟩, id, nofun, fun _ => ?_⟩
      simp only [Bool.or_eq_true, decide_eq_true_eq, not_or, not_lt] at hfits
      show p.chunkedBodySize + val ≤ MAX_BODY_SIZE
      omega
  · exact .fail p

theorem useTrailerLine_use (start : ℕ) (line : List Byte) (p : Parser) :
    p.LineUse (p.useTrailerLine start line) :=
  ⟨⟨⟨rfl, rfl, rfl, rfl, rfl, rfl, rfl⟩, rfl, rfl, rfl⟩, id, nofun, nofun⟩

/-- A state function that works on lines waits, fails on the bytes of the line,
or uses the line with `parse_pos_` behind it. -/
theorem withLine_cases (checked : Bool) (stay : ParserState)
    (use : ℕ → List Byte → Parser → Parsed ParserState) (p : Parser) :
    (findCrlf p.unparsed = none ∧ p.withLine checked stay use = (p, .ok stay)) ∨
      ∃ length, findCrlf p.unparsed = some length ∧
        ((checked = true ∧
            hasInvalidByte (p.byteBefore p.parsePos) (p.unparsed.take (length + 1)) = true ∧
            p.withLine checked stay use = p.fail) ∨
          ((checked = true →
            hasInvalidByte (p.byteBefore p.parsePos)
              (p.unparsed.take (length + 1)) = false) ∧
            p.withLine checked stay use =
              use p.parsePos (p.unparsed.take length)
                { p with parsePos := p.parsePos + length + 2 })) := by
  unfold withLine
  cases hfind : findCrlf p.unparsed with
  | none => exact .inl ⟨rfl, rfl⟩
  | some length =>
      refine .inr ⟨length, rfl, ?_⟩
      dsimp only
      split
      next hbad =>
        rw [Bool.and_eq_true] at hbad
        exact .inl ⟨hbad.1, hbad.2, rfl⟩
      next hgood =>
        refine .inr ⟨fun hchecked => ?_, rfl⟩
        simpa [hchecked] using hgood

/-! ## Steps -/

/-- What one call of a state function does to the cursors. -/
structure Advances (p : Parser) (r : Parsed ParserState) : Prop where
  input : p.SameInput r.1
  forward : p.parsePos ≤ r.1.parsePos
  inside : p.parsePos ≤ p.bufferSize → r.1.parsePos ≤ p.bufferSize
  moved : r.1.parsePos ≠ p.parsePos → r.1.parsePos ≤ p.bufferSize
  headerCount : p.headerCount ≤ MAX_HEADER_COUNT → r.1.headerCount ≤ MAX_HEADER_COUNT

theorem withLine_advances {checked : Bool} {stay : ParserState}
    {use : ℕ → List Byte → Parser → Parsed ParserState}
    (huse : ∀ start line (q : Parser), q.LineUse (use start line q)) (p : Parser) :
    p.Advances (p.withLine checked stay use) := by
  rcases withLine_cases checked stay use p with
    ⟨-, heq⟩ | ⟨length, hfind, ⟨-, -, heq⟩ | ⟨-, heq⟩⟩
  · rw [heq]
    exact ⟨.refl p, le_rfl, id, fun h => absurd rfl h, id⟩
  · rw [heq]
    exact ⟨.refl p, le_rfl, id, fun h => absurd rfl h, id⟩
  · rw [heq]
    have hline := huse p.parsePos (p.unparsed.take length)
      { p with parsePos := p.parsePos + length + 2 }
    have hbound := findCrlf_bound hfind
    have hlength := p.unparsed_length_le
    have hpos := hline.frame.parsePos
    dsimp only at hpos
    refine ⟨(SameInput.withPos p _).trans hline.frame.toSameInput, ?_, ?_, ?_,
      hline.headerCount⟩
    all_goals
      rw [hpos]
      omega

theorem parseBodyState_advances (p : Parser) : p.Advances p.parseBodyState := by
  unfold parseBodyState
  split
  next hfits =>
    refine ⟨⟨rfl, rfl, rfl, rfl, rfl, rfl, rfl⟩, Nat.le_add_right _ _, ?_, ?_, id⟩
    all_goals
      dsimp only
      omega
  · exact ⟨.refl p, le_rfl, id, fun h => absurd rfl h, id⟩

theorem parseChunkDataState_advances (p : Parser) : p.Advances p.parseChunkDataState := by
  unfold parseChunkDataState
  split
  next hfits =>
    split
    · exact ⟨.refl p, le_rfl, id, fun h => absurd rfl h, id⟩
    refine ⟨⟨rfl, rfl, rfl, rfl, rfl, rfl, rfl⟩, ?_, ?_, ?_, id⟩
    all_goals
      dsimp only
      omega
  · exact ⟨.refl p, le_rfl, id, fun h => absurd rfl h, id⟩

theorem nextState_advances (p : Parser) : p.Advances p.nextState := by
  unfold nextState
  cases p.state with
  | requestLine => exact withLine_advances useRequestLine_use p
  | headers => exact withLine_advances useHeaderLine_use p
  | body => exact parseBodyState_advances p
  | chunkSize => exact withLine_advances useChunkSizeLine_use p
  | chunkData => exact parseChunkDataState_advances p
  | chunkTrailer => exact withLine_advances useTrailerLine_use p
  | complete => exact ⟨.refl p, le_rfl, id, fun h => absurd rfl h, id⟩

/-! ## The checks in front of the loop -/

def headerInvalid (p : Parser) : Bool :=
  hasInvalidByte (p.byteBefore (p.validatedBytes - 1))
    ((p.buffer.take p.validationLimit).drop (p.validatedBytes - 1))

def markValidated (p : Parser) : Parser :=
  { p with validatedBytes := p.validationLimit }

theorem scanHeaderEnd_state (p : Parser) : p.scanHeaderEnd.state = p.state := by
  unfold scanHeaderEnd
  split <;> rfl

theorem checkInput_outside {p : Parser} (hsection : p.inHeaderSection = false) :
    p.checkInput = if p.exceedsSizeLimit then p.fail else (p, .ok ()) := by
  unfold checkInput
  rw [hsection, if_neg Bool.false_ne_true]

theorem checkInput_header {p : Parser} (hsection : p.inHeaderSection = true) :
    p.checkInput =
      if p.scanHeaderEnd.headerInvalid then p.scanHeaderEnd.fail
      else if p.scanHeaderEnd.exceedsSizeLimit then p.scanHeaderEnd.markValidated.fail
      else (p.scanHeaderEnd.markValidated, .ok ()) := by
  have hvalidate : p.scanHeaderEnd.validateHeaderSection =
      if p.scanHeaderEnd.headerInvalid then p.scanHeaderEnd.fail
      else (p.scanHeaderEnd.markValidated, .ok ()) := rfl
  unfold checkInput
  rw [hsection, if_pos rfl, hvalidate]
  cases p.scanHeaderEnd.headerInvalid with
  | true => rfl
  | false => rfl

/-! ## Passes of the loop -/

/-- A pass goes round again exactly when its step moved or completed. -/
theorem parsePass_again_iff {p next : Parser} :
    p.parsePass = .again next ↔
      p.state ≠ .complete ∧ ∃ q state, p.nextState = (q, .ok state) ∧
        next = { q with state } ∧ (q.parsePos ≠ p.parsePos ∨ state = .complete) := by
  unfold parsePass
  split
  next hcomplete => simp [hcomplete]
  next hcomplete =>
    split
    next q e heq => simp [heq]
    next q state heq =>
      simp only [ne_eq, hcomplete, not_false_eq_true, true_and]
      split
      next hstall =>
        simp only [decide_not, Bool.and_eq_true, decide_eq_true_eq, Bool.not_eq_eq_eq_not,
          Bool.not_true, decide_eq_false_iff_not] at hstall
        constructor
        · nofun
        · rintro ⟨q', state', heq', -, hmoved⟩
          rw [heq] at heq'
          cases heq'
          exact absurd hmoved (by simp [hstall])
      next hmove =>
        simp only [decide_not, Bool.and_eq_true, decide_eq_true_eq, Bool.not_eq_eq_eq_not,
          Bool.not_true, decide_eq_false_iff_not, not_and, not_not] at hmove
        constructor
        · intro h
          cases h
          exact ⟨q, state, heq, rfl, or_iff_not_imp_left.mpr fun h => hmove (not_not.mp h)⟩
        · rintro ⟨q', state', heq', rfl, -⟩
          rw [heq] at heq'
          cases heq'
          rfl

theorem parsePass_of_ok {p q : Parser} {state : ParserState} (hstate : p.state ≠ .complete)
    (hnext : p.nextState = (q, .ok state))
    (hmoved : q.parsePos ≠ p.parsePos ∨ state = .complete) :
    p.parsePass = .again { q with state } :=
  (parsePass_again_iff).mpr ⟨hstate, q, state, hnext, rfl, hmoved⟩

theorem parsePass_of_error {p q : Parser} {e : ErrorCode} (hstate : p.state ≠ .complete)
    (hnext : p.nextState = (q, .error e)) : p.parsePass = .done (q, .error e) := by
  unfold parsePass
  rw [if_neg hstate, hnext]

/-- How the loop ends: complete, failed, or waiting for input. -/
theorem parsePass_done_cases {p : Parser} {r : Parsed ParserState}
    (h : p.parsePass = .done r) :
    (p.state = .complete ∧ r = (p, .ok .complete)) ∨
      (p.state ≠ .complete ∧ ∃ q e, p.nextState = (q, .error e) ∧ r = (q, .error e)) ∨
      (p.state ≠ .complete ∧ ∃ q state, p.nextState = (q, .ok state) ∧
        q.parsePos = p.parsePos ∧ state ≠ .complete ∧
        r = (stall { q with state }, .ok state)) := by
  unfold parsePass at h
  split at h
  next hcomplete =>
    cases h
    exact .inl ⟨hcomplete, rfl⟩
  next hcomplete =>
    split at h
    next q e heq =>
      cases h
      exact .inr (.inl ⟨hcomplete, q, e, heq, rfl⟩)
    next q state heq =>
      dsimp only at h
      split at h
      next hstall =>
        cases h
        simp only [ne_eq, decide_not, Bool.and_eq_true, decide_eq_true_eq,
          Bool.not_eq_eq_eq_not, Bool.not_true, decide_eq_false_iff_not] at hstall
        exact .inr (.inr ⟨hcomplete, q, state, heq, hstall.1, hstall.2, rfl⟩)
      · cases h

theorem parsePass_decreases : Decreases parsePass workLeft := by
  intro p next hpass
  obtain ⟨hstate, q, state, hnext, rfl, hmoved⟩ := (parsePass_again_iff).mp hpass
  have hadv := nextState_advances p
  rw [hnext] at hadv
  have hforward := hadv.forward
  have hsize := hadv.input.bufferSize
  have hinside := hadv.moved
  dsimp only at hforward hsize hinside
  unfold workLeft
  simp only [hstate, if_false, hsize]
  by_cases heq : q.parsePos = p.parsePos
  · have hcomplete : state = .complete := by
      rcases hmoved with hne | hcomplete
      · exact absurd heq hne
      · exact hcomplete
    simp only [hcomplete, if_true]
    omega
  · have hle := hinside heq
    have hone : (if state = .complete then 0 else 1) ≤ 1 := by
      split <;> omega
    omega

/-- The loop as a chain of passes. -/
theorem parseLoop_eq {p : Parser} {r : Parsed ParserState} (hend : EndsWith parsePass p r) :
    p.parseLoop = r :=
  evalLoop_eq parsePass_decreases hend

theorem parseLoop_endsWith (p : Parser) : EndsWith parsePass p p.parseLoop :=
  evalLoop_endsWith parsePass_decreases _ p

end Parser

end Http
end Katana
