import Katana.Http.HeaderLimit
import Katana.Http.MoreInput

/-!
# Fragmentation

A byte string may reach the parser in any pieces.  As long as no bytes are
dropped, what the parser has done after some pieces is what it does on the whole
input before it runs out of those bytes: the checks in front of the loop reach
the same verdict in steps, and the passes of the loop are passes on the whole
input.  The outcome is then a function of the input alone.
-/

namespace Katana
namespace Http

open Library

/-- What a request says, read through its views. -/
structure Message where
  httpMethod : Method
  uri : List Byte
  headers : List (List Byte × List Byte)
  body : List Byte
  deriving DecidableEq

/-- What a user of the parser learns from a series of calls of `parse`. -/
inductive Outcome where
  | error
  | incomplete (state : ParserState)
  | complete (message : Message) (consumed : ℕ)
  deriving DecidableEq

namespace Parser

def message (p : Parser) : Message :=
  { httpMethod := p.request.httpMethod
    uri := p.request.uri.read p.buffer
    headers := p.request.headers.entries p.buffer
    body := p.request.body.read p.buffer }

/-- Feed the segments in order, up to the first error or the end of a message. -/
def feed (p : Parser) (fed : ℕ) : List (List Byte) → Outcome
  | [] => .incomplete p.state
  | segment :: rest =>
      match p.parse segment with
      | (_, .error _) => .error
      | (q, .ok state) =>
          if state = .complete then
            .complete q.message (fed + segment.length - q.bufferedBytes)
          else feed q (fed + segment.length) rest

/-- The outcome for a fresh parser. -/
def outcome (segments : List (List Byte)) : Outcome :=
  feed {} 0 segments

/-- The parser once a segment has been put into its buffer. -/
def received (segment : List Byte) (p : Parser) : Parser :=
  if segment = [] then p
  else (p.writableInputSpan segment.length).1.writeInput segment

/-- The loop stops here to wait for input. -/
def Waits (p : Parser) : Prop :=
  p.state ≠ .complete ∧ p.nextState = (p, .ok p.state)

/-- Neither of the two places that call `compact_buffer` drops bytes while the
segments are fed. -/
def KeepsBytes : Parser → List (List Byte) → Prop
  | _, [] => True
  | p, segment :: rest =>
      (segment ≠ [] → p.spanDrops segment.length = false) ∧
        (∀ q, Passes parsePass (p.received segment).checkInput.1 q → q.Waits →
          q.stallDrops = false) ∧
        ∀ q state, p.parse segment = (q, .ok state) → state ≠ .complete → KeepsBytes q rest

/-! ## The outcome for the whole input -/

/-- A parser that has all of the input and has looked at none of it. -/
def start (total : List Byte) : Parser :=
  { buffer := total, bufferSize := total.length }

/-- The checks in front of the loop, on the whole input. -/
def headChecked (input : List Byte) : Bool :=
  let headerEnd := findHeaderTerminator input 0
  let limit := if headerEnd ≠ 0 then headerEnd else input.length
  !hasInvalidByte none (input.take limit) && limit ≤ MAX_HEADER_SIZE

theorem headChecked_of_append {input more : List Byte}
    (h : headChecked (input ++ more) = true) : headChecked input = true := by
  unfold headChecked at h ⊢
  dsimp only at h ⊢
  simp only [Bool.and_eq_true, Bool.not_eq_true', decide_eq_true_eq] at h ⊢
  by_cases hend : findHeaderTerminator input 0 = 0
  · -- everything that has arrived lies in front of the end of the header section
    rw [if_neg (not_not.mpr hend)]
    have hle : input.length ≤ if findHeaderTerminator (input ++ more) 0 ≠ 0 then
        findHeaderTerminator (input ++ more) 0 else (input ++ more).length := by
      split
      next hnew => exact (lt_findHeaderTerminator_append hend hnew).le
      · simp
    generalize (if findHeaderTerminator (input ++ more) 0 ≠ 0 then
        findHeaderTerminator (input ++ more) 0 else (input ++ more).length) = limit at h hle
    refine ⟨?_, hle.trans h.2⟩
    rw [List.take_length]
    have hsplit : (input ++ more).take limit = input ++ more.take (limit - input.length) := by
      rw [List.take_append, List.take_of_length_le hle]
    rw [hsplit] at h
    exact hasInvalidByte_of_append h.1
  · have hsame := findHeaderTerminator_append hend more
    have hbound := (findHeaderTerminator_spec hend).2.1
    rw [hsame, if_pos hend, List.take_append_of_le_length hbound] at h
    rwa [if_pos hend]

theorem headChecked_append {input : List Byte} (h : headChecked input = true)
    (hend : findHeaderTerminator input 0 ≠ 0) (more : List Byte) :
    headChecked (input ++ more) = true := by
  have hsame := findHeaderTerminator_append hend more
  have hbound := (findHeaderTerminator_spec hend).2.1
  unfold headChecked at h ⊢
  dsimp only at h ⊢
  rw [if_pos hend] at h
  rwa [hsame, if_pos hend, List.take_append_of_le_length hbound]

/-! ## A parser that has been fed part of the input -/

/-- The parser holds `input`, a first part of `total`, and has done what a
parser holding `total` does first. -/
structure Fed (total input : List Byte) (p : Parser) : Prop where
  safe : p.Safe
  bytes : p.bytes = input
  views : p.Views p.parsePos
  passes : Passes parsePass (start total) (p.onInput (start total))
  checked : headChecked input = true
  headerEndPos : p.headerEndPos = findHeaderTerminator input 0
  scanned : p.headerEndPos = 0 → p.crlfScanPos = input.length
  validated : hasInvalidByte none (input.take p.validatedBytes) = false
  lineStart : p.state = .headers → CRLF <:+ p.bytes.take p.parsePos
  leftHead : p.inHeaderSection = false → findHeaderTerminator input 0 ≠ 0

theorem fed_initial (total : List Byte) : Fed total [] {} := by
  refine ⟨safe_initial, rfl, ⟨trivial, HeadersMap.within_initial _, trivial, trivial⟩,
    .refl _, ?_, ?_, fun _ => rfl, rfl, nofun, nofun⟩
  · decide
  · decide

theorem Fed.extends {total input : List Byte} {p : Parser} (h : Fed total input p)
    (hinput : input <+: total) : p.Extends (p.onInput (start total)) := by
  refine ⟨rfl, ?_, h.safe.written, h.safe.parsePos, h.views⟩
  rw [h.bytes]
  show input <+: total.take total.length
  rwa [List.take_length]

theorem nextState_still {p q : Parser} {state : ParserState}
    (hnext : p.nextState = (q, .ok state)) (hpos : q.parsePos = p.parsePos)
    (hstate : state ≠ .complete) : q = p ∧ state = p.state := by
  have hline : ∀ {checked : Bool} {use : ℕ → List Byte → Parser → Parsed ParserState},
      (∀ start line (s : Parser), s.LineUse (use start line s)) →
      p.withLine checked p.state use = (q, .ok state) → q = p ∧ state = p.state := by
    intro checked use huse heq
    rcases withLine_cases checked p.state use p with
      ⟨-, heq'⟩ | ⟨length, -, ⟨-, -, heq'⟩ | ⟨-, heq'⟩⟩
    · rw [heq] at heq'
      cases heq'
      exact ⟨rfl, rfl⟩
    · rw [heq] at heq'
      cases heq'
    · have hmoved := (huse p.parsePos (p.unparsed.take length)
        { p with parsePos := p.parsePos + length + 2 }).frame.parsePos
      rw [← heq', heq] at hmoved
      dsimp only at hmoved
      omega
  unfold nextState at hnext
  cases hs : p.state with
  | requestLine =>
      rw [hs] at hnext hline
      exact hline useRequestLine_use hnext
  | headers =>
      rw [hs] at hnext hline
      exact hline useHeaderLine_use hnext
  | body =>
      rw [hs] at hnext
      dsimp only [parseBodyState] at hnext
      split at hnext
      · cases hnext
        exact absurd rfl hstate
      · cases hnext
        exact ⟨rfl, rfl⟩
  | chunkSize =>
      rw [hs] at hnext hline
      exact hline useChunkSizeLine_use hnext
  | chunkData =>
      rw [hs] at hnext
      dsimp only [parseChunkDataState] at hnext
      split at hnext
      · split at hnext
        · cases hnext
        · cases hnext
          dsimp only at hpos
          omega
      · cases hnext
        exact ⟨rfl, rfl⟩
  | chunkTrailer =>
      rw [hs] at hnext hline
      exact hline useTrailerLine_use hnext
  | complete =>
      rw [hs] at hnext
      cases hnext
      exact absurd rfl hstate

theorem parsePass_of_waits {p : Parser} (h : p.Waits) :
    p.parsePass = .done (p.stall, .ok p.state) := by
  unfold parsePass
  rw [if_neg h.1, h.2]
  dsimp only
  rw [if_pos (by simp [h.1])]

/-- How the loop ends, seen from its last state. -/
theorem parsePass_done_iff {p : Parser} {r : Parsed ParserState} (h : p.parsePass = .done r) :
    (p.state = .complete ∧ r = (p, .ok .complete)) ∨ (∃ q e, r = (q, .error e)) ∨
      (p.Waits ∧ r = (p.stall, .ok p.state)) := by
  rcases parsePass_done_cases h with
    hcomplete | ⟨-, q, e, -, heq⟩ | ⟨hstate, q, state, hnext, hpos, hne, heq⟩
  · exact .inl hcomplete
  · exact .inr (.inl ⟨q, e, heq⟩)
  · obtain ⟨rfl, rfl⟩ := nextState_still hnext hpos hne
    exact .inr (.inr ⟨⟨hstate, hnext⟩, heq⟩)

/-! ## The loop -/

/-- The empty line behind a line ends the header section. -/
theorem findHeaderTerminator_of_empty {p : Parser} (hline : CRLF <:+ p.bytes.take p.parsePos)
    (hempty : findCrlf p.unparsed = some 0) : findHeaderTerminator p.bytes 0 ≠ 0 := by
  obtain ⟨front, hfront⟩ := hline
  obtain ⟨-, ⟨rest, hrest⟩, -⟩ := (firstIndex_eq_some_iff).mp hempty
  rw [List.drop_zero] at hrest
  have hbytes : p.bytes = front ++ (CRLF ++ CRLF ++ rest) := by
    rw [← List.take_append_drop p.parsePos p.bytes, ← hfront]
    show _ ++ p.unparsed = _
    rw [← hrest]
    simp only [List.append_assoc]
  rw [ne_eq, findHeaderTerminator_eq_zero, List.drop_zero,
    firstIndex_eq_none_iff (by simp [CRLF]), not_forall]
  refine ⟨front.length, ?_⟩
  rw [hbytes, List.drop_left, not_not]
  exact List.prefix_append _ _

theorem Fed.pass {total input : List Byte} {p next : Parser} (h : Fed total input p)
    (hinput : input <+: total) (hpass : p.parsePass = .again next) : Fed total input next := by
  have hsafe := parsePass_again_safe h.safe hpass
  obtain ⟨next', hpass', hext⟩ := (h.extends hinput).parsePass_again hpass
  obtain ⟨hstate, q, state, hnext, rfl, hmoved⟩ := (parsePass_again_iff).mp hpass
  have hadv := nextState_advances p
  rw [hnext] at hadv
  have hbytes : ({ q with state } : Parser).bytes = p.bytes := hadv.input.bytes
  have hnext' : next' = ({ q with state } : Parser).onInput (start total) := by
    obtain ⟨-, q', state', hnext', rfl, -⟩ := (parsePass_again_iff).mp hpass'
    have hadv' := nextState_advances (p.onInput (start total))
    rw [hnext'] at hadv'
    have hsame := hext.same
    have hi := hadv'.input
    rw [hsame]
    unfold onInput
    dsimp only
    rw [show q'.buffer = (start total).buffer from hi.buffer,
      show q'.bufferSize = (start total).bufferSize from hi.bufferSize,
      show q'.bufferCapacity = (start total).bufferCapacity from hi.bufferCapacity,
      show q'.validatedBytes = (start total).validatedBytes from hi.validatedBytes,
      show q'.headerEndPos = (start total).headerEndPos from hi.headerEndPos,
      show q'.crlfScanPos = (start total).crlfScanPos from hi.crlfScanPos]
  refine ⟨hsafe, hbytes.trans h.bytes, hext.views, ?_, h.checked,
    hadv.input.headerEndPos.trans h.headerEndPos, ?_, ?_, ?_, ?_⟩
  · rw [← hnext']
    exact h.passes.trans (.head hpass' (.refl _))
  · intro hzero
    exact hadv.input.crlfScanPos.trans
      (h.scanned (hadv.input.headerEndPos.symm.trans hzero))
  · rw [show ({ q with state } : Parser).validatedBytes = p.validatedBytes from
      hadv.input.validatedBytes]
    exact h.validated
  · intro hheaders
    cases hsection : p.inHeaderSection with
    | false =>
        have hout := nextState_outside hsection (congrArg Prod.snd hnext)
        exact absurd hheaders hout.2
    | true =>
        rcases nextState_line hsection with
          ⟨-, heq⟩ | heq | ⟨length, hfind, hpos, -⟩
        · rw [hnext] at heq
          cases heq
          rcases hmoved with hne | hcomplete
          · exact absurd rfl hne
          · exact absurd hcomplete hstate
        · rw [hnext] at heq
          cases heq
        · rw [hnext] at hpos
          exact suffix_of_line hfind hbytes hpos
  · intro houtside
    cases hsection : p.inHeaderSection with
    | false => exact h.leftHead hsection
    | true =>
        rcases nextState_line hsection with
          ⟨-, heq⟩ | heq | ⟨length, hfind, -, hresult⟩
        · rw [hnext] at heq
          cases heq
          rcases hmoved with hne | hcomplete
          · exact absurd rfl hne
          · exact absurd hcomplete hstate
        · rw [hnext] at heq
          cases heq
        · obtain ⟨hrequest, hcases⟩ := hresult state (by rw [hnext])
          rcases hcases with ⟨hheaders, -⟩ | ⟨hzero, -, hleft⟩
          · simp [inHeaderSection, hheaders] at houtside
          · have hheaders : p.state = .headers := by
              simp only [inHeaderSection, Bool.or_eq_true, decide_eq_true_eq] at hsection
              rcases hsection with hline | hheaders
              · exact absurd (hrequest hline) hleft
              · exact hheaders
            rw [← h.bytes]
            subst hzero
            exact findHeaderTerminator_of_empty (h.lineStart hheaders) hfind

theorem Fed.loop {total input : List Byte} {p last : Parser} (h : Fed total input p)
    (hinput : input <+: total) (hpasses : Passes parsePass p last) : Fed total input last :=
  hpasses.invariant (fun _ _ hfed hpass => hfed.pass hinput hpass) h

/-! ## The next segment -/

/-- Without compaction a span within `MAX_BUFFER_SIZE` is granted. -/
theorem writableInputSpan_ok {p : Parser} (hsafe : p.Safe) {desiredSize : ℕ}
    (hkeep : p.spanDrops desiredSize = false)
    (hroom : p.bufferSize + desiredSize ≤ MAX_BUFFER_SIZE) :
    ∃ q span, p.writableInputSpan desiredSize = (q, .ok span) ∧
      desiredSize ≤ q.bufferCapacity - q.bufferSize ∧ q.bufferSize = p.bufferSize := by
  have hsize := hsafe.bufferSize
  unfold writableInputSpan
  rw [if_neg (by omega), if_neg (by omega)]
  split
  next hfull =>
    have hsame : (if 0 < p.parsePos && p.state ≠ .complete then p.compactBuffer else p) = p := by
      split
      next hcond =>
        simp only [Bool.and_eq_true, decide_eq_true_eq] at hcond
        refine compactBuffer_eq hcond.1 ?_
        have hlt : p.bufferCapacity - p.bufferSize < desiredSize := hfull
        simpa [spanDrops, hlt, hcond.2] using hkeep
      · rfl
    dsimp only
    rw [hsame, if_neg (by omega), if_pos hfull, if_neg (by omega)]
    obtain ⟨htrue, hgrown, hplace⟩ := ensureBufferCapacity_grows hroom hsafe.bufferCapacity
    rcases hensure : p.ensureBufferCapacity (p.bufferSize + desiredSize) with ⟨q, found⟩
    rw [hensure] at htrue hgrown hplace
    obtain rfl : found = true := htrue
    have hq : q.bufferSize = p.bufferSize := by
      rcases hplace with heq | ⟨capacity, heq⟩
      · rw [show q = p from heq]
      · rw [show q = _ from heq]
    dsimp only at hgrown ⊢
    have hfits : ¬ desiredSize > q.bufferCapacity - q.bufferSize := by omega
    refine ⟨q, ⟨q.bufferSize, desiredSize⟩, ?_, by omega, hq⟩
    unfold inputSpan
    rw [if_neg hfits]
  next hfits =>
    refine ⟨p, ⟨p.bufferSize, desiredSize⟩, ?_, by omega, rfl⟩
    unfold inputSpan
    rw [if_neg hfits]

/-- A segment that arrives without compaction is appended to the bytes, and
`parse` goes on from there. -/
theorem received_spec {p : Parser} (hsafe : p.Safe) {segment : List Byte}
    (hkeep : segment ≠ [] → p.spanDrops segment.length = false)
    (hroom : p.bufferSize + segment.length ≤ MAX_BUFFER_SIZE) :
    p.parse segment = (p.received segment).parseAvailable ∧ (p.received segment).Safe ∧
      (p.received segment).bytes = p.bytes ++ segment ∧
      p.received segment =
        { p with
          buffer := (p.received segment).buffer
          bufferSize := (p.received segment).bufferSize
          bufferCapacity := (p.received segment).bufferCapacity } := by
  by_cases hempty : segment = []
  · subst hempty
    refine ⟨rfl, hsafe, ?_, rfl⟩
    rw [List.append_nil]
    rfl
  · obtain ⟨q, span, hspan, hfits, hsize⟩ := writableInputSpan_ok hsafe (hkeep hempty) hroom
    have hq := writableInputSpan_safe segment.length hsafe
    have hplace := writableInputSpan_cases segment.length p
    rw [hspan] at hq hplace
    have hmoved : p.Relocated q := by
      rcases hplace with hmoved | ⟨hdrops, -⟩
      · exact hmoved
      · rw [hkeep hempty] at hdrops
        cases hdrops
    have hreceived : p.received segment = q.writeInput segment := by
      unfold received
      rw [if_neg hempty, hspan]
    have hbound := hq.bufferSize
    dsimp only at hbound
    rw [hreceived]
    refine ⟨?_, writeInput_safe hq hfits, ?_, ?_⟩
    · unfold parse commitInput
      rw [if_neg hempty, hspan]
      dsimp only
      rw [if_neg (by omega), if_neg (by omega)]
    · rw [writeInput_bytes _ hq.written, hmoved.bytes]
    · obtain ⟨buffer, capacity, rfl⟩ : ∃ buffer capacity,
          q = { p with buffer := buffer, bufferCapacity := capacity } := ⟨_, _, hmoved.same⟩
      rfl

/-! ## The checks in front of the loop -/

/-- The resumed byte check decides the check of the whole header section. -/
theorem headerInvalid_eq {p : Parser} {input : List Byte} (hsafe : p.Safe)
    (hlimit : p.validationLimit ≤ p.bufferSize)
    (hvalid : hasInvalidByte none (input.take p.validatedBytes) = false)
    (hinput : input <+: p.bytes) (hbound : p.validatedBytes ≤ input.length) :
    p.headerInvalid = hasInvalidByte none (p.bytes.take p.validationLimit) := by
  obtain ⟨more, hmore⟩ := hinput
  have hlength := bytes_length hsafe.written
  have hcut : p.buffer.take p.validationLimit = p.bytes.take p.validationLimit := by
    rw [bytes, List.take_take, Nat.min_eq_left hlimit]
  have hold : hasInvalidByte none (p.bytes.take (p.validatedBytes - 1)) = false := by
    have hsplit : input.take p.validatedBytes =
        p.bytes.take (p.validatedBytes - 1) ++
          (input.take p.validatedBytes).drop (p.validatedBytes - 1) := by
      rw [← hmore, List.take_append_of_le_length (by omega)]
      conv_lhs => rw [← List.take_append_drop (p.validatedBytes - 1) (input.take p.validatedBytes)]
      rw [List.take_take, Nat.min_eq_left (Nat.sub_le _ _)]
    rw [hsplit] at hvalid
    exact hasInvalidByte_of_append hvalid
  unfold headerInvalid
  rw [hcut]
  generalize p.validatedBytes - 1 = from' at hold
  by_cases hle : from' ≤ p.validationLimit
  · have hsplit : p.bytes.take p.validationLimit =
        p.bytes.take from' ++ (p.bytes.take p.validationLimit).drop from' := by
      conv_lhs => rw [← List.take_append_drop from' (p.bytes.take p.validationLimit)]
      rw [List.take_take, Nat.min_eq_left hle]
    have hprevious : (p.bytes.take from').getLast?.or none = p.byteBefore from' := by
      rw [Option.or_none]
      unfold byteBefore
      split
      next hzero => rw [hzero, List.take_zero, List.getLast?_nil]
      next hpos =>
        rw [List.getLast?_eq_getElem?, List.length_take, hlength, bytes,
          List.take_take, Nat.min_eq_left (hle.trans hlimit), List.getElem?_take,
          if_pos (by omega)]
    conv_rhs => rw [hsplit, hasInvalidByte_append, hold, Bool.false_or, hprevious]
  · rw [List.drop_of_length_le (by
      rw [List.length_take]
      omega)]
    have hsplit : p.bytes.take from' = p.bytes.take p.validationLimit ++
        (p.bytes.take from').drop p.validationLimit := by
      conv_lhs => rw [← List.take_append_drop p.validationLimit (p.bytes.take from')]
      rw [List.take_take, Nat.min_eq_left (by omega)]
    rw [hsplit] at hold
    rw [hasInvalidByte_of_append hold]
    rfl

/-- The checks pass exactly when they pass on all the input so far. -/
theorem Fed.check {total input segment : List Byte} {p q : Parser} (h : Fed total input p)
    (hsafe : q.Safe) (hbytes : q.bytes = input ++ segment)
    (hsame : q = { p with
      buffer := q.buffer, bufferSize := q.bufferSize, bufferCapacity := q.bufferCapacity }) :
    (headChecked (input ++ segment) = false ∧ ∃ r e, q.checkInput = (r, .error e)) ∨
      ∃ r, q.checkInput = (r, .ok ()) ∧ Fed total (input ++ segment) r := by
  have hlength : q.bufferSize = (input ++ segment).length := by
    rw [← hbytes, bytes_length hsafe.written]
  have hfields : q.state = p.state ∧ q.parsePos = p.parsePos ∧
      q.headerEndPos = p.headerEndPos ∧ q.crlfScanPos = p.crlfScanPos ∧
      q.validatedBytes = p.validatedBytes := by
    rw [hsame]
    exact ⟨rfl, rfl, rfl, rfl, rfl⟩
  obtain ⟨hstate, hpos, hend, hscan, hvalidated⟩ := hfields
  have hinput : p.bufferSize = input.length := by
    rw [← h.bytes, bytes_length h.safe.written]
  have hpath : p.onInput (start total) = q.onInput (start total) := by
    conv_rhs => rw [hsame]
    rfl
  have hviews : q.Views q.parsePos := by
    have hp := h.views
    rw [hpos, hsame]
    exact ⟨hp.uri, hp.headers, hp.body, hp.lastHeaderName⟩
  have hline : q.state = .headers → CRLF <:+ q.bytes.take q.parsePos := by
    intro hheaders
    have hold := h.lineStart (hstate ▸ hheaders)
    have hinside := h.safe.parsePos
    rw [h.bytes] at hold
    rw [hbytes, hpos, List.take_append_of_le_length (by omega)]
    exact hold
  have hsection : q.inHeaderSection = p.inHeaderSection := by
    simp only [inHeaderSection, hstate]
  cases hsec : p.inHeaderSection with
  | false =>
      -- the header section has been left, so its end and its checks are settled
      right
      have hleft := h.leftHead hsec
      have hended := findHeaderTerminator_append hleft segment
      have hchecked := headChecked_append h.checked hleft segment
      have hle : q.headerEndPos ≤ MAX_HEADER_SIZE ∧ q.headerEndPos ≠ 0 := by
        have hc := h.checked
        unfold headChecked at hc
        dsimp only at hc
        rw [if_pos hleft, Bool.and_eq_true, decide_eq_true_eq] at hc
        rw [hend, h.headerEndPos]
        exact ⟨hc.2, hleft⟩
      have hexceeds : q.exceedsSizeLimit = false := by
        have hcap := hsafe.bufferSize.trans hsafe.bufferCapacity
        unfold exceedsSizeLimit
        split
        · simp only [hle.2, decide_false, Bool.false_and, ne_eq, not_false_eq_true,
            decide_true, Bool.true_and, Bool.false_or, decide_eq_false_iff_not]
          omega
        · rw [decide_eq_false_iff_not]
          exact Nat.not_lt.mpr hcap
      refine ⟨q, ?_, hsafe, hbytes, hviews, hpath ▸ h.passes, hchecked, ?_, ?_, ?_, hline, ?_⟩
      · rw [checkInput_outside (hsection.trans hsec), hexceeds, if_neg Bool.false_ne_true]
      · rw [hend, hended]
        exact h.headerEndPos
      · exact fun hzero => absurd hzero hle.2
      · rw [hvalidated, List.take_append_of_le_length (by
          have hb := h.safe.validatedBytes
          omega)]
        exact h.validated
      · intro _
        rw [hended]
        exact hleft
  | true =>
      have hscanned : q.scanHeaderEnd.headerEndPos =
          findHeaderTerminator (input ++ segment) 0 ∧
          (q.scanHeaderEnd.headerEndPos = 0 →
            q.scanHeaderEnd.crlfScanPos = (input ++ segment).length) := by
        unfold scanHeaderEnd
        split
        next hzero =>
          have hnone : findHeaderTerminator input 0 = 0 := by
            rw [← h.headerEndPos, ← hend]
            exact hzero
          dsimp only
          rw [hscan, h.scanned (hend ▸ hzero), hbytes, hlength]
          exact ⟨findHeaderTerminator_resume hnone segment, fun _ => rfl⟩
        next hne =>
          rw [hend, h.headerEndPos] at hne
          rw [hend, findHeaderTerminator_append hne segment]
          exact ⟨h.headerEndPos, fun hzero => absurd (h.headerEndPos ▸ hzero) hne⟩
      have hscanSafe := scanHeaderEnd_safe hsafe
      have hscanSame : q.scanHeaderEnd = { q with
          headerEndPos := q.scanHeaderEnd.headerEndPos
          crlfScanPos := q.scanHeaderEnd.crlfScanPos } := by
        unfold scanHeaderEnd
        split <;> rfl
      have hcheck := checkInput_header (hsection.trans hsec)
      have hcheckSafe := checkInput_safe hsafe
      generalize q.scanHeaderEnd = r at hscanned hscanSafe hscanSame hcheck
      obtain ⟨hrend, hrscan⟩ := hscanned
      have hrfields : r.bytes = input ++ segment ∧ r.bufferSize = (input ++ segment).length ∧
          r.state = p.state ∧ r.validatedBytes = p.validatedBytes := by
        rw [hscanSame]
        exact ⟨hbytes, hlength, hstate, hvalidated⟩
      obtain ⟨hrbytes, hrsize, hrstate, hrvalidated⟩ := hrfields
      have hlimit : r.validationLimit =
          if findHeaderTerminator (input ++ segment) 0 ≠ 0 then
            findHeaderTerminator (input ++ segment) 0 else (input ++ segment).length := by
        unfold validationLimit
        rw [hrend, hrsize]
      have hlimitle : r.validationLimit ≤ r.bufferSize := by
        unfold validationLimit
        split
        · exact hscanSafe.headerEndPos
        · exact le_rfl
      have hinvalid := headerInvalid_eq hscanSafe hlimitle
        (by
          rw [hrvalidated]
          exact h.validated)
        (by
          rw [hrbytes]
          exact List.prefix_append _ _)
        (by
          rw [hrvalidated, ← hinput]
          exact h.safe.validatedBytes)
      rw [hrbytes, hlimit] at hinvalid
      have hexceeds : r.exceedsSizeLimit = !decide ((if findHeaderTerminator (input ++ segment) 0 ≠ 0
          then findHeaderTerminator (input ++ segment) 0 else (input ++ segment).length) ≤
            MAX_HEADER_SIZE) := by
        have hbody : r.state ≠ .body ∧ r.state ≠ .chunkData := by
          simp only [inHeaderSection, Bool.or_eq_true, decide_eq_true_eq] at hsec
          rw [hrstate]
          rcases hsec with hs | hs
          · simp [hs]
          · simp [hs]
        unfold exceedsSizeLimit
        rw [hrend, hrsize]
        by_cases hzero : findHeaderTerminator (input ++ segment) 0 = 0
        all_goals
          simp only [hbody.1, hbody.2, hzero, ne_eq, not_true_eq_false, not_false_eq_true,
            decide_true, decide_false, Bool.and_self, if_true, if_false, Bool.true_and,
            Bool.false_and, Bool.or_false, Bool.false_or, gt_iff_lt, ← decide_not, not_le]
      have hwhole : headChecked (input ++ segment) =
          (!r.headerInvalid && !r.exceedsSizeLimit) := by
        rw [hinvalid, hexceeds, Bool.not_not]
        rfl
      rw [hcheck] at hcheckSafe ⊢
      rw [hwhole]
      cases hbad : r.headerInvalid with
      | true => exact .inl ⟨rfl, r, .invalidFd, rfl⟩
      | false =>
          cases hlong : r.exceedsSizeLimit with
          | true => exact .inl ⟨rfl, r.markValidated, .invalidFd, rfl⟩
          | false =>
              right
              rw [hbad, hlong] at hcheckSafe
              have hmark : r.markValidated.onInput (start total) = q.onInput (start total) := by
                rw [hscanSame]
                rfl
              refine ⟨r.markValidated, rfl, hcheckSafe, hrbytes, ?_, ?_, ?_, hrend, hrscan,
                ?_, ?_, ?_⟩
              · rw [hscanSame]
                exact ⟨hviews.uri, hviews.headers, hviews.body, hviews.lastHeaderName⟩
              · rw [hmark, ← hpath]
                exact h.passes
              · rw [hwhole, hbad, hlong]
                rfl
              · show hasInvalidByte none ((input ++ segment).take r.validationLimit) = false
                rw [hlimit, ← hinvalid]
                exact hbad
              · rw [hscanSame]
                exact hline
              · intro houtside
                have hsame' : r.markValidated.inHeaderSection = p.inHeaderSection := by
                  show (r.state = .requestLine || r.state = .headers : Bool) = _
                  rw [hrstate]
                  rfl
                rw [hsame', hsec] at houtside
                cases houtside

/-! ## A whole input -/

theorem checkInput_onInput {p q : Parser} (hcheck : p.checkInput = (q, .ok ())) (r : Parser) :
    q.onInput r = p.onInput r := by
  cases hsection : p.inHeaderSection with
  | false =>
      rw [checkInput_outside hsection] at hcheck
      split at hcheck
      · cases hcheck
      · cases hcheck
        rfl
  | true =>
      have hscan : p.scanHeaderEnd.onInput r = p.onInput r := by
        unfold scanHeaderEnd
        split <;> rfl
      rw [checkInput_header hsection] at hcheck
      split at hcheck
      · cases hcheck
      split at hcheck
      · cases hcheck
      · cases hcheck
        exact hscan

theorem checkInput_sizes (p : Parser) :
    p.checkInput.1.bufferSize = p.bufferSize ∧
      p.checkInput.1.bufferCapacity = p.bufferCapacity := by
  cases hsection : p.inHeaderSection with
  | false =>
      rw [checkInput_outside hsection]
      split <;> exact ⟨rfl, rfl⟩
  | true =>
      have hscan : p.scanHeaderEnd.bufferSize = p.bufferSize ∧
          p.scanHeaderEnd.bufferCapacity = p.bufferCapacity := by
        unfold scanHeaderEnd
        split <;> exact ⟨rfl, rfl⟩
      rw [checkInput_header hsection]
      split
      · exact hscan
      split <;> exact hscan

theorem passes_sizes {p q : Parser} (hpasses : Passes parsePass p q) :
    q.bufferSize = p.bufferSize ∧ q.bufferCapacity = p.bufferCapacity := by
  have hpass : ∀ s next : Parser, s.bufferSize = p.bufferSize ∧ s.bufferCapacity = p.bufferCapacity →
      s.parsePass = .again next →
        next.bufferSize = p.bufferSize ∧ next.bufferCapacity = p.bufferCapacity := by
    intro s next hs hpass
    obtain ⟨-, q, state, hnext, rfl, -⟩ := (parsePass_again_iff).mp hpass
    have hadv := nextState_advances s
    rw [hnext] at hadv
    exact ⟨hadv.input.bufferSize.trans hs.1, hadv.input.bufferCapacity.trans hs.2⟩
  exact hpasses.invariant hpass ⟨rfl, rfl⟩

/-- A parser at the start of a message, with `input` in its buffer. -/
structure Fresh (input : List Byte) (p : Parser) : Prop where
  same : p = { buffer := p.buffer, bufferSize := p.bufferSize, bufferCapacity := p.bufferCapacity }
  bytes : p.bytes = input
  safe : p.Safe

/-- A parser at the start of a message that has passed the checks. -/
structure Ready (input : List Byte) (p : Parser) : Prop where
  same : p = ({} : Parser).onInput p
  bytes : p.bytes = input
  safe : p.Safe
  headerEndPos : p.headerEndPos = findHeaderTerminator input 0

theorem Fresh.parseAvailable {input : List Byte} {p : Parser} (h : Fresh input p) :
    (headChecked input = false ∧ ∃ q e, p.parseAvailable = (q, .error e) ∧
        q.inHeaderSection = true) ∨
      (headChecked input = true ∧ ∃ q, p.parseAvailable = q.parseLoop ∧ Ready input q ∧
        q.bufferCapacity = p.bufferCapacity) := by
  have hsection : p.inHeaderSection = true := by
    rw [h.same]
    rfl
  rcases (fed_initial input).check h.safe h.bytes h.same with
    ⟨hbad, q, e, hcheck⟩ | ⟨q, hcheck, hfed⟩
  · refine .inl ⟨hbad, q, e, ?_, ?_⟩
    · unfold Parser.parseAvailable
      rw [hcheck]
    · have hscan := scanHeaderEnd_state p
      have hstate : q.state = p.state := by
        rw [checkInput_header hsection] at hcheck
        split at hcheck
        · cases hcheck
          exact hscan
        split at hcheck
        · cases hcheck
          exact hscan
        · cases hcheck
      rw [inHeaderSection, hstate]
      exact hsection
  · refine .inr ⟨hfed.checked, q, ?_, ⟨?_, hfed.bytes, hfed.safe, hfed.headerEndPos⟩, ?_⟩
    · unfold Parser.parseAvailable
      rw [hcheck]
    · have hsame := checkInput_onInput hcheck q
      have hp : p.onInput q = ({} : Parser).onInput q := by
        rw [h.same]
        rfl
      rw [← hp, ← hsame]
      rfl
    · have hsizes := checkInput_sizes p
      rw [hcheck] at hsizes
      exact hsizes.2

/-- Input that arrives in one piece at a fresh parser. -/
theorem parse_fresh {input : List Byte} (hlength : input.length ≤ MAX_BUFFER_SIZE) :
    ∃ p, ({} : Parser).parse input = p.parseAvailable ∧ Fresh input p ∧
      (input.length ≤ INITIAL_BUFFER_CAPACITY →
        p.bufferCapacity = INITIAL_BUFFER_CAPACITY) := by
  obtain ⟨hparse, hsafe, hbytes, hsame⟩ :=
    received_spec safe_initial (fun _ => by simp [spanDrops, compactionDrops])
      (by simpa using hlength)
  refine ⟨_, hparse, ⟨hsame, hbytes, hsafe⟩, fun hsmall => ?_⟩
  have hspan : ({} : Parser).writableInputSpan input.length =
      (({} : Parser), .ok ⟨0, input.length⟩) := by
    have hmax : ¬ input.length > MAX_BUFFER_SIZE := Nat.not_lt.mpr hlength
    have hfits : ¬ input.length > INITIAL_BUFFER_CAPACITY - 0 := Nat.not_lt.mpr hsmall
    unfold writableInputSpan inputSpan
    rw [if_neg hmax, if_neg (Nat.not_lt_zero _), if_neg hfits, if_neg hfits]
  unfold received
  split
  · rfl
  · rw [hspan]
    rfl

/-! ## Outcomes -/

/-- A parser that waits with all the input in its buffer waits in every buffer
that holds this input. -/
theorem Fed.waits {total : List Byte} {p : Parser} (h : Fed total total p) (hwaits : p.Waits) :
    (p.onInput (start total)).Waits := by
  have hback : (p.onInput (start total)).Extends p := by
    refine ⟨rfl, ?_, le_rfl, ?_, ?_⟩
    · rw [h.bytes]
      show total.take total.length <+: total
      exact List.take_prefix _ _
    · show p.parsePos ≤ total.length
      rw [← congrArg List.length h.bytes, bytes_length h.safe.written]
      exact h.safe.parsePos
    · exact ⟨h.views.uri, h.views.headers, h.views.body, h.views.lastHeaderName⟩
  refine ⟨hwaits.1, ?_⟩
  rcases nextState_alike hback with hwait | ⟨hstep, -⟩
  · exact hwait
  · rw [hwaits.2] at hstep
    rcases hnext : (p.onInput (start total)).nextState with ⟨r, e | state⟩
    · rw [hnext] at hstep
      exact absurd (congrArg Prod.snd hstep) nofun
    · rw [hnext] at hstep
      simp only [Prod.mk.injEq, Except.ok.injEq] at hstep
      obtain ⟨hr, rfl⟩ := hstep
      have hpos : r.parsePos = (p.onInput (start total)).parsePos := by
        show (r.onInput p).parsePos = p.parsePos
        rw [← hr]
      obtain ⟨rfl, -⟩ := nextState_still hnext hpos hwaits.1
      rfl

end Parser

end Http
end Katana
