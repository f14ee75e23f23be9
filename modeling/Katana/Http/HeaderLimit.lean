import Katana.Http.Compaction
import Katana.Http.Lines
import Katana.Library.Transition

/-!
# The size limit of the header section

The limit is compared with `header_end_pos_`, a position in the buffer.  A ghost
counter of the bytes consumed since the start of the request line says what it
ought to bound.  The counter stays below the position as long as no bytes of the
header section are dropped and the position is not a stale one: the unparsed
bytes up to `header_end_pos_` are then a list of lines, and each pass of the
loop takes the first of them.
-/

namespace Katana
namespace Http

open Library

/-- A parser between calls, or between two passes of the loop that a call runs.
`headBytes` counts the bytes consumed since the start of the request line, and
no longer changes once the header section has been left. -/
structure Session where
  parser : Parser := {}
  looping : Bool := false
  headBytes : ℕ := 0

inductive SessionLabel where
  | writableInputSpan (desiredSize : ℕ)
  | commitInput (data : List Byte)
  | parseAvailable
  | pass
  | prepareForNextRequest

namespace Session

/-- The checks in front of the loop. -/
def enter (s : Session) (p : Parser) : Session :=
  match p.checkInput with
  | (p, .error _) => { s with parser := p }
  | (p, .ok _) => { s with parser := p, looping := true }

def countHead (s : Session) (p : Parser) : ℕ :=
  match s.parser.state with
  | .requestLine => p.parsePos - s.parser.parsePos
  | .headers => s.headBytes + (p.parsePos - s.parser.parsePos)
  | _ => s.headBytes

def step (s : Session) : SessionLabel → Option Session
  | .writableInputSpan desiredSize =>
      if s.looping then none
      else some { s with parser := (s.parser.writableInputSpan desiredSize).1 }
  | .commitInput data =>
      if s.looping then none
      else if s.parser.bufferSize > s.parser.bufferCapacity then some s
      else if data.length > s.parser.bufferCapacity - s.parser.bufferSize then some s
      else some (s.enter (s.parser.writeInput data))
  | .parseAvailable => if s.looping then none else some (s.enter s.parser)
  | .pass =>
      if !s.looping then none
      else
        match s.parser.parsePass with
        | .again next => some { s with parser := next, headBytes := s.countHead next }
        | .done (p, .error _) =>
            some { parser := p, looping := false, headBytes := s.countHead p }
        | .done (p, .ok _) => some { s with parser := p, looping := false }
  | .prepareForNextRequest =>
      if s.looping then none
      else some { parser := s.parser.prepareForNextRequest, looping := false, headBytes := 0 }

/-- Whatever `parse_available` returns, its passes bring the session there. -/
theorem exec_parseAvailable (s : Session) (hidle : s.looping = false) :
    ∃ passes final, exec step s (.parseAvailable :: passes) = some final ∧
      final.looping = false ∧ final.parser = s.parser.parseAvailable.1 := by
  have hpasses : ∀ {p last : Parser}, Passes Parser.parsePass p last → ∀ headBytes,
      ∃ passes headBytes', exec step ⟨p, true, headBytes⟩ passes =
        some ⟨last, true, headBytes'⟩ := by
    intro p last hpasses
    induction hpasses using Relation.ReflTransGen.head_induction_on with
    | refl => exact fun headBytes => ⟨[], headBytes, rfl⟩
    | @head p next hpass _ ih =>
        intro headBytes
        obtain ⟨passes, headBytes', hexec⟩ := ih (countHead ⟨p, true, headBytes⟩ next)
        refine ⟨.pass :: passes, headBytes', (exec_cons).mpr ⟨_, ?_, hexec⟩⟩
        simp [step, hpass]
  unfold Parser.parseAvailable
  have hstep : step s .parseAvailable = some (s.enter s.parser) := by
    simp [step, hidle]
  rcases hcheck : s.parser.checkInput with ⟨p, e | _⟩
  · refine ⟨[], s.enter s.parser, (exec_cons).mpr ⟨_, hstep, rfl⟩, ?_, ?_⟩
    · simp [enter, hcheck, hidle]
    · simp [enter, hcheck]
  · obtain ⟨last, hloop, hdone⟩ := Parser.parseLoop_endsWith p
    obtain ⟨passes, headBytes', hexec⟩ := hpasses hloop s.headBytes
    have hlast : ∃ final, step ⟨last, true, headBytes'⟩ .pass = some final ∧
        final.looping = false ∧ final.parser = p.parseLoop.1 := by
      generalize p.parseLoop = r at hdone
      obtain ⟨q, e | st⟩ := r
      · exact ⟨⟨q, false, countHead ⟨last, true, headBytes'⟩ q⟩, by simp [step, hdone], rfl, rfl⟩
      · exact ⟨⟨q, false, headBytes'⟩, by simp [step, hdone], rfl, rfl⟩
    obtain ⟨final, hfinal, hidle', hparser⟩ := hlast
    refine ⟨passes ++ [.pass], final, (exec_cons).mpr ⟨_, hstep, ?_⟩, hidle', hparser⟩
    rw [exec_append]
    refine ⟨_, ?_, (exec_cons).mpr ⟨_, hfinal, rfl⟩⟩
    rw [← hexec, enter, hcheck]

/-- The step neither drops bytes of an unfinished header section nor parses it
with a `header_end_pos_` that `parse_pos_` has already passed. -/
def Keeps (s : Session) : SessionLabel → Prop
  | .writableInputSpan desiredSize =>
      s.parser.state = .headers → s.parser.spanDrops desiredSize = false
  | .commitInput _ | .parseAvailable =>
      s.parser.inHeaderSection = true → s.parser.headerEndPos ≠ 0 →
        s.parser.parsePos < s.parser.headerEndPos
  | .pass =>
      s.parser.state = .headers → findCrlf s.parser.unparsed = none →
        s.parser.stallDrops = false
  | .prepareForNextRequest => True

instance decidableKeeps (s : Session) : ∀ label, Decidable (s.Keeps label)
  | .writableInputSpan desiredSize => inferInstanceAs (Decidable
      (s.parser.state = .headers → s.parser.spanDrops desiredSize = false))
  | .commitInput _ => inferInstanceAs (Decidable
      (s.parser.inHeaderSection = true → s.parser.headerEndPos ≠ 0 →
        s.parser.parsePos < s.parser.headerEndPos))
  | .parseAvailable => inferInstanceAs (Decidable
      (s.parser.inHeaderSection = true → s.parser.headerEndPos ≠ 0 →
        s.parser.parsePos < s.parser.headerEndPos))
  | .pass => inferInstanceAs (Decidable
      (s.parser.state = .headers → findCrlf s.parser.unparsed = none →
        s.parser.stallDrops = false))
  | .prepareForNextRequest => .isTrue trivial

/-- Past the header section, the head was within the limit. -/
def LimitKept (s : Session) : Prop :=
  s.parser.inHeaderSection = false → s.headBytes ≤ MAX_HEADER_SIZE

end Session

namespace Parser

/-! ## Lines of the header section -/

/-- The parser stands at the start of the buffer or behind a CRLF. -/
def Aligned (p : Parser) : Prop :=
  p.parsePos = 0 ∨ CRLF <:+ p.bytes.take p.parsePos

/-- What is unparsed up to `header_end_pos_` is a list of lines and the last CRLF. -/
def HeadAhead (p : Parser) : Prop :=
  ∃ lines rest, p.unparsed = renderLines lines ++ CRLF ++ rest ∧
    (∀ line ∈ lines, findCrlf line = none) ∧
    p.parsePos + (renderLines lines).length + 2 = p.headerEndPos

theorem useRequestLine_ok {start : ℕ} {line : List Byte} {p : Parser} {state : ParserState}
    (h : (p.useRequestLine start line).2 = .ok state) : state = .headers ∧ line ≠ [] := by
  refine ⟨?_, ?_⟩
  · unfold useRequestLine at h
    split at h
    · cases h
    · cases h
      rfl
  · rintro rfl
    simp [useRequestLine, processRequestLine, fail] at h

theorem endHeaders_ok {p : Parser} {state : ParserState} (h : p.endHeaders.2 = .ok state) :
    state = .chunkSize ∨ state = .complete ∨ state = .body := by
  unfold endHeaders at h
  dsimp only at h
  split at h
  · cases h
    exact .inl rfl
  split at h
  · cases h
    exact .inr (.inl rfl)
  split at h
  · split at h
    · cases h
    · cases h
      exact .inr (.inr rfl)
  · cases h

/-- A line that is not empty keeps the parser in the header section. -/
theorem useHeaderLine_ok {start : ℕ} {line : List Byte} {p : Parser} {state : ParserState}
    (h : (p.useHeaderLine start line).2 = .ok state) :
    (line = [] ∧ (state = .chunkSize ∨ state = .complete ∨ state = .body)) ∨
      (line ≠ [] ∧ state = .headers) := by
  unfold useHeaderLine at h
  split at h
  next hempty => exact .inl ⟨hempty, endHeaders_ok h⟩
  next hempty =>
  refine .inr ⟨hempty, ?_⟩
  split at h
  · unfold foldHeader at h
    split at h
    · cases h
    split at h
    · cases h
    dsimp only at h
    split at h
    · cases h
    · cases h
      rfl
  · split at h
    · cases h
    · cases h
      rfl

/-- A step of the header section waits, refuses the bytes of the line, or
consumes the line. -/
theorem nextState_line {p : Parser} (hsection : p.inHeaderSection = true) :
    (findCrlf p.unparsed = none ∧ p.nextState = (p, .ok p.state)) ∨ p.nextState = p.fail ∨
      ∃ length, findCrlf p.unparsed = some length ∧
        p.nextState.1.parsePos = p.parsePos + length + 2 ∧
        ∀ state, p.nextState.2 = .ok state →
          (p.state = .requestLine → state = .headers) ∧
            ((state = .headers ∧ length ≠ 0) ∨
              (length = 0 ∧ state ≠ .requestLine ∧ state ≠ .headers)) := by
  simp only [inHeaderSection, Bool.or_eq_true, decide_eq_true_eq] at hsection
  have hline : ∀ {length : ℕ}, findCrlf p.unparsed = some length →
      (p.unparsed.take length = [] ↔ length = 0) := by
    intro length hfind
    have hbound := findCrlf_bound hfind
    rw [List.take_eq_nil_iff]
    constructor
    · rintro (h | h)
      · exact h
      · rw [h] at hbound
        simp at hbound
    · exact .inl
  rcases hsection with hstate | hstate
  · unfold nextState
    rw [hstate]
    dsimp only
    rcases withLine_cases true .requestLine useRequestLine p with
      ⟨hnone, heq⟩ | ⟨length, hfind, ⟨-, -, heq⟩ | ⟨-, heq⟩⟩
    · exact .inl ⟨hnone, heq⟩
    · exact .inr (.inl heq)
    · refine .inr (.inr ⟨length, hfind, ?_, ?_⟩)
      · rw [parseRequestLineState, heq]
        exact (useRequestLine_use _ _ _).frame.parsePos
      · intro state hok
        rw [parseRequestLineState, heq] at hok
        obtain ⟨hheaders, hne⟩ := useRequestLine_ok hok
        rw [ne_eq, hline hfind] at hne
        exact ⟨fun _ => hheaders, .inl ⟨hheaders, hne⟩⟩
  · unfold nextState
    rw [hstate]
    dsimp only
    rcases withLine_cases true .headers useHeaderLine p with
      ⟨hnone, heq⟩ | ⟨length, hfind, ⟨-, -, heq⟩ | ⟨-, heq⟩⟩
    · exact .inl ⟨hnone, heq⟩
    · exact .inr (.inl heq)
    · refine .inr (.inr ⟨length, hfind, ?_, ?_⟩)
      · rw [parseHeadersState, heq]
        exact (useHeaderLine_use _ _ _).frame.parsePos
      · intro state hok
        rw [parseHeadersState, heq] at hok
        refine ⟨nofun, ?_⟩
        rcases useHeaderLine_ok hok with ⟨hempty, hleft⟩ | ⟨hne, hheaders⟩
        · rw [hline hfind] at hempty
          refine .inr ⟨hempty, ?_⟩
          rcases hleft with rfl | rfl | rfl
          · exact ⟨nofun, nofun⟩
          · exact ⟨nofun, nofun⟩
          · exact ⟨nofun, nofun⟩
        · rw [ne_eq, hline hfind] at hne
          exact .inl ⟨hheaders, hne⟩

theorem suffix_of_line {p q : Parser} {length : ℕ} (hfind : findCrlf p.unparsed = some length)
    (hbytes : q.bytes = p.bytes) (hpos : q.parsePos = p.parsePos + length + 2) :
    CRLF <:+ q.bytes.take q.parsePos := by
  have hsplit := firstIndex_split hfind
  have htake : p.unparsed.take (length + 2) = p.unparsed.take length ++ CRLF := by
    have hcut := congrArg (List.take (length + 2)) hsplit
    have hbound := findCrlf_bound hfind
    rw [List.take_left' (by
      rw [List.length_append, List.length_take, crlf_length]
      omega)] at hcut
    exact hcut
  rw [hbytes, hpos, Nat.add_assoc, List.take_add]
  show CRLF <:+ p.bytes.take p.parsePos ++ p.unparsed.take (length + 2)
  rw [htake, ← List.append_assoc]
  exact List.suffix_append _ _

theorem Aligned.line {p q : Parser} {length : ℕ} (hfind : findCrlf p.unparsed = some length)
    (hbytes : q.bytes = p.bytes) (hpos : q.parsePos = p.parsePos + length + 2) : q.Aligned :=
  .inr (suffix_of_line hfind hbytes hpos)

theorem Aligned.of_bytes {p q : Parser} (h : p.Aligned) (hinside : p.parsePos ≤ p.bytes.length)
    (hpos : q.parsePos = p.parsePos) (hbytes : p.bytes <+: q.bytes) : q.Aligned := by
  obtain ⟨more, hmore⟩ := hbytes
  unfold Aligned
  rw [hpos, ← hmore, List.take_append_of_le_length hinside]
  exact h

/-- The next line is the first of those ahead. -/
theorem HeadAhead.line {p q : Parser} (h : p.HeadAhead) {length : ℕ}
    (hfind : findCrlf p.unparsed = some length) (hbytes : q.bytes = p.bytes)
    (hend : q.headerEndPos = p.headerEndPos) (hpos : q.parsePos = p.parsePos + length + 2) :
    (length = 0 ∧ q.parsePos = q.headerEndPos) ∨ q.HeadAhead := by
  obtain ⟨lines, rest, hunparsed, hlines, hsum⟩ := h
  cases lines with
  | nil =>
      left
      have hzero : length = 0 := by
        have hfirst := @findCrlf_line [] rfl rest
        simp only [renderLines_nil] at hunparsed
        rw [← hunparsed, hfind] at hfirst
        cases hfirst
        rfl
      simp only [renderLines_nil, List.length_nil] at hsum
      exact ⟨hzero, by omega⟩
  | cons line lines =>
      right
      have hunparsed' : p.unparsed =
          (line ++ CRLF) ++ (renderLines lines ++ CRLF ++ rest) := by
        rw [hunparsed, renderLines_cons]
        simp only [List.append_assoc]
      have hfirst := findCrlf_line (hlines line (by simp)) (renderLines lines ++ CRLF ++ rest)
      rw [← hunparsed', hfind] at hfirst
      cases hfirst
      refine ⟨lines, rest, ?_, fun l hl => hlines l (by simp [hl]), ?_⟩
      · have hdrop := unparsed_withPos hunparsed'
        rw [List.length_append, crlf_length, ← Nat.add_assoc, ← hpos] at hdrop
        rw [← hdrop]
        unfold unparsed
        rw [hbytes]
        rfl
      · rw [renderLines_cons] at hsum
        simp only [List.length_append, crlf_length] at hsum
        omega

/-- Compaction, relocation and further input leave the lines ahead in place. -/
theorem HeadAhead.shift {p q : Parser} (h : p.HeadAhead) (hunparsed : p.unparsed <+: q.unparsed)
    (hend : q.headerEndPos + p.parsePos = p.headerEndPos + q.parsePos) : q.HeadAhead := by
  obtain ⟨lines, rest, heq, hlines, hsum⟩ := h
  obtain ⟨more, hmore⟩ := hunparsed
  refine ⟨lines, rest ++ more, ?_, hlines, by omega⟩
  rw [← hmore, heq]
  simp only [List.append_assoc]

/-- A terminator that is found ahead of the parser ends a list of lines. -/
theorem HeadAhead.of_terminator {p : Parser} (haligned : p.Aligned)
    (hahead : p.parsePos < p.headerEndPos) (hfour : 4 ≤ p.headerEndPos)
    (hat : CRLF ++ CRLF <+: p.bytes.drop (p.headerEndPos - 4)) : p.HeadAhead := by
  obtain ⟨rest, hrest⟩ := hat
  obtain ⟨e, he⟩ : ∃ e, p.headerEndPos = e + 4 := ⟨_, (Nat.sub_add_cancel hfour).symm⟩
  rw [he, Nat.add_sub_cancel] at hrest
  obtain ⟨front, hbytes, hfront⟩ : ∃ front, p.bytes = front ++ (CRLF ++ CRLF ++ rest) ∧
      front.length = e := by
    refine ⟨p.bytes.take e, by rw [hrest, List.take_append_drop], ?_⟩
    have hlen := congrArg List.length hrest
    simp only [List.length_append, crlf_length, List.length_drop] at hlen
    rw [List.length_take]
    omega
  unfold Aligned at haligned
  unfold HeadAhead unparsed
  rw [hbytes] at haligned ⊢
  by_cases hbefore : p.parsePos ≤ e
  · -- the lines are those between the parser and the second CRLF
    obtain ⟨lines, hlines, hfree⟩ :=
      exists_renderLines (.inr (List.suffix_append (front.drop p.parsePos) CRLF))
    refine ⟨lines, rest, ?_, hfree, ?_⟩
    · rw [← hlines, List.drop_append_of_le_length (by omega)]
      simp only [List.append_assoc]
    · rw [← hlines, List.length_append, List.length_drop, hfront, crlf_length]
      omega
  by_cases hmiddle : p.parsePos = e + 2
  · refine ⟨[], rest, ?_, nofun, ?_⟩
    · rw [hmiddle, ← hfront, List.append_assoc, ← List.append_assoc,
        List.drop_left' (by rw [List.length_append, crlf_length])]
      rfl
    · simp only [renderLines_nil, List.length_nil]
      omega
  · -- behind half of a CRLF the parser would not be aligned
    exfalso
    rcases haligned with hzero | ⟨before, hbefore'⟩
    · omega
    have hpos : p.parsePos = e + 1 ∨ p.parsePos = e + 3 := by omega
    have hlast : ((front ++ (CRLF ++ CRLF ++ rest)).take p.parsePos).getLast? = some LF := by
      rw [← hbefore', List.getLast?_append]
      rfl
    rcases hpos with hpos | hpos
    · rw [hpos, ← hfront, List.take_append] at hlast
      simp [CRLF, CR, LF] at hlast
    · rw [hpos, ← hfront, List.take_append] at hlast
      simp [CRLF, CR, LF] at hlast

theorem nextState_outside {p : Parser} (hsection : p.inHeaderSection = false)
    {state : ParserState} (hok : p.nextState.2 = .ok state) :
    state ≠ .requestLine ∧ state ≠ .headers := by
  have hlines : ∀ (stay : ParserState) (use : ℕ → List Byte → Parser → Parsed ParserState),
      stay ≠ .requestLine → stay ≠ .headers →
      (∀ start line q, (use start line q).2 = .ok state →
        state ≠ .requestLine ∧ state ≠ .headers) →
      (p.withLine false stay use).2 = .ok state →
      state ≠ .requestLine ∧ state ≠ .headers := by
    intro stay use hstay hstay' huse hline
    rcases withLine_cases false stay use p with
      ⟨-, heq⟩ | ⟨length, -, ⟨hchecked, -, -⟩ | ⟨-, heq⟩⟩
    · rw [heq] at hline
      cases hline
      exact ⟨hstay, hstay'⟩
    · cases hchecked
    · rw [heq] at hline
      exact huse _ _ _ hline
  unfold nextState at hok
  cases hstate : p.state with
  | requestLine => simp [inHeaderSection, hstate] at hsection
  | headers => simp [inHeaderSection, hstate] at hsection
  | body =>
      rw [hstate] at hok
      dsimp only [parseBodyState] at hok
      split at hok <;> (cases hok; exact ⟨nofun, nofun⟩)
  | chunkSize =>
      rw [hstate] at hok
      refine hlines .chunkSize useChunkSizeLine nofun nofun
        (fun start line q huse => ?_) hok
      unfold useChunkSizeLine at huse
      split at huse
      · split at huse
        · cases huse
        dsimp only at huse
        split at huse
        · cases huse
          exact ⟨nofun, nofun⟩
        split at huse <;> (cases huse; try exact ⟨nofun, nofun⟩)
      · cases huse
  | chunkData =>
      rw [hstate] at hok
      dsimp only [parseChunkDataState] at hok
      split at hok
      · split at hok <;> (cases hok; try exact ⟨nofun, nofun⟩)
      · cases hok
        exact ⟨nofun, nofun⟩
  | chunkTrailer =>
      rw [hstate] at hok
      refine hlines .chunkTrailer useTrailerLine nofun nofun
        (fun start line q huse => ?_) hok
      cases huse
      exact ⟨nofun, nofun⟩
  | complete =>
      rw [hstate] at hok
      cases hok
      exact ⟨nofun, nofun⟩

theorem writeInput_bytes (data : List Byte) {p : Parser}
    (hwritten : p.bufferSize ≤ p.buffer.length) :
    (p.writeInput data).bytes = p.bytes ++ data := by
  show (p.bytes ++ data ++ p.buffer.drop (p.bufferSize + data.length)).take
    (p.bufferSize + data.length) = _
  rw [List.take_left' (by rw [List.length_append, bytes_length hwritten])]

theorem writeInput_unparsed (data : List Byte) {p : Parser}
    (hwritten : p.bufferSize ≤ p.buffer.length) (hinside : p.parsePos ≤ p.bufferSize) :
    (p.writeInput data).unparsed = p.unparsed ++ data := by
  unfold unparsed
  rw [writeInput_bytes data hwritten]
  exact List.drop_append_of_le_length (by rwa [bytes_length hwritten])

end Parser

namespace Session

open Katana.Http.Parser

/-- What the limit rests on. -/
structure HeadInvariant (s : Session) : Prop where
  safe : s.parser.Safe
  head : s.parser.state = .headers → s.headBytes ≤ s.parser.parsePos
  aligned : s.parser.inHeaderSection = true → s.parser.Aligned
  scanned : s.parser.inHeaderSection = true → s.parser.headerEndPos = 0 →
    s.parser.parsePos ≤ s.parser.crlfScanPos
  ahead : s.parser.inHeaderSection = true → s.parser.headerEndPos ≠ 0 →
    s.parser.headerEndPos ≤ s.parser.parsePos ∨ s.parser.HeadAhead
  limit : s.looping = true → s.parser.inHeaderSection = true →
    (s.parser.headerEndPos = 0 ∧ s.parser.crlfScanPos = s.parser.bufferSize ∧
      s.parser.bufferSize ≤ MAX_HEADER_SIZE) ∨
    (s.parser.headerEndPos ≤ MAX_HEADER_SIZE ∧ s.parser.HeadAhead)
  kept : s.LimitKept

theorem headInvariant_initial : HeadInvariant {} :=
  ⟨safe_initial, nofun, fun _ => .inl rfl, fun _ _ => le_rfl, fun _ h => absurd rfl h, nofun,
    nofun⟩

/-- Outside the header section only the recorded count matters. -/
theorem HeadInvariant.outside {s : Session} (hsafe : s.parser.Safe)
    (houtside : s.parser.inHeaderSection = false) (hkept : s.headBytes ≤ MAX_HEADER_SIZE) :
    s.HeadInvariant := by
  have hnot : s.parser.inHeaderSection ≠ true := by simp [houtside]
  refine ⟨hsafe, ?_, fun h => absurd h hnot, fun h => absurd h hnot, fun h => absurd h hnot,
    fun _ h => absurd h hnot, fun _ => hkept⟩
  intro hstate
  simp [inHeaderSection, hstate] at houtside

section Steps

variable {s : Session}

theorem HeadInvariant.stop (h : s.HeadInvariant) : HeadInvariant { s with looping := false } :=
  ⟨h.safe, h.head, h.aligned, h.scanned, h.ahead, nofun, h.kept⟩

theorem HeadInvariant.relocated (h : s.HeadInvariant) (hidle : s.looping = false) {q : Parser}
    (hq : s.parser.Relocated q) (hsafe : q.Safe) : HeadInvariant { s with parser := q } := by
  have hunparsed := hq.unparsed
  have hbytes := hq.bytes
  have hsame := hq.same
  have hfields : q.state = s.parser.state ∧ q.parsePos = s.parser.parsePos ∧
      q.headerEndPos = s.parser.headerEndPos ∧ q.crlfScanPos = s.parser.crlfScanPos := by
    rw [hsame]
    exact ⟨rfl, rfl, rfl, rfl⟩
  obtain ⟨hstate, hpos, hend, hscan⟩ := hfields
  have hsection : q.inHeaderSection = s.parser.inHeaderSection := by
    simp only [inHeaderSection, hstate]
  refine ⟨hsafe, ?_, ?_, ?_, ?_, ?_, ?_⟩
  · dsimp only
    rw [hstate, hpos]
    exact h.head
  · intro hs
    refine (h.aligned (hsection ▸ hs)).of_bytes ?_ hpos (hbytes ▸ List.prefix_rfl)
    rw [bytes_length h.safe.written]
    exact h.safe.parsePos
  · dsimp only
    rw [hsection, hend, hpos, hscan]
    exact h.scanned
  · intro hs hne
    dsimp only at hs hne ⊢
    rw [hsection] at hs
    rw [hend] at hne
    rcases h.ahead hs hne with hstale | hahead
    · left
      rw [hend, hpos]
      exact hstale
    · refine .inr (hahead.shift (hunparsed ▸ List.prefix_rfl) ?_)
      rw [hend, hpos]
  · intro hlooping
    rw [show s.looping = true from hlooping] at hidle
    cases hidle
  · intro hs
    dsimp only at hs
    rw [hsection] at hs
    exact h.kept hs

/-- Dropping parsed bytes is harmless before the request line has been taken. -/
theorem HeadInvariant.compacted (h : s.HeadInvariant) (hidle : s.looping = false)
    (hstate : s.parser.state ≠ .headers) :
    HeadInvariant { s with parser := s.parser.compactBuffer } := by
  have hunparsed := compactBuffer_unparsed h.safe.written
  have hsafe := compactBuffer_safe h.safe
  rcases compactBuffer_cases h.safe with heq | ⟨hpos, hsame, hend⟩
  · rw [heq]
    exact h
  have hsection : s.parser.compactBuffer.inHeaderSection = s.parser.inHeaderSection := by
    simp only [inHeaderSection, hsame]
  refine ⟨hsafe, ?_, fun _ => .inl hpos, fun _ _ => hpos ▸ Nat.zero_le _, ?_, ?_, ?_⟩
  · intro hheaders
    exact absurd (hsame.symm.trans hheaders) hstate
  · intro hs hne
    dsimp only at hs hne ⊢
    rw [hsection] at hs
    rw [hend] at hne
    rcases h.ahead hs (by omega) with hstale | hahead
    · omega
    · refine .inr (hahead.shift (hunparsed ▸ List.prefix_rfl) ?_)
      rw [hend, hpos]
      omega
  · intro hlooping
    rw [show s.looping = true from hlooping] at hidle
    cases hidle
  · intro hs
    dsimp only at hs
    rw [hsection] at hs
    exact h.kept hs

theorem HeadInvariant.writableInputSpan (h : s.HeadInvariant) (hidle : s.looping = false)
    {desiredSize : ℕ} (hkeeps : s.Keeps (.writableInputSpan desiredSize)) :
    HeadInvariant { s with parser := (s.parser.writableInputSpan desiredSize).1 } := by
  have hsafe := writableInputSpan_safe desiredSize h.safe
  rcases writableInputSpan_cases desiredSize s.parser with
    hmoved | ⟨hdrops, hmoved⟩
  · exact h.relocated hidle hmoved hsafe
  · have hstate : s.parser.state ≠ .headers := by
      intro hheaders
      rw [hkeeps hheaders] at hdrops
      cases hdrops
    exact (h.compacted hidle hstate).relocated hidle hmoved hsafe

theorem HeadInvariant.writeInput (h : s.HeadInvariant) (hidle : s.looping = false)
    {data : List Byte} (hroom : data.length ≤ s.parser.bufferCapacity - s.parser.bufferSize) :
    HeadInvariant { s with parser := s.parser.writeInput data } := by
  have hbytes := writeInput_bytes data h.safe.written
  have hunparsed := writeInput_unparsed data h.safe.written h.safe.parsePos
  refine ⟨writeInput_safe h.safe hroom, h.head, ?_, h.scanned, ?_, ?_, h.kept⟩
  · intro hs
    refine (h.aligned hs).of_bytes ?_ rfl (hbytes ▸ List.prefix_append _ _)
    rw [bytes_length h.safe.written]
    exact h.safe.parsePos
  · intro hs hne
    rcases h.ahead hs hne with hstale | hahead
    · exact .inl hstale
    · exact .inr (hahead.shift (hunparsed ▸ List.prefix_append _ _) rfl)
  · intro hlooping
    rw [show s.looping = true from hlooping] at hidle
    cases hidle

/-- After the scan the end of the header section is unknown, or ahead. -/
theorem HeadInvariant.scanHeaderEnd (h : s.HeadInvariant) (hidle : s.looping = false)
    (hsection : s.parser.inHeaderSection = true)
    (hfresh : s.parser.headerEndPos ≠ 0 → s.parser.parsePos < s.parser.headerEndPos) :
    HeadInvariant { s with parser := s.parser.scanHeaderEnd } ∧
      ((s.parser.scanHeaderEnd.headerEndPos = 0 ∧
          s.parser.scanHeaderEnd.crlfScanPos = s.parser.scanHeaderEnd.bufferSize) ∨
        s.parser.scanHeaderEnd.HeadAhead) := by
  have hsafe := scanHeaderEnd_safe h.safe
  by_cases hzero : s.parser.headerEndPos = 0
  · have hscanned := h.scanned hsection hzero
    have haligned := h.aligned hsection
    have hfound : ∀ start, (start = if s.parser.crlfScanPos > 3 then s.parser.crlfScanPos - 3
        else 0) → ∀ p : Parser, p = { s.parser with
          headerEndPos := findHeaderTerminator s.parser.bytes start
          crlfScanPos := s.parser.bufferSize } →
        p.headerEndPos ≠ 0 → p.HeadAhead := by
      intro start hstart p hp hne
      have hterm : p.headerEndPos = findHeaderTerminator s.parser.bytes start := by
        rw [hp]
      rw [hterm] at hne
      obtain ⟨hlow, -, hat⟩ := findHeaderTerminator_spec hne
      have hbytes : p.bytes = s.parser.bytes := by
        rw [hp]
        rfl
      have hpos : p.parsePos = s.parser.parsePos := by
        rw [hp]
      refine HeadAhead.of_terminator ?_ ?_ ?_ ?_
      · unfold Aligned
        rw [hbytes, hpos]
        exact haligned
      · -- everything parsed had been scanned
        rw [hterm, hpos]
        split at hstart <;> omega
      · omega
      · rw [hbytes, hterm]
        exact hat
    unfold Parser.scanHeaderEnd at hsafe ⊢
    rw [if_pos hzero] at hsafe ⊢
    have hahead := hfound _ rfl _ rfl
    refine ⟨⟨hsafe, h.head, h.aligned, fun _ _ => h.safe.parsePos,
      fun _ hne => .inr (hahead hne), ?_, h.kept⟩, ?_⟩
    · intro hlooping
      rw [show s.looping = true from hlooping] at hidle
      cases hidle
    · by_cases hnone : findHeaderTerminator s.parser.bytes
          (if s.parser.crlfScanPos > 3 then s.parser.crlfScanPos - 3 else 0) = 0
      · exact .inl ⟨hnone, rfl⟩
      · exact .inr (hahead hnone)
  · have hsame : s.parser.scanHeaderEnd = s.parser := by
      unfold Parser.scanHeaderEnd
      rw [if_neg hzero]
    rw [hsame]
    refine ⟨h, .inr ?_⟩
    rcases h.ahead hsection hzero with hstale | hahead
    · exact absurd (hfresh hzero) (by omega)
    · exact hahead

theorem HeadInvariant.validated (h : s.HeadInvariant) {limit : ℕ}
    (hsafe : ({ s.parser with validatedBytes := limit } : Parser).Safe) :
    HeadInvariant { s with parser := { s.parser with validatedBytes := limit } } :=
  ⟨hsafe, h.head, h.aligned, h.scanned, h.ahead, h.limit, h.kept⟩

theorem HeadInvariant.enter (h : s.HeadInvariant) (hidle : s.looping = false)
    (hfresh : s.parser.inHeaderSection = true → s.parser.headerEndPos ≠ 0 →
      s.parser.parsePos < s.parser.headerEndPos) :
    HeadInvariant (s.enter s.parser) := by
  cases hsection : s.parser.inHeaderSection with
  | false =>
      have hkept := h.kept hsection
      unfold Session.enter
      rw [checkInput_outside hsection]
      cases s.parser.exceedsSizeLimit with
      | true => exact h
      | false => exact .outside h.safe hsection hkept
  | true =>
      obtain ⟨hscan, hahead⟩ := h.scanHeaderEnd hidle hsection (hfresh hsection)
      have hsafe := checkInput_safe h.safe
      rw [checkInput_header hsection] at hsafe
      unfold Session.enter
      rw [checkInput_header hsection]
      have hstate := scanHeaderEnd_state s.parser
      generalize s.parser.scanHeaderEnd = p at hscan hahead hsafe hstate
      cases hinvalid : p.headerInvalid with
      | true => exact hscan
      | false =>
          rw [hinvalid, if_neg Bool.false_ne_true] at hsafe
          cases hexceeds : p.exceedsSizeLimit with
          | true =>
              rw [hexceeds] at hsafe
              exact hscan.validated hsafe
          | false =>
              rw [hexceeds] at hsafe
              have hchecked := hscan.validated hsafe
              refine ⟨hsafe, hchecked.head, hchecked.aligned, hchecked.scanned,
                hchecked.ahead, fun _ _ => ?_, hchecked.kept⟩
              have hbody : p.state ≠ .body ∧ p.state ≠ .chunkData := by
                simp only [inHeaderSection, ← hstate, Bool.or_eq_true,
                  decide_eq_true_eq] at hsection
                rcases hsection with h | h
                · rw [h]
                  exact ⟨nofun, nofun⟩
                · rw [h]
                  exact ⟨nofun, nofun⟩
              simp only [exceedsSizeLimit, hbody.1, hbody.2, ne_eq, not_false_eq_true,
                decide_true, Bool.and_self, if_true, Bool.or_eq_false_iff,
                Bool.and_eq_false_iff, decide_eq_false_iff_not, not_lt, not_not] at hexceeds
              rcases hahead with ⟨hzero, hscanned⟩ | hahead
              · refine .inl ⟨hzero, hscanned, ?_⟩
                exact hexceeds.1.resolve_left (not_not.mpr hzero)
              · refine .inr ⟨?_, hahead⟩
                rcases hexceeds.2 with hzero | hle
                · exact hzero.trans_le (Nat.zero_le _)
                · exact hle

/-- One line of the header section has been consumed and the parser is still in
it. -/
theorem HeadInvariant.line (h : s.HeadInvariant) (hlooping : s.looping = true)
    (hsection : s.parser.inHeaderSection = true) {q : Parser} (hsafe : q.Safe)
    (hinput : s.parser.SameInput { q with state := s.parser.state }) {length : ℕ}
    (hfind : findCrlf s.parser.unparsed = some length)
    (hpos : q.parsePos = s.parser.parsePos + length + 2)
    (hhead : q.state = .headers → s.countHead q ≤ q.parsePos)
    (hstay : q.inHeaderSection = true) (looping : Bool)
    (hnonempty : looping = true → length ≠ 0) :
    HeadInvariant ⟨q, looping, s.countHead q⟩ := by
  have hbytes : q.bytes = s.parser.bytes := hinput.bytes
  have hend : q.headerEndPos = s.parser.headerEndPos := hinput.headerEndPos
  have hscan : q.crlfScanPos = s.parser.crlfScanPos := hinput.crlfScanPos
  have hsize : q.bufferSize = s.parser.bufferSize := hinput.bufferSize
  have hinside := hsafe.parsePos
  have hlimit := h.limit hlooping hsection
  refine ⟨hsafe, hhead, fun _ => .line hfind hbytes hpos, ?_, ?_, ?_, ?_⟩
  · intro _ hzero
    dsimp only at hzero ⊢
    rcases hlimit with ⟨-, hall, -⟩ | ⟨-, _, _, -, -, hsum⟩
    · omega
    · omega
  · intro _ hne
    dsimp only at hne ⊢
    rcases hlimit with ⟨hzero, -⟩ | ⟨-, hahead⟩
    · exact absurd (hend.trans hzero) hne
    · rcases hahead.line hfind hbytes hend hpos with ⟨-, hat⟩ | hahead'
      · exact .inl hat.ge
      · exact .inr hahead'
  · intro hgo _
    rcases hlimit with ⟨hzero, hall, hle⟩ | ⟨hle, hahead⟩
    · exact .inl ⟨hend.trans hzero, by rw [hscan, hsize, hall], by rw [hsize]; exact hle⟩
    · rcases hahead.line hfind hbytes hend hpos with ⟨hzero, -⟩ | hahead'
      · exact absurd hzero (hnonempty hgo)
      · exact .inr ⟨hend.trans_le hle, hahead'⟩
  · intro hleft
    rw [show q.inHeaderSection = false from hleft] at hstay
    cases hstay

theorem countHead_le (h : s.HeadInvariant) (hsection : s.parser.inHeaderSection = true)
    {q : Parser} (hforward : s.parser.parsePos ≤ q.parsePos) : s.countHead q ≤ q.parsePos := by
  simp only [inHeaderSection, Bool.or_eq_true, decide_eq_true_eq] at hsection
  unfold countHead
  rcases hsection with hstate | hstate
  · rw [hstate]
    exact Nat.sub_le _ _
  · have hle := h.head hstate
    rw [hstate]
    dsimp only
    omega

theorem countHead_outside (houtside : s.parser.inHeaderSection = false) (q : Parser) :
    s.countHead q = s.headBytes := by
  unfold countHead
  cases hstate : s.parser.state <;> simp [inHeaderSection, hstate] at houtside ⊢

theorem HeadInvariant.pass_again (h : s.HeadInvariant) (hlooping : s.looping = true)
    {next : Parser} (hpass : s.parser.parsePass = .again next) :
    HeadInvariant { s with parser := next, headBytes := s.countHead next } := by
  have hsafe := parsePass_again_safe h.safe hpass
  obtain ⟨hstate, q, state, hnext, rfl, hmoved⟩ := (parsePass_again_iff).mp hpass
  have hadv := nextState_advances s.parser
  rw [hnext] at hadv
  cases hsection : s.parser.inHeaderSection with
  | false =>
      have hout := nextState_outside hsection (congrArg Prod.snd hnext)
      have hkept := h.kept hsection
      refine .outside hsafe ?_ ?_
      · simp [inHeaderSection, hout.1, hout.2]
      · dsimp only
        rw [countHead_outside hsection]
        exact hkept
  | true =>
      have hle := countHead_le h hsection (q := { q with state }) hadv.forward
      rcases nextState_line hsection with
        ⟨-, heq⟩ | heq | ⟨length, hfind, hpos, hresult⟩
      · rw [hnext] at heq
        cases heq
        rcases hmoved with hne | hcomplete
        · exact absurd rfl hne
        · exact absurd hcomplete hstate
      · rw [hnext] at heq
        cases heq
      · rw [hnext] at hpos hresult
        obtain ⟨hrequest, hcases⟩ := hresult state rfl
        have hinput : s.parser.SameInput { q with state := s.parser.state } :=
          ⟨rfl, hadv.input.buffer, hadv.input.bufferSize, hadv.input.bufferCapacity,
            hadv.input.validatedBytes, hadv.input.headerEndPos, hadv.input.crlfScanPos⟩
        rcases hcases with ⟨hheaders, hne⟩ | ⟨hzero, hleft⟩
        · have hstay : ({ q with state } : Parser).inHeaderSection = true := by
            simp [inHeaderSection, hheaders]
          have hline := h.line hlooping hsection (q := { q with state }) hsafe hinput hfind hpos
            (fun _ => hle) hstay true (fun _ => hne)
          rw [← hlooping] at hline
          exact hline
        · -- the empty line: everything up to `header_end_pos_` has been consumed
          refine .outside hsafe ?_ ?_
          · simp [inHeaderSection, hleft]
          dsimp only at hle hpos ⊢
          refine hle.trans ?_
          rcases h.limit hlooping hsection with ⟨-, -, hsmall⟩ | ⟨hsmall, hahead⟩
          · exact (hadv.inside h.safe.parsePos).trans hsmall
          · rcases hahead.line (q := { q with state := s.parser.state }) hfind hinput.bytes
              hinput.headerEndPos hpos with ⟨-, hat⟩ | ⟨_, _, -, -, hsum⟩
            · have hend : q.headerEndPos = s.parser.headerEndPos := hinput.headerEndPos
              dsimp only at hat
              omega
            · have hend : q.headerEndPos = s.parser.headerEndPos := hinput.headerEndPos
              dsimp only at hsum
              omega

theorem HeadInvariant.pass_error (h : s.HeadInvariant) (hlooping : s.looping = true)
    {q : Parser} {e : ErrorCode} (hpass : s.parser.parsePass = .done (q, .error e)) :
    HeadInvariant { parser := q, looping := false, headBytes := s.countHead q } := by
  rcases parsePass_done_cases hpass with
    ⟨-, heq⟩ | ⟨-, q', e', hnext, heq⟩ | ⟨-, q', state, -, -, -, heq⟩
  · cases heq
  · cases heq
    have hadv := nextState_advances s.parser
    have hsafe := nextState_safe h.safe
    rw [hnext] at hadv hsafe
    have hstate : q.state = s.parser.state := hadv.input.state
    have hsame : q.inHeaderSection = s.parser.inHeaderSection := by
      simp only [inHeaderSection, hstate]
    cases hsection : s.parser.inHeaderSection with
    | false =>
        have hkept := h.kept hsection
        refine .outside hsafe (hsame.trans hsection) ?_
        dsimp only
        rw [countHead_outside hsection]
        exact hkept
    | true =>
        have hle := countHead_le h hsection hadv.forward
        rcases nextState_line hsection with
          ⟨-, heq⟩ | heq | ⟨length, hfind, hpos, -⟩
        · rw [hnext] at heq
          cases heq
        · rw [hnext] at heq
          cases heq
          refine ⟨h.safe, fun _ => hle, h.aligned, h.scanned, h.ahead, nofun, ?_⟩
          intro hleft
          rw [show s.parser.inHeaderSection = false from hleft] at hsection
          cases hsection
        · rw [hnext] at hpos
          have hinput : s.parser.SameInput { q with state := s.parser.state } :=
            ⟨rfl, hadv.input.buffer, hadv.input.bufferSize, hadv.input.bufferCapacity,
              hadv.input.validatedBytes, hadv.input.headerEndPos, hadv.input.crlfScanPos⟩
          exact h.line hlooping hsection hsafe hinput hfind hpos (fun _ => hle)
            (hsame.trans hsection) false nofun
  · cases heq

theorem HeadInvariant.pass_done (h : s.HeadInvariant) (hkeeps : s.Keeps .pass)
    {q : Parser} {state : ParserState} (hpass : s.parser.parsePass = .done (q, .ok state)) :
    HeadInvariant { s with parser := q, looping := false } := by
  rcases parsePass_done_cases hpass with
    ⟨-, heq⟩ | ⟨-, q', e', -, heq⟩ | ⟨hstate, q', state', hnext, hpos, hne, heq⟩
  · cases heq
    exact h.stop
  · cases heq
  cases heq
  have hsafe := nextState_safe h.safe
  rw [hnext] at hsafe
  cases hsection : s.parser.inHeaderSection with
  | false =>
      have hout := nextState_outside hsection (congrArg Prod.snd hnext)
      have hkept := h.kept hsection
      have houtside : ({ q' with state } : Parser).inHeaderSection = false := by
        simp [inHeaderSection, hout.1, hout.2]
      refine .outside (stall_safe hsafe) ?_ hkept
      dsimp only [settled] at hsafe
      have hsame : (stall { q' with state }).state = state := by
        unfold stall
        split
        · unfold compactBuffer
          split
          · rfl
          split <;> rfl
        · rfl
      simp [inHeaderSection, hsame, hout.1, hout.2]
  | true =>
      rcases nextState_line hsection with
        ⟨hwait, heq⟩ | heq | ⟨length, hfind, hpos', -⟩
      · rw [hnext] at heq
        cases heq
        by_cases hheaders : s.parser.state = .headers
        · rw [stall_eq (hkeeps hheaders hwait)]
          exact h.stop
        · unfold stall
          split
          · exact h.stop.compacted rfl hheaders
          · exact h.stop
      · rw [hnext] at heq
        cases heq
      · rw [hnext] at hpos'
        dsimp only at hpos'
        omega

theorem HeadInvariant.step (h : s.HeadInvariant) {label : SessionLabel}
    (hkeeps : s.Keeps label) {next : Session} (hstep : s.step label = some next) :
    next.HeadInvariant := by
  cases label with
  | writableInputSpan desiredSize =>
      simp only [Session.step] at hstep
      split at hstep
      · cases hstep
      next hidle =>
        cases hstep
        exact h.writableInputSpan (by simpa using hidle) hkeeps
  | commitInput data =>
      simp only [Session.step] at hstep
      split at hstep
      · cases hstep
      next hidle =>
      have hidle' : s.looping = false := by simpa using hidle
      split at hstep
      · cases hstep
        exact h
      split at hstep
      · cases hstep
        exact h
      next hroom =>
        cases hstep
        exact (h.writeInput hidle' (Nat.le_of_not_lt hroom)).enter hidle' hkeeps
  | parseAvailable =>
      simp only [Session.step] at hstep
      split at hstep
      · cases hstep
      next hidle =>
        cases hstep
        exact h.enter (by simpa using hidle) hkeeps
  | pass =>
      simp only [Session.step] at hstep
      split at hstep
      · cases hstep
      next hlooping =>
      have hlooping' : s.looping = true := by simpa using hlooping
      split at hstep
      next next' hpass =>
        cases hstep
        exact h.pass_again hlooping' hpass
      next q e hpass =>
        cases hstep
        exact h.pass_error hlooping' hpass
      next q state hpass =>
        cases hstep
        exact h.pass_done hkeeps hpass
  | prepareForNextRequest =>
      simp only [Session.step] at hstep
      split at hstep
      · cases hstep
      next hidle =>
        cases hstep
        refine ⟨prepareForNextRequest_safe h.safe, fun _ => Nat.zero_le _, fun _ => .inl rfl,
          fun _ _ => Nat.zero_le _, fun _ hne => absurd rfl hne, nofun, nofun⟩

end Steps

/-- In a run that drops no bytes of an unfinished header section and parses none
with a stale `header_end_pos_`, every head that is accepted is within the
limit. -/
theorem exec_limitKept (labels : List SessionLabel) (final : Session)
    (hkeeps : Along step Keeps {} labels) (hexec : exec step {} labels = some final) :
    final.LimitKept :=
  (exec_invariant_along (fun _ _ _ (h : HeadInvariant _) hcond hstep => h.step hcond hstep)
    headInvariant_initial hkeeps hexec).kept

/-- A head that arrives in two pieces. -/
theorem exec_limitKept_pieces :
    ∃ final,
      exec step {} [.commitInput (bytesOf "GET / HTTP/1.1\r\nHo"), .pass, .pass,
        .commitInput (bytesOf "st: a\r\n\r\n"), .pass, .pass, .pass] = some final ∧
      final.parser.state = .complete ∧ final.LimitKept := by
  have hrun : (exec step {} [.commitInput (bytesOf "GET / HTTP/1.1\r\nHo"), .pass, .pass,
      .commitInput (bytesOf "st: a\r\n\r\n"), .pass, .pass, .pass]).any
        (fun final => final.parser.state = .complete) = true := by
    decide +kernel
  obtain ⟨final, hexec, hcomplete⟩ := (Option.any_eq_true _ _).mp hrun
  exact ⟨final, hexec, by simpa using hcomplete, exec_limitKept _ _ (by decide +kernel) hexec⟩

/-- A request line, then four Host lines of 2100 bytes, one in each piece.  Each
piece is consumed before the next one arrives, and then the whole buffer is
dropped. -/
def longHeadLabels : List SessionLabel :=
  let hostLine := bytesOf "Host:" ++ List.replicate 2100 97 ++ CRLF
  [.writableInputSpan 4096, .commitInput (bytesOf "GET / HTTP/1.1\r\n"), .pass, .pass,
    .writableInputSpan 4096, .commitInput hostLine, .pass, .pass,
    .writableInputSpan 4096, .commitInput hostLine, .pass, .pass,
    .writableInputSpan 4096, .commitInput hostLine, .pass, .pass,
    .writableInputSpan 4096, .commitInput (hostLine ++ CRLF), .pass, .pass, .pass]

/-- A head above the limit is accepted. -/
theorem exec_longHead :
    ∃ final, exec step {} longHeadLabels = some final ∧ final.parser.state = .complete ∧
      MAX_HEADER_SIZE < final.headBytes ∧ ¬ final.LimitKept := by
  have hrun : (exec step {} longHeadLabels).any (fun final =>
      final.parser.state = .complete ∧ MAX_HEADER_SIZE < final.headBytes) = true := by
    decide +kernel
  obtain ⟨final, hexec, hfinal⟩ := (Option.any_eq_true _ _).mp hrun
  simp only [decide_eq_true_eq] at hfinal
  refine ⟨final, hexec, hfinal.1, hfinal.2, ?_⟩
  intro hkept
  have hle := hkept (by simp [inHeaderSection, hfinal.1])
  omega

end Session

end Http
end Katana
