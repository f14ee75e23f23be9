import Katana.Http.ParserSteps

/-!
# More input in the buffer

Two parsers that differ only in how much of the input has arrived do the same
thing as long as the one with less input does not have to wait.  This is what
lets the parser be fed in pieces: a step that consumes bytes consumes the same
bytes, with the same effect, however many follow them.  It rests on the views of
the request lying in front of `parse_pos_`, where the two buffers agree.
-/

namespace Katana
namespace Http

open Library

namespace Parser

/-- `p` with the buffer and the scan cursors of `q`. -/
def onInput (p q : Parser) : Parser :=
  { p with
    buffer := q.buffer, bufferSize := q.bufferSize, bufferCapacity := q.bufferCapacity
    validatedBytes := q.validatedBytes, headerEndPos := q.headerEndPos
    crlfScanPos := q.crlfScanPos }

/-- The views held by the parser lie in the first `bound` bytes. -/
structure Views (bound : ℕ) (p : Parser) : Prop where
  uri : p.request.uri.Within bound
  headers : p.request.headers.Within bound
  body : p.request.body.Within bound
  lastHeaderName : p.lastHeaderName.Within bound

theorem Views.mono {bound bound' : ℕ} {p : Parser} (h : p.Views bound) (hle : bound ≤ bound') :
    p.Views bound' :=
  ⟨h.uri.mono hle, h.headers.mono hle, h.body.mono hle, h.lastHeaderName.mono hle⟩

/-- `q` is `p` with more input in its buffer. -/
structure Extends (p q : Parser) : Prop where
  same : q = p.onInput q
  grows : p.bytes <+: q.bytes
  written : p.bufferSize ≤ p.buffer.length
  inside : p.parsePos ≤ p.bufferSize
  views : p.Views p.parsePos

section Lines

variable {p q : Parser} {bound : ℕ}

theorem processRequestLine_onInput (start : ℕ) (line : List Byte) (p q : Parser) :
    (p.onInput q).processRequestLine start line =
      ((p.processRequestLine start line).1.onInput q,
        (p.processRequestLine start line).2) := by
  unfold processRequestLine
  split
  · rfl
  split
  · rfl
  dsimp only
  split
  · rfl
  split
  · rfl
  split
  · rfl
  split
  · rfl
  split
  · rfl
  · rfl

theorem findByte_lt {c : Byte} {bytes : List Byte} {i : ℕ} (h : findByte c bytes = some i) :
    i < bytes.length := by
  rw [findByte, List.findIdx?_eq_some_iff_getElem] at h
  exact h.1

theorem processRequestLine_views {start : ℕ} {line : List Byte} (h : p.Views bound)
    (hline : start + line.length ≤ bound) : (p.processRequestLine start line).1.Views bound := by
  unfold processRequestLine
  split
  · exact h
  split
  · exact h
  next methodEnd _ =>
  dsimp only
  split
  · exact ⟨h.uri, h.headers, h.body, h.lastHeaderName⟩
  split
  · exact ⟨h.uri, h.headers, h.body, h.lastHeaderName⟩
  next uriLength huri =>
  have huriEnd := findByte_lt huri
  rw [List.length_drop] at huriEnd
  have hview : (View.buffer (start + (methodEnd + 1)) uriLength).Within bound := by
    show start + (methodEnd + 1) + uriLength ≤ bound
    omega
  split
  · exact ⟨h.uri, h.headers, h.body, h.lastHeaderName⟩
  split
  · exact ⟨h.uri, h.headers, h.body, h.lastHeaderName⟩
  split
  · exact ⟨hview, h.headers, h.body, h.lastHeaderName⟩
  · exact ⟨hview, h.headers, h.body, h.lastHeaderName⟩

theorem useRequestLine_onInput (start : ℕ) (line : List Byte) (p q : Parser) :
    (p.onInput q).useRequestLine start line =
      ((p.useRequestLine start line).1.onInput q, (p.useRequestLine start line).2) := by
  unfold useRequestLine
  rw [processRequestLine_onInput]
  rcases p.processRequestLine start line with ⟨p', e | _⟩
  · rfl
  · rfl

theorem useRequestLine_views {start : ℕ} {line : List Byte} (h : p.Views bound)
    (hline : start + line.length ≤ bound) : (p.useRequestLine start line).1.Views bound := by
  have hviews := processRequestLine_views h hline
  unfold useRequestLine
  generalize p.processRequestLine start line = r at hviews
  rcases r with ⟨p', e | _⟩
  · exact hviews
  · exact hviews

theorem trimOws_length_le (value : List Byte) :
    (value.takeWhile isOws).length + (trimOws value).length ≤ value.length := by
  have hsplit := congrArg List.length (List.takeWhile_append_dropWhile (p := isOws) (l := value))
  have htrim := (List.rdropWhile_prefix isOws (l := value.dropWhile isOws)).length_le
  rw [List.length_append] at hsplit
  unfold trimOws
  omega

/-- The views of a header line lie in the line. -/
theorem headerLine_within {start colon : ℕ} {line : List Byte}
    (hcolon : findByte 58 line = some colon) (hline : start + line.length ≤ bound) :
    (View.buffer start colon).Within bound ∧
      (View.buffer (start + (headerValueRange line colon).1)
        (headerValueRange line colon).2).Within bound := by
  have hlt := findByte_lt hcolon
  have htrim := trimOws_length_le (line.drop (colon + 1))
  rw [List.length_drop] at htrim
  refine ⟨?_, ?_⟩
  · show start + colon ≤ bound
    omega
  · show start + (colon + 1 + _) + _ ≤ bound
    dsimp only [headerValueRange]
    omega

theorem noteContentLength_onInput (value : List Byte) (p q : Parser) :
    (p.onInput q).noteContentLength value = (p.noteContentLength value).onInput q := by
  unfold noteContentLength
  split
  · rfl
  · rfl

theorem Views.storeKnown (h : p.Views bound) (f : Field) {value : View}
    (hvalue : value.Within bound) : (p.storeKnown f value).Views bound :=
  ⟨h.uri, h.headers.setKnownBorrowed f hvalue, h.body, h.lastHeaderName⟩

theorem Views.storeUnknown (h : p.Views bound) {name value : View}
    (hname : name.Within bound) (hvalue : value.Within bound) :
    (p.storeUnknown name value).Views bound :=
  ⟨h.uri, h.headers.setUnknownBorrowed p.buffer hname hvalue, h.body, hname⟩

theorem Views.countHeader (h : p.Views bound) : p.countHeader.Views bound :=
  ⟨h.uri, h.headers, h.body, h.lastHeaderName⟩

theorem Views.forgetLastHeader (h : p.Views bound) :
    ({ p with lastHeaderField := .unknown, lastHeaderName := .null } : Parser).Views bound :=
  ⟨h.uri, h.headers, h.body, trivial⟩

theorem Views.noteContentLength (h : p.Views bound) (value : List Byte) :
    (p.noteContentLength value).Views bound := by
  obtain ⟨length, hlength⟩ := noteContentLength_eq value p
  rw [hlength]
  exact ⟨h.uri, h.headers, h.body, h.lastHeaderName⟩

theorem processHeaderLine_onInput {start : ℕ} {line : List Byte} (h : p.Views bound)
    (hagree : p.buffer.take bound = q.buffer.take bound)
    (hline : start + line.length ≤ bound) :
    (p.onInput q).processHeaderLine start line =
      ((p.processHeaderLine start line).1.onInput q,
        (p.processHeaderLine start line).2) := by
  unfold processHeaderLine
  split
  · next hcount => rw [if_pos (show p.headerCount ≥ MAX_HEADER_COUNT from hcount)]
                   rfl
  next hcount =>
  rw [if_neg (show ¬ p.headerCount ≥ MAX_HEADER_COUNT from hcount)]
  split
  · rfl
  next colon hcolon =>
  dsimp only
  split
  · rfl
  split
  · rfl
  split
  · rfl
  split
  · rfl
  split
  · exact Prod.ext (congrArg countHeader (noteContentLength_onInput _
      (({ p with lastHeaderField := .unknown, lastHeaderName := .null } : Parser).storeKnown
        .contentLength _) q)) rfl
  split
  · rfl
  · have hname := (headerLine_within hcolon hline).1
    have hheaders := h.headers.setUnknownBorrowed_eq hagree hname
      (.buffer (start + (headerValueRange line colon).1) (headerValueRange line colon).2)
    unfold storeUnknown countHeader onInput
    dsimp only
    rw [hheaders]

theorem processHeaderLine_views {start : ℕ} {line : List Byte} (h : p.Views bound)
    (hline : start + line.length ≤ bound) : (p.processHeaderLine start line).1.Views bound := by
  unfold processHeaderLine
  split
  · exact h
  split
  · exact h
  next colon hcolon =>
  obtain ⟨hname, hvalue⟩ := headerLine_within hcolon hline
  dsimp only
  split
  · exact h
  split
  · exact h
  split
  · exact h
  split
  · exact (h.forgetLastHeader.storeKnown _ hvalue).countHeader
  split
  · exact ((h.forgetLastHeader.storeKnown _ hvalue).noteContentLength _).countHeader
  split
  · exact (h.forgetLastHeader.storeKnown _ hvalue).countHeader
  · exact (h.forgetLastHeader.storeUnknown hname hvalue).countHeader

theorem endHeaders_onInput (h : p.Views bound)
    (hagree : p.buffer.take bound = q.buffer.take bound) :
    (p.onInput q).endHeaders = (p.endHeaders.1.onInput q, p.endHeaders.2) := by
  have hread : ∀ f, (p.request.headers.getField f).map (·.read q.buffer) =
      (p.request.headers.getField f).map (·.read p.buffer) := by
    intro f
    cases hfound : p.request.headers.getField f with
    | none => rfl
    | some value =>
        rw [Option.map_some, Option.map_some, (h.headers.getField hfound).read_eq hagree]
  have hte : (((p.onInput q).request.headers.getField .transferEncoding).map
      (·.read (p.onInput q).buffer)) =
      (p.request.headers.getField .transferEncoding).map (·.read p.buffer) :=
    hread .transferEncoding
  unfold endHeaders
  rw [hte]
  dsimp only
  split
  · rfl
  have hcl := hread .contentLength
  have hsame : (p.onInput q).request.headers.getField .contentLength =
      p.request.headers.getField .contentLength := rfl
  rw [hsame]
  cases hfound : p.request.headers.getField .contentLength with
  | none => rfl
  | some value =>
      rw [hfound] at hcl
      simp only [Option.map_some, Option.some.injEq] at hcl
      have hvalue : value.read (p.onInput q).buffer = value.read p.buffer := hcl
      dsimp only
      rw [hvalue]
      split
      · split
        · rfl
        · rfl
      · rfl

theorem endHeaders_views (h : p.Views bound) : p.endHeaders.1.Views bound := by
  unfold endHeaders
  dsimp only
  split
  · exact ⟨h.uri, h.headers, h.body, h.lastHeaderName⟩
  split
  · exact h
  split
  · split
    · exact h
    · exact ⟨h.uri, h.headers, h.body, h.lastHeaderName⟩
  · exact h

theorem lastHeaderValue_onInput (h : p.Views bound)
    (hagree : p.buffer.take bound = q.buffer.take bound) :
    (p.onInput q).lastHeaderValue = p.lastHeaderValue := by
  have hname := h.lastHeaderName.read_eq hagree
  have hget := h.headers.get_eq hagree (p.lastHeaderName.read p.buffer)
  show (if p.lastHeaderField ≠ .unknown then p.request.headers.getField p.lastHeaderField
    else p.request.headers.get q.buffer (p.lastHeaderName.read q.buffer)) = _
  rw [← hname, ← hget]
  rfl

theorem lastHeaderValue_within (h : p.Views bound) {value : View}
    (hvalue : p.lastHeaderValue = some value) : value.Within bound := by
  unfold lastHeaderValue at hvalue
  split at hvalue
  · exact h.headers.getField hvalue
  · exact h.headers.get hvalue

theorem setLastHeader_onInput (value : View) (h : p.Views bound)
    (hagree : p.buffer.take bound = q.buffer.take bound) :
    (p.onInput q).setLastHeader value = (p.setLastHeader value).onInput q := by
  have hstore := h.headers.setUnknownBorrowed_eq hagree h.lastHeaderName value
  unfold setLastHeader
  rw [hstore]
  rfl

theorem setLastHeader_views {value : View} (h : p.Views bound) (hvalue : value.Within bound) :
    (p.setLastHeader value).Views bound := by
  refine ⟨h.uri, ?_, h.body, h.lastHeaderName⟩
  unfold setLastHeader
  dsimp only
  split
  · exact h.headers.setKnownBorrowed _ hvalue
  · exact h.headers.setUnknownBorrowed _ h.lastHeaderName hvalue

theorem foldHeader_onInput (line : List Byte) (h : p.Views bound)
    (hagree : p.buffer.take bound = q.buffer.take bound) :
    (p.onInput q).foldHeader line = ((p.foldHeader line).1.onInput q, (p.foldHeader line).2) := by
  unfold foldHeader
  rw [lastHeaderValue_onInput h hagree]
  split
  next hnull =>
    rw [if_pos (show p.lastHeaderName.isNull = true from hnull)]
    rfl
  next hnull =>
  rw [if_neg (show ¬ p.lastHeaderName.isNull = true from hnull)]
  cases hcurrent : p.lastHeaderValue with
  | none => rfl
  | some current =>
      have hread : current.read (p.onInput q).buffer = current.read p.buffer :=
        ((lastHeaderValue_within h hcurrent).read_eq hagree).symm
      dsimp only
      split
      · rfl
      · rw [hread, setLastHeader_onInput _ h hagree]

theorem foldHeader_views (line : List Byte) (h : p.Views bound) :
    (p.foldHeader line).1.Views bound := by
  unfold foldHeader
  split
  · exact h
  split
  · exact h
  dsimp only
  split
  · exact h
  · exact setLastHeader_views h trivial

theorem useHeaderLine_onInput {start : ℕ} {line : List Byte} (h : p.Views bound)
    (hagree : p.buffer.take bound = q.buffer.take bound)
    (hline : start + line.length ≤ bound) :
    (p.onInput q).useHeaderLine start line =
      ((p.useHeaderLine start line).1.onInput q, (p.useHeaderLine start line).2) := by
  unfold useHeaderLine
  split
  · exact endHeaders_onInput h hagree
  split
  · exact foldHeader_onInput line h hagree
  rw [processHeaderLine_onInput h hagree hline]
  rcases p.processHeaderLine start line with ⟨p', e | _⟩
  · rfl
  · rfl

theorem useHeaderLine_views {start : ℕ} {line : List Byte} (h : p.Views bound)
    (hline : start + line.length ≤ bound) : (p.useHeaderLine start line).1.Views bound := by
  unfold useHeaderLine
  split
  · exact endHeaders_views h
  split
  · exact foldHeader_views line h
  have hviews := processHeaderLine_views h hline
  generalize p.processHeaderLine start line = r at hviews
  rcases r with ⟨p', e | _⟩
  · exact hviews
  · exact hviews

theorem useChunkSizeLine_onInput (start : ℕ) (line : List Byte) (p q : Parser) :
    (p.onInput q).useChunkSizeLine start line =
      ((p.useChunkSizeLine start line).1.onInput q, (p.useChunkSizeLine start line).2) := by
  unfold useChunkSizeLine
  split
  · split
    · rfl
    dsimp only
    split
    · rfl
    show (if (_ || p.chunkedBodySize > _) = true then _ else _) = _
    split
    · rfl
    · rfl
  · rfl

theorem useChunkSizeLine_views (start : ℕ) (line : List Byte) (h : p.Views bound) :
    (p.useChunkSizeLine start line).1.Views bound := by
  have hviews : ∀ size : ℕ, ({ p with currentChunkSize := size } : Parser).Views bound :=
    fun _ => ⟨h.uri, h.headers, h.body, h.lastHeaderName⟩
  unfold useChunkSizeLine
  split
  · split
    · exact h
    dsimp only
    split
    · exact hviews _
    split
    · exact hviews _
    · exact hviews _
  · exact h

theorem useTrailerLine_views (start : ℕ) (line : List Byte) (h : p.Views bound) :
    (p.useTrailerLine start line).1.Views bound := by
  refine ⟨h.uri, h.headers, ?_, h.lastHeaderName⟩
  show p.chunkedBodyView.Within bound
  unfold chunkedBodyView
  split
  · trivial
  · trivial

end Lines

/-! ## Steps -/

section Steps

variable {p q : Parser}

theorem Extends.agree (h : p.Extends q) {bound : ℕ} (hbound : bound ≤ p.bufferSize) :
    p.buffer.take bound = q.buffer.take bound := by
  obtain ⟨rest, hrest⟩ := h.grows
  have hlength := bytes_length h.written
  have hcut : p.buffer.take bound = p.bytes.take bound := by
    rw [bytes, List.take_take, Nat.min_eq_left hbound]
  have hsize : bound ≤ q.bufferSize := by
    have hle := congrArg List.length hrest
    rw [List.length_append, hlength, bytes, List.length_take] at hle
    omega
  have hcut' : q.buffer.take bound = q.bytes.take bound := by
    rw [bytes, List.take_take, Nat.min_eq_left hsize]
  rw [hcut, hcut', ← hrest, List.take_append_of_le_length (by omega)]

theorem Extends.parsePos (h : p.Extends q) : q.parsePos = p.parsePos := by
  rw [h.same]
  rfl

theorem Extends.state (h : p.Extends q) : q.state = p.state := by
  rw [h.same]
  rfl

theorem Extends.unparsed (h : p.Extends q) : p.unparsed <+: q.unparsed := by
  have hlength := bytes_length h.written
  obtain ⟨rest, hrest⟩ := h.grows
  have hinside := h.inside
  unfold Parser.unparsed
  rw [h.parsePos, ← hrest, List.drop_append_of_le_length (by omega)]
  exact List.prefix_append _ _

theorem Extends.unparsed_length (h : p.Extends q) :
    p.unparsed.length = p.bufferSize - p.parsePos := by
  unfold Parser.unparsed
  rw [List.length_drop, bytes_length h.written]

theorem Extends.bufferSize (h : p.Extends q) : p.bufferSize ≤ q.bufferSize := by
  have hle := h.grows.length_le
  rw [bytes_length h.written, bytes, List.length_take] at hle
  omega

theorem Extends.byteBefore (h : p.Extends q) : q.byteBefore p.parsePos = p.byteBefore p.parsePos := by
  have hinside := h.inside
  unfold Parser.byteBefore
  split
  · rfl
  · have hagree := congrArg (fun l => l[p.parsePos - 1]?) (h.agree h.inside)
    simpa [List.getElem?_take, show p.parsePos - 1 < p.parsePos by omega] using hagree.symm

/-- What a step of `p` says about the step of `q`: either `p` waits, or both do
the same and the views stay in front of `parse_pos_`. -/
def StepsAlike (p q : Parser) (r r' : Parsed ParserState) : Prop :=
  r = (p, .ok p.state) ∨ (r' = (r.1.onInput q, r.2) ∧ r.1.Views r.1.parsePos)

theorem withLine_alike {checked : Bool} {stay : ParserState}
    {use : ℕ → List Byte → Parser → Parsed ParserState} (h : p.Extends q)
    (hstay : p.state = stay) (hframe : ∀ start line (s : Parser), s.LineUse (use start line s))
    (huse : ∀ {start : ℕ} {line : List Byte} {s : Parser} {bound : ℕ}, s.Views bound →
      s.buffer.take bound = q.buffer.take bound → start + line.length ≤ bound →
      use start line (s.onInput q) = ((use start line s).1.onInput q, (use start line s).2))
    (hviews : ∀ {start : ℕ} {line : List Byte} {s : Parser} {bound : ℕ}, s.Views bound →
      start + line.length ≤ bound → (use start line s).1.Views bound) :
    StepsAlike p q (p.withLine checked stay use) (q.withLine checked stay use) := by
  have hlength := h.unparsed_length
  have hinside := h.inside
  obtain ⟨rest, hrest⟩ := h.unparsed
  rcases withLine_cases checked stay use p with
    ⟨-, heq⟩ | ⟨length, hfind, hcases⟩
  · rw [heq, ← hstay]
    exact .inl rfl
  right
  have hbound := findCrlf_bound hfind
  have hfind' : findCrlf q.unparsed = some length := by
    rw [← hrest]
    exact firstIndex_append hfind rest
  have htake : ∀ n ≤ length + 1, q.unparsed.take n = p.unparsed.take n := by
    intro n hn
    rw [← hrest, List.take_append_of_le_length (by omega)]
  rcases withLine_cases checked stay use q with
    ⟨hnone, -⟩ | ⟨length', hsome, hcases'⟩
  · rw [hfind'] at hnone
    cases hnone
  rw [hfind'] at hsome
  cases hsome
  rw [h.parsePos, h.byteBefore, htake _ le_rfl, htake _ (Nat.le_succ _)] at hcases'
  rcases hcases with ⟨hchecked, hbad, heq⟩ | ⟨hgood, heq⟩
  · rcases hcases' with ⟨-, -, heq'⟩ | ⟨hgood', -⟩
    · rw [heq, heq']
      refine ⟨?_, h.views⟩
      rw [fail, fail, ← h.same]
    · rw [hgood' hchecked] at hbad
      cases hbad
  · rcases hcases' with ⟨hchecked, hbad', -⟩ | ⟨-, heq'⟩
    · rw [hgood hchecked] at hbad'
      cases hbad'
    · rw [heq, heq']
      have hlinelen : (p.unparsed.take length).length ≤ length := List.length_take_le _ _
      have hend : p.parsePos + (p.unparsed.take length).length ≤ p.parsePos + length + 2 := by
        omega
      have hviews' : ({ p with parsePos := p.parsePos + length + 2 } : Parser).Views
          (p.parsePos + length + 2) :=
        ⟨h.views.uri.mono (by omega), h.views.headers.mono (by omega),
          h.views.body.mono (by omega), h.views.lastHeaderName.mono (by omega)⟩
      have hq : ({ q with parsePos := p.parsePos + length + 2 } : Parser) =
          ({ p with parsePos := p.parsePos + length + 2 } : Parser).onInput q := by
        conv_lhs => rw [h.same]
        rfl
      have hpos := (hframe p.parsePos (p.unparsed.take length)
        { p with parsePos := p.parsePos + length + 2 }).frame.parsePos
      refine ⟨?_, ?_⟩
      · rw [hq]
        exact huse hviews' (h.agree (by omega)) hend
      · rw [hpos]
        exact hviews hviews' hend

theorem parseBodyState_alike (h : p.Extends q) (hstate : p.state = .body) :
    StepsAlike p q p.parseBodyState q.parseBodyState := by
  have hsize := h.bufferSize
  by_cases hfits : p.bufferSize - p.parsePos ≥ p.contentLength
  · right
    have hlength : q.contentLength = p.contentLength := by
      rw [h.same]
      rfl
    have hfits' : q.bufferSize - q.parsePos ≥ q.contentLength := by
      rw [h.parsePos, hlength]
      omega
    unfold parseBodyState
    rw [if_pos hfits, if_pos hfits']
    refine ⟨?_, ?_⟩
    · conv_lhs => rw [h.same]
      rfl
    · exact ⟨h.views.uri.mono (Nat.le_add_right _ _), h.views.headers.mono (Nat.le_add_right _ _),
        le_rfl, h.views.lastHeaderName.mono (Nat.le_add_right _ _)⟩
  · left
    unfold parseBodyState
    rw [if_neg hfits, hstate]

theorem parseChunkDataState_alike (h : p.Extends q) (hstate : p.state = .chunkData) :
    StepsAlike p q p.parseChunkDataState q.parseChunkDataState := by
  have hsize := h.bufferSize
  have hlength := h.unparsed_length
  obtain ⟨rest, hrest⟩ := h.unparsed
  by_cases hfits : p.bufferSize - p.parsePos ≥ p.currentChunkSize + 2
  · right
    have hchunk : q.currentChunkSize = p.currentChunkSize := by
      rw [h.same]
      rfl
    have hfits' : q.bufferSize - q.parsePos ≥ q.currentChunkSize + 2 := by
      rw [h.parsePos, hchunk]
      omega
    have hend : (q.unparsed.drop q.currentChunkSize).take 2 =
        (p.unparsed.drop p.currentChunkSize).take 2 := by
      rw [hchunk, ← hrest, List.drop_append_of_le_length (by omega),
        List.take_append_of_le_length (by
          rw [List.length_drop]
          omega)]
    have hdata : q.unparsed.take q.currentChunkSize = p.unparsed.take p.currentChunkSize := by
      rw [hchunk, ← hrest, List.take_append_of_le_length (by omega)]
    unfold parseChunkDataState
    rw [if_pos hfits, if_pos hfits', hend]
    by_cases hcrlf : (p.unparsed.drop p.currentChunkSize).take 2 ≠ CRLF
    · rw [if_pos hcrlf, if_pos hcrlf]
      refine ⟨?_, h.views⟩
      rw [fail, fail, ← h.same]
    · rw [if_neg hcrlf, if_neg hcrlf]
      dsimp only
      rw [hdata]
      refine ⟨?_, ?_⟩
      · conv_lhs => rw [h.same]
        rfl
      · have hle : p.parsePos ≤ p.parsePos + p.currentChunkSize + 2 := by omega
        exact ⟨h.views.uri.mono hle, h.views.headers.mono hle, h.views.body.mono hle,
          h.views.lastHeaderName.mono hle⟩
  · left
    unfold parseChunkDataState
    rw [if_neg hfits, hstate]

theorem nextState_alike (h : p.Extends q) : StepsAlike p q p.nextState q.nextState := by
  unfold nextState
  rw [h.state]
  cases hstate : p.state with
  | requestLine =>
      exact withLine_alike h hstate useRequestLine_use
        (fun _ _ _ => useRequestLine_onInput _ _ _ q) useRequestLine_views
  | headers =>
      exact withLine_alike h hstate useHeaderLine_use useHeaderLine_onInput useHeaderLine_views
  | body => exact parseBodyState_alike h hstate
  | chunkSize =>
      exact withLine_alike h hstate useChunkSizeLine_use
        (fun _ _ _ => useChunkSizeLine_onInput _ _ _ q)
        (fun hviews _ => useChunkSizeLine_views _ _ hviews)
  | chunkData => exact parseChunkDataState_alike h hstate
  | chunkTrailer =>
      exact withLine_alike h hstate useTrailerLine_use (fun _ _ _ => rfl)
        (fun hviews _ => useTrailerLine_views _ _ hviews)
  | complete =>
      left
      rw [hstate]

/-! ## Passes -/

/-- A pass that goes round goes round alike with more input. -/
theorem Extends.parsePass_again (h : p.Extends q) {next : Parser}
    (hpass : p.parsePass = .again next) :
    ∃ next', q.parsePass = .again next' ∧ next.Extends next' := by
  obtain ⟨hstate, p', state, hnext, rfl, hmoved⟩ := (parsePass_again_iff).mp hpass
  have hadv := nextState_advances p
  rw [hnext] at hadv
  rcases nextState_alike h with hwait | ⟨hnext', hviews⟩
  · rw [hnext] at hwait
    cases hwait
    rcases hmoved with hne | hcomplete
    · exact absurd rfl hne
    · exact absurd hcomplete hstate
  rw [hnext] at hnext' hviews
  refine ⟨_, (parsePass_again_iff).mpr ⟨?_, p'.onInput q, state, hnext', rfl, ?_⟩, ?_⟩
  · rwa [h.state]
  · rw [h.parsePos]
    exact hmoved
  · have hinput := hadv.input
    have hbytes : p'.bytes = p.bytes := hinput.bytes
    have hsize : p'.bufferSize = p.bufferSize := hinput.bufferSize
    have hinside : p'.parsePos ≤ p.bufferSize := hadv.inside h.inside
    refine ⟨rfl, ?_, ?_, ?_, ?_⟩
    · show p'.bytes <+: q.bytes
      rw [hbytes]
      exact h.grows
    · show p'.bufferSize ≤ p'.buffer.length
      rw [hsize, show p'.buffer = p.buffer from hinput.buffer]
      exact h.written
    · show p'.parsePos ≤ p'.bufferSize
      rw [hsize]
      exact hinside
    · exact ⟨hviews.uri, hviews.headers, hviews.body, hviews.lastHeaderName⟩

/-- A pass that fails fails alike with more input. -/
theorem Extends.parsePass_error (h : p.Extends q) {p' : Parser} {e : ErrorCode}
    (hpass : p.parsePass = .done (p', .error e)) :
    q.parsePass = .done (p'.onInput q, .error e) := by
  rcases parsePass_done_cases hpass with
    ⟨-, heq⟩ | ⟨hstate, r, e', hnext, heq⟩ | ⟨-, r, state, -, -, -, heq⟩
  · cases heq
  · cases heq
    rcases nextState_alike h with hwait | ⟨hnext', -⟩
    · rw [hnext] at hwait
      cases hwait
    rw [hnext] at hnext'
    unfold parsePass
    rw [h.state, if_neg hstate, hnext']
  · cases heq

/-- Passes made on part of the input are made on the whole input. -/
theorem Extends.passes (h : p.Extends q) {last : Parser} (hpasses : Passes parsePass p last) :
    ∃ last', Passes parsePass q last' ∧ last.Extends last' :=
  hpasses.simulate (fun _ _ _ hext hpass => hext.parsePass_again hpass) h

end Steps

end Parser

end Http
end Katana
