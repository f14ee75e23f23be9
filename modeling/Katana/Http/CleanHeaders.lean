import Katana.Http.HeaderLimit
import Katana.Http.RequestLine

/-!
# What accepted headers contain

The bytes of a head are checked in several places: all of them when they arrive,
those of a line when it is taken, and name and value when a header is stored or
continued.  Together the checks keep control characters out of everything that is
stored.
-/

namespace Katana
namespace Http

open Library

/-- Not empty, and made of token characters. -/
def TokenName (name : List Byte) : Prop :=
  name ≠ [] ∧ ∀ c ∈ name, isTokenChar c = true

/-- No control character other than tab, and nothing above `~`. -/
def CleanValue (value : List Byte) : Prop :=
  ∀ c ∈ value, (c = HTAB ∨ 0x20 ≤ c) ∧ c ≤ 0x7e

theorem isInvalidHeaderChar_iff : ∀ c : Byte,
    isInvalidHeaderChar c = false ↔ (c = HTAB ∨ 0x20 ≤ c) ∧ c ≤ 0x7e := by
  intro c
  simp only [isInvalidHeaderChar, HTAB, Bool.or_eq_false_iff, Bool.and_eq_false_iff,
    decide_eq_false_iff_not, not_not, ne_eq, UInt8.le_iff_toNat_le, UInt8.lt_iff_toNat_lt,
    ← UInt8.toNat_inj]
  simp
  omega

theorem cleanValue_iff {value : List Byte} :
    CleanValue value ↔ containsInvalidHeaderValue value = false := by
  rw [headerText_iff]
  simp only [CleanValue, isInvalidHeaderChar_iff]

theorem View.read_truncate16_subset (memory : List Byte) (view : View) :
    view.truncate16.read memory ⊆ view.read memory := by
  cases view with
  | null => exact List.Subset.refl _
  | buffer offset length =>
      exact (List.take_prefix_take_left (Nat.mod_le length (2 ^ 16))).subset
  | owned bytes => exact List.take_subset _ _

theorem CleanValue.truncate16 {memory : List Byte} {value : View}
    (h : CleanValue (value.read memory)) : CleanValue (value.truncate16.read memory) :=
  fun c hc => h c (value.read_truncate16_subset memory hc)

namespace HeadersMap

/-- Every entry has a clean value and, unless it is vacant, a field or a token
for its name. -/
structure Clean (memory : List Byte) (m : HeadersMap) : Prop where
  known : ∀ entry ∈ m.known.slots, CleanValue (entry.value.read memory)
  unknown : ∀ entry ∈ m.unknown.slots,
    (entry.name.isNull = true ∨ TokenName (entry.name.read memory)) ∧
      CleanValue (entry.value.read memory)

variable {memory : List Byte} {m : HeadersMap}

theorem clean_initial (memory : List Byte) : Clean memory {} := by
  have hblank : CleanValue [] := fun c hc => by cases hc
  constructor
  all_goals
    intro entry hentry
    rw [SlotTable.slots, List.flatten_nil, List.append_nil] at hentry
    rw [List.eq_of_mem_replicate hentry]
  · exact hblank
  · exact ⟨.inl rfl, hblank⟩

theorem Clean.setKnownBorrowed (h : m.Clean memory) (f : Field) {value : View}
    (hvalue : CleanValue (value.truncate16.read memory)) :
    (m.setKnownBorrowed f value).Clean memory := by
  have hblank : CleanValue [] := fun c hc => by cases hc
  unfold HeadersMap.setKnownBorrowed
  split
  · exact h
  dsimp only
  split
  next known hmodify =>
    constructor
    · exact SlotTable.forall_modify h.known (fun _ _ => hvalue) hmodify
    · exact h.unknown
  · constructor
    · exact SlotTable.forall_place h.known hvalue hblank
    · exact h.unknown

theorem Clean.setUnknownBorrowed (h : m.Clean memory) (buffer : List Byte) {name value : View}
    (hname : name.isNull = true ∨ TokenName (name.truncate16.read memory))
    (hvalue : CleanValue (value.truncate16.read memory)) :
    (m.setUnknownBorrowed buffer name value).Clean memory := by
  have hblank : CleanValue [] := fun c hc => by cases hc
  have hstored : name.truncate16.isNull = true ∨ TokenName (name.truncate16.read memory) := by
    rcases hname with hnull | htoken
    · cases name <;> simp_all [View.isNull, View.truncate16]
    · exact .inr htoken
  unfold HeadersMap.setUnknownBorrowed
  split
  next unknown hmodify =>
    constructor
    · exact h.known
    · exact SlotTable.forall_modify h.unknown (fun _ _ => ⟨hstored, hvalue⟩) hmodify
  · constructor
    · exact h.known
    · exact SlotTable.forall_place h.unknown ⟨hstored, hvalue⟩ ⟨.inl rfl, hblank⟩

theorem Clean.getField (h : m.Clean memory) {f : Field} {value : View}
    (hfound : m.getField f = some value) : CleanValue (value.read memory) := by
  unfold HeadersMap.getField at hfound
  split at hfound
  · cases hfound
  · obtain ⟨entry, hentry, rfl⟩ := Option.map_eq_some_iff.mp hfound
    exact h.known entry (List.mem_of_find?_eq_some hentry)

theorem Clean.get (h : m.Clean memory) {buffer name : List Byte} {value : View}
    (hfound : m.get buffer name = some value) : CleanValue (value.read memory) := by
  unfold HeadersMap.get at hfound
  split at hfound
  · obtain ⟨entry, hentry, rfl⟩ := Option.map_eq_some_iff.mp hfound
    exact (h.unknown entry (List.mem_of_find?_eq_some hentry)).2
  · exact h.getField hfound

/-- What iteration shows of a clean map. -/
theorem Clean.entries (h : m.Clean memory) : ∀ header ∈ m.entries memory,
    ((∃ f, f ≠ .unknown ∧ header.1 = fieldToString f) ∨ TokenName header.1) ∧
      CleanValue header.2 := by
  intro header hheader
  rcases List.mem_append.mp hheader with hknown | hunknown
  · obtain ⟨entry, hentry, rfl⟩ := List.mem_map.mp hknown
    obtain ⟨hslot, hkey⟩ := List.mem_filter.mp hentry
    exact ⟨.inl ⟨entry.key, of_decide_eq_true hkey, rfl⟩, h.known entry hslot⟩
  · obtain ⟨entry, hentry, rfl⟩ := List.mem_map.mp hunknown
    obtain ⟨hslot, hvacant⟩ := List.mem_filter.mp hentry
    have hnamed : ¬ entry.name.isNull = true := by simpa [isVacant] using hvacant
    exact ⟨.inr ((h.unknown entry hslot).1.resolve_left hnamed), (h.unknown entry hslot).2⟩

end HeadersMap

namespace Parser

/-- What the parser has stored so far is clean. -/
structure Tidy (p : Parser) : Prop where
  headers : p.request.headers.Clean p.buffer
  uri : ∀ c ∈ p.request.uri.read p.buffer, 0x21 ≤ c ∧ c ≤ 0x7e
  lastHeaderName : p.inHeaderSection = true → p.lastHeaderName.isNull = true ∨
    TokenName (p.lastHeaderName.truncate16.read p.buffer)

variable {p : Parser} {start : ℕ} {line : List Byte}

theorem Tidy.requestLine (h : p.Tidy) (hline : line <+: p.buffer.drop start)
    (hok : (p.processRequestLine start line).2 = .ok ()) :
    (p.processRequestLine start line).1.Tidy := by
  obtain ⟨httpMethod, target, hbegin, rfl⟩ := requestLineOf_of_ok hok
  rw [processRequestLine_lineOf hbegin]
  constructor
  · exact h.headers
  · intro c hc
    dsimp only at hc
    rw [read_target hline] at hc
    exact hbegin.2.2 c hc
  · exact h.lastHeaderName

theorem Tidy.headerLine (h : p.Tidy) (hline : line <+: p.buffer.drop start)
    (hshort : line.length < 2 ^ 16) {colon : ℕ} (haccepted : p.HeaderAccepted line colon) :
    (p.processHeaderLine start line).1.Tidy := by
  obtain ⟨length, hstored⟩ := processHeaderLine_accepted start haccepted
  have hcolon := findByte_lt haccepted.found
  have hname : TokenName ((View.buffer start colon).truncate16.read p.buffer) := by
    have hread : (View.buffer start colon).truncate16 = View.buffer start colon := by
      rw [View.truncate16, Nat.mod_eq_of_lt (hcolon.trans hshort)]
    rw [hread, headerName_read hline hcolon]
    exact ⟨haccepted.name, List.all_eq_true.mp haccepted.token⟩
  have hvalue : CleanValue ((View.buffer (start + (headerValueRange line colon).1)
      (headerValueRange line colon).2).truncate16.read p.buffer) := by
    rw [headerValue_read hline hcolon hshort, cleanValue_iff]
    exact haccepted.value
  rw [hstored]
  constructor
  · unfold storeHeader
    dsimp only
    split
    · exact h.headers.setUnknownBorrowed p.buffer (.inr hname) hvalue
    · exact h.headers.setKnownBorrowed _ hvalue
  · exact h.uri
  · unfold storeHeader
    dsimp only
    intro _
    split
    · exact .inr hname
    · exact .inl rfl

theorem Tidy.foldHeader (h : p.Tidy) (hsection : p.inHeaderSection = true) (line : List Byte) :
    (p.foldHeader line).1.Tidy := by
  unfold Parser.foldHeader
  split
  · exact h
  split
  · exact h
  next current hcurrent =>
  dsimp only
  split
  · exact h
  next hfolded =>
  have hold : CleanValue (current.read p.buffer) := by
    unfold lastHeaderValue at hcurrent
    split at hcurrent
    · exact h.headers.getField hcurrent
    · exact h.headers.get hcurrent
  have hnew : CleanValue (trimOws (line.dropWhile isOws)) := by
    rw [cleanValue_iff]
    simpa using hfolded
  have hboth : CleanValue ((View.owned (current.read p.buffer ++ SP ::
      trimOws (line.dropWhile isOws))).truncate16.read p.buffer) := by
    apply CleanValue.truncate16
    intro c hc
    rw [View.read_owned, List.mem_append, List.mem_cons] at hc
    rcases hc with hc | rfl | hc
    · exact hold c hc
    · decide
    · exact hnew c hc
  constructor
  · unfold setLastHeader
    dsimp only
    split
    · exact h.headers.setKnownBorrowed _ hboth
    · exact h.headers.setUnknownBorrowed p.buffer (h.lastHeaderName hsection) hboth
  · exact h.uri
  · exact h.lastHeaderName

theorem endHeaders_kept (p : Parser) :
    ∃ chunked length, p.endHeaders.1 = { p with isChunked := chunked, contentLength := length } := by
  unfold Parser.endHeaders
  dsimp only
  split
  · exact ⟨true, p.contentLength, rfl⟩
  split
  · exact ⟨p.isChunked, p.contentLength, rfl⟩
  split
  · split
    · exact ⟨p.isChunked, p.contentLength, rfl⟩
    · exact ⟨p.isChunked, _, rfl⟩
  · exact ⟨p.isChunked, p.contentLength, rfl⟩

theorem Tidy.endHeaders (h : p.Tidy) : p.endHeaders.1.Tidy := by
  obtain ⟨chunked, length, heq⟩ := endHeaders_kept p
  rw [heq]
  constructor
  · exact h.headers
  · exact h.uri
  · exact h.lastHeaderName

theorem Tidy.useHeaderLine (h : p.Tidy) (hsection : p.inHeaderSection = true)
    (hline : line <+: p.buffer.drop start) (hshort : line.length < 2 ^ 16) :
    (p.useHeaderLine start line).1.Tidy := by
  unfold Parser.useHeaderLine
  split
  · exact h.endHeaders
  split
  · exact h.foldHeader hsection line
  have hstored : (p.processHeaderLine start line).1.Tidy := by
    rcases processHeaderLine_cases start line p with hfail | ⟨colon, haccepted⟩
    · rw [hfail]
      exact h
    · exact h.headerLine hline hshort haccepted
  split
  next q e heq =>
    rwa [heq] at hstored
  next q heq =>
    rwa [heq] at hstored

theorem Tidy.useRequestLine (h : p.Tidy) (hline : line <+: p.buffer.drop start)
    {q : Parser} {state : ParserState} (hok : p.useRequestLine start line = (q, .ok state)) :
    q.Tidy := by
  unfold Parser.useRequestLine at hok
  split at hok
  · cases hok
  next heq =>
    have hstored := h.requestLine hline (congrArg Prod.snd heq)
    cases hok
    rwa [heq] at hstored

theorem Tidy.withPos (h : p.Tidy) (pos : ℕ) : ({ p with parsePos := pos } : Parser).Tidy := by
  constructor
  · exact h.headers
  · exact h.uri
  · exact h.lastHeaderName

theorem Tidy.withState (h : p.Tidy) (hsection : p.inHeaderSection = true) (state : ParserState) :
    ({ p with state } : Parser).Tidy := by
  constructor
  · exact h.headers
  · exact h.uri
  · exact fun _ => h.lastHeaderName hsection

/-- A line of the head is shorter than the limit for the whole. -/
theorem line_short {headBytes length : ℕ} (h : Session.HeadInvariant ⟨p, true, headBytes⟩)
    (hsection : p.inHeaderSection = true) (hfind : findCrlf p.unparsed = some length) :
    length < 2 ^ 16 := by
  have hmax : MAX_HEADER_SIZE < 2 ^ 16 := by
    decide
  rcases h.limit rfl hsection with ⟨-, -, hsize⟩ | ⟨hend, hahead⟩
  · have hbound := findCrlf_bound hfind
    have hunparsed := unparsed_length_le p
    dsimp only at hsize
    omega
  · dsimp only at hend hahead
    rcases hahead.line (q := { p with parsePos := p.parsePos + length + 2 }) hfind rfl rfl rfl with
      ⟨hzero, -⟩ | ⟨lines, rest, -, -, hsum⟩
    · omega
    · dsimp only at hsum
      omega

/-- A pass of the loop keeps what is stored clean. -/
theorem Tidy.pass (h : p.Tidy) {headBytes : ℕ} (hhead : Session.HeadInvariant ⟨p, true, headBytes⟩)
    {next : Parser} (hpass : p.parsePass = .again next) : next.Tidy := by
  obtain ⟨-, q, state, hnext, rfl, -⟩ := (parsePass_again_iff).mp hpass
  have hadv := nextState_advances p
  rw [hnext] at hadv
  by_cases hsection : p.inHeaderSection = true
  · have hstay : q.inHeaderSection = true := by
      rw [inHeaderSection, hadv.input.state]
      exact hsection
    suffices q.Tidy from this.withState hstay state
    have hlines : ∀ stay use, p.withLine true stay use = (q, .ok state) →
        (∀ length, length < 2 ^ 16 → p.unparsed.take length <+: p.buffer.drop p.parsePos →
          use p.parsePos (p.unparsed.take length)
            { p with parsePos := p.parsePos + length + 2 } = (q, .ok state) → q.Tidy) →
        q.Tidy := by
      intro stay use heq huse
      rcases withLine_cases true stay use p with
        ⟨-, hwait⟩ | ⟨length, hfind, ⟨-, -, hfail⟩ | ⟨-, hused⟩⟩
      · rw [heq] at hwait
        cases hwait
        exact h
      · rw [heq] at hfail
        cases hfail
      · apply huse length (line_short hhead hsection hfind)
        · exact unparsed_buffer (List.take_append_drop length p.unparsed).symm
        · rw [← hused, heq]
    simp only [inHeaderSection, Bool.or_eq_true, decide_eq_true_eq] at hsection
    rcases hsection with hstate | hstate
    · rw [nextState, hstate] at hnext
      apply hlines _ _ hnext
      intro length _ hline hused
      exact (h.withPos (p.parsePos + length + 2)).useRequestLine hline hused
    · rw [nextState, hstate] at hnext
      apply hlines _ _ hnext
      intro length hshort hline hused
      have hmoved : ({ p with parsePos := p.parsePos + length + 2 } : Parser).inHeaderSection =
          true := by
        simp [inHeaderSection, hstate]
      have hused' := (h.withPos (p.parsePos + length + 2)).useHeaderLine hmoved hline
        ((List.length_take_le _ _).trans_lt hshort)
      rwa [hused] at hused'
  · rw [Bool.not_eq_true] at hsection
    have hrequest := nextState_request hsection hnext
    have hout := nextState_outside hsection (congrArg Prod.snd hnext)
    have hbuffer : q.buffer = p.buffer := hadv.input.buffer
    constructor
    · dsimp only
      rw [hrequest, hbuffer]
      exact h.headers
    · dsimp only
      rw [hrequest, hbuffer]
      exact h.uri
    · intro hinside
      simp [inHeaderSection, hout] at hinside

theorem tidy_initial (buffer : List Byte) (size capacity : ℕ) :
    ({ buffer := buffer, bufferSize := size, bufferCapacity := capacity } : Parser).Tidy := by
  constructor
  · exact HeadersMap.clean_initial buffer
  · intro c hc
    cases hc
  · exact fun _ => .inl rfl

theorem Tidy.checked (h : p.Tidy) : p.scanHeaderEnd.markValidated.Tidy := by
  unfold scanHeaderEnd markValidated
  split
  all_goals exact ⟨h.headers, h.uri, h.lastHeaderName⟩

/-- What a parser holds that has taken a whole message. -/
theorem tidy_of_complete {input : List Byte} {q : Parser} (hfresh : Fresh input p)
    (hcomplete : p.parseAvailable = (q, .ok .complete)) : q.Tidy := by
  have hstart : p.Tidy := by
    rw [hfresh.same]
    exact tidy_initial _ _ _
  have hidle : Session.HeadInvariant { parser := p } := by
    have hfields : p.state = .requestLine ∧ p.parsePos = 0 ∧ p.headerEndPos = 0 := by
      rw [hfresh.same]
      exact ⟨rfl, rfl, rfl⟩
    have hsection : p.inHeaderSection = true := by
      simp [inHeaderSection, hfields.1]
    constructor
    · exact hfresh.safe
    · simp [hfields.1]
    · exact fun _ => .inl hfields.2.1
    · simp [hfields.2.1]
    · exact fun _ hend => absurd hfields.2.2 hend
    · exact fun hlooping => absurd hlooping Bool.false_ne_true
    · exact fun hout => by simp [hsection] at hout
  have henter := hidle.enter rfl fun _ hend => by
    rw [hfresh.same] at hend
    exact absurd rfl hend
  unfold parseAvailable at hcomplete
  unfold Session.enter at henter
  cases hcheck : p.checkInput with
  | mk checked result =>
      rw [hcheck] at hcomplete henter
      cases result with
      | error e => cases hcomplete
      | ok _ =>
          dsimp only at hcomplete henter
          have hchecked : checked.Tidy := by
            have hsection : p.inHeaderSection = true := by
              rw [hfresh.same]
              rfl
            rw [checkInput_header hsection] at hcheck
            split_ifs at hcheck
            · cases hcheck
            · cases hcheck
            · cases hcheck
              exact hstart.checked
          obtain ⟨last, hpasses, hdone⟩ := parseLoop_endsWith checked
          have hkeep : ∀ r next : Parser,
              (r.Tidy ∧ ∃ headBytes, Session.HeadInvariant ⟨r, true, headBytes⟩) →
                r.parsePass = .again next →
                  next.Tidy ∧ ∃ headBytes, Session.HeadInvariant ⟨next, true, headBytes⟩ := by
            rintro r next ⟨htidy, headBytes, hhead⟩ hpass
            exact ⟨htidy.pass hhead hpass, _, hhead.pass_again rfl hpass⟩
          have hboth := hpasses.invariant hkeep ⟨hchecked, _, henter⟩
          rw [hcomplete] at hdone
          rcases parsePass_done_cases hdone with
            ⟨-, heq⟩ | ⟨-, q', e', -, heq⟩ | ⟨-, q', state, -, -, hne, heq⟩
          · cases heq
            exact hboth.1
          · cases heq
          · cases heq
            exact absurd rfl hne

theorem parse_tooLong {input : List Byte} (hlong : MAX_BUFFER_SIZE < input.length) :
    (({} : Parser).parse input).2 = .error .invalidFd := by
  have hne : input ≠ [] := by
    rintro rfl
    exact absurd hlong (Nat.not_lt_zero _)
  unfold parse writableInputSpan
  rw [if_neg hne, if_pos hlong]
  rfl

/-- Whatever bytes arrive: if the parser takes them as a message, its headers have
names made of token characters and values without control characters, and its
target has only visible characters. -/
theorem parse_clean {input : List Byte} {q : Parser}
    (hcomplete : ({} : Parser).parse input = (q, .ok .complete)) :
    (∀ header ∈ q.request.headers.entries q.buffer,
        ((∃ f, f ≠ .unknown ∧ header.1 = fieldToString f) ∨ TokenName header.1) ∧
          CleanValue header.2) ∧
      ∀ c ∈ q.request.uri.read q.buffer, 0x21 ≤ c ∧ c ≤ 0x7e := by
  rcases Nat.lt_or_ge MAX_BUFFER_SIZE input.length with hlong | hlength
  · have hrefused := parse_tooLong hlong
    rw [hcomplete] at hrefused
    cases hrefused
  · obtain ⟨p, hparse, hfresh, -⟩ := parse_fresh hlength
    have htidy := tidy_of_complete hfresh (hparse.symm.trans hcomplete)
    exact ⟨htidy.headers.entries, htidy.uri⟩

def hostRequest : List Byte :=
  bytesOf "GET /a HTTP/1.1\r\nHost: \tb\r\n\r\n"

theorem parse_clean_host :
    ∃ q, ({} : Parser).parse hostRequest = (q, .ok .complete) ∧
      q.request.headers.entries q.buffer = [(bytesOf "Host", bytesOf "b")] ∧
        ∀ header ∈ q.request.headers.entries q.buffer, CleanValue header.2 := by
  have hrun : (({} : Parser).parse hostRequest).2 = .ok .complete ∧
      (({} : Parser).parse hostRequest).1.request.headers.entries
        (({} : Parser).parse hostRequest).1.buffer = [(bytesOf "Host", bytesOf "b")] := by
    decide +kernel
  generalize hparse : ({} : Parser).parse hostRequest = r at hrun
  rcases r with ⟨q, result⟩
  dsimp only at hrun
  rw [hrun.1] at hparse ⊢
  refine ⟨q, rfl, hrun.2, fun header hheader => ?_⟩
  exact ((parse_clean hparse).1 header hheader).2

end Parser

end Http
end Katana
