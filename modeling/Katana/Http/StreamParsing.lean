import Katana.Http.IncrementalScan
import Katana.Http.RoundTrip

/-!
# A stream of requests in pieces

A parser that has got a first part of the text of a request waits for the rest,
and one that has got all of it has taken the request, wherever the text was cut.
A parser in a run of the server does not know what will follow, so what it has
done so far is said for every continuation at once.
-/

namespace Katana
namespace Http

open Library

namespace Parser

/-- The parser holds `input` and has done with it what it does in front of any
continuation. -/
def Reading (input : List Byte) (p : Parser) : Prop :=
  ∀ total, input <+: total → Fed total input p

/-- The parser has waited, and more input has been put into its buffer since. -/
structure Receiving (input : List Byte) (p : Parser) : Prop where
  waited : ∃ old waiting, Reading old waiting ∧ waiting.Waits ∧ old <+: input ∧
    p = { waiting with
      buffer := p.buffer, bufferSize := p.bufferSize, bufferCapacity := p.bufferCapacity }
  bytes : p.bytes = input
  safe : p.Safe

variable {input tail : List Byte} {p q : Parser} {request : WireRequest}

theorem Reading.fed (h : Reading input p) : Fed input input p :=
  h input (List.prefix_refl input)

theorem reading_initial : Reading [] {} :=
  fun total _ => fed_initial total

theorem Fresh.receiving (h : Fresh input p) : Receiving input p where
  waited := ⟨[], {}, reading_initial, ⟨nofun, rfl⟩, List.nil_prefix, h.same⟩
  bytes := h.bytes
  safe := h.safe

/-- What has been read stays read when the bytes move to another place. -/
theorem Reading.receiving (h : Reading input p) (hwaits : p.Waits) (hmoved : p.Relocated q)
    (hsafe : q.Safe) : Receiving input q where
  waited := by
    have hsize : q.bufferSize = p.bufferSize := by rw [hmoved.same]
    apply Exists.intro input
    apply Exists.intro p
    constructor
    · exact h
    constructor
    · exact hwaits
    constructor
    · exact List.prefix_refl input
    · rw [hsize]
      exact hmoved.same
  bytes := hmoved.bytes.trans h.fed.bytes
  safe := hsafe

/-- More input after a wait. -/
theorem Reading.receiving_writeInput (h : Reading input p) (hwaits : p.Waits)
    (hmoved : p.Relocated q) (hsafe : q.Safe) {data : List Byte}
    (hroom : data.length ≤ q.bufferCapacity - q.bufferSize) :
    Receiving (input ++ data) (q.writeInput data) where
  waited := by
    apply Exists.intro input
    apply Exists.intro p
    constructor
    · exact h
    constructor
    · exact hwaits
    constructor
    · exact List.prefix_append input data
    · obtain ⟨buffer, capacity, rfl⟩ : ∃ buffer capacity,
          q = { p with buffer := buffer, bufferCapacity := capacity } := ⟨_, _, hmoved.same⟩
      rfl
  bytes := by
    rw [writeInput_bytes _ hsafe.written, hmoved.bytes, h.fed.bytes]
  safe := writeInput_safe hsafe hroom

/-! ## The request at the front -/

theorem Carries.of_same {request : RequestParts} (h : Carries request p)
    (hstate : q.state = p.state) (hmethod : q.request.httpMethod = p.request.httpMethod)
    (huri : q.request.uri.read q.buffer = p.request.uri.read p.buffer)
    (hheaders : ∀ name, (q.request.headers.get q.buffer name).map (·.read q.buffer) =
      (p.request.headers.get p.buffer name).map (·.read p.buffer))
    (hbody : q.request.body.read q.buffer = p.request.body.read p.buffer) :
    Carries request q where
  complete := hstate.trans h.complete
  httpMethod := hmethod.trans h.httpMethod
  uri := huri.trans h.uri
  headers header hheader := (hheaders header.name).trans (h.headers header hheader)
  noOther name hother := by
    have hnone := hheaders name
    rw [h.noOther name hother, Option.map_none, Option.map_eq_none_iff] at hnone
    exact hnone
  body := hbody.trans h.body

/-- What a parser carries can be read off any parser with the same bytes in front
of `parse_pos_`. -/
theorem Extends.carries_iff (h : p.Extends q) {request : RequestParts} :
    Carries request p ↔ Carries request q := by
  have hagree := h.agree h.inside
  have hrequest : q.request = p.request := by
    rw [h.same]
    rfl
  have huri : q.request.uri.read q.buffer = p.request.uri.read p.buffer := by
    rw [hrequest, h.views.uri.read_eq hagree]
  have hbody : q.request.body.read q.buffer = p.request.body.read p.buffer := by
    rw [hrequest, h.views.body.read_eq hagree]
  have hmethod : q.request.httpMethod = p.request.httpMethod := by
    rw [hrequest]
  have hheaders (name : List Byte) :
      (q.request.headers.get q.buffer name).map (·.read q.buffer) =
        (p.request.headers.get p.buffer name).map (·.read p.buffer) := by
    rw [hrequest, ← h.views.headers.get_eq hagree name]
    cases hfound : p.request.headers.get p.buffer name with
    | none => rfl
    | some view =>
        have hread := (h.views.headers.get hfound).read_eq hagree
        rw [Option.map_some, Option.map_some, hread]
  constructor
  · intro hcarries
    exact hcarries.of_same h.state hmethod huri hheaders hbody
  · intro hcarries
    exact hcarries.of_same h.state.symm hmethod.symm huri.symm (fun name => (hheaders name).symm)
      hbody.symm

/-- A parser that has room for any message, with `input` in its buffer. -/
def roomy (input : List Byte) : Parser :=
  { buffer := input, bufferSize := input.length, bufferCapacity := MAX_BUFFER_SIZE }

theorem fresh_roomy (hlength : input.length ≤ MAX_BUFFER_SIZE) : Fresh input (roomy input) where
  same := rfl
  bytes := List.take_length
  safe := by
    constructor
    · constructor
      · exact Nat.zero_le _
      · exact hlength
      · exact le_rfl
      · exact Nat.zero_le _
      · exact Nat.zero_le _
      · exact Nat.zero_le _
      · exact Nat.zero_le _
      · nofun
      · nofun
    · exact le_rfl
    · exact Nat.zero_le _

/-- The loop on the whole text of a request takes it and stops behind it. -/
theorem passes_request (request : WireRequest) (tail : List Byte)
    (hlength : (request.render ++ tail).length ≤ MAX_BUFFER_SIZE) :
    ∃ q, Passes parsePass (start (request.render ++ tail)) q ∧
      Carries request.toRequestParts q ∧ q.parsePos = request.render.length := by
  have hfresh := fresh_roomy hlength
  obtain ⟨q, hparse, htaken⟩ := hfresh.taken
  rcases hfresh.parseAvailable with ⟨hbad, -⟩ | ⟨-, checked, hloop, hready, -⟩
  · rw [request.headChecked tail] at hbad
    cases hbad
  rw [hparse] at hloop
  obtain ⟨last, hpasses, hdone⟩ := parseLoop_endsWith checked
  rw [← hloop] at hdone
  have hlast : last = q := by
    rcases parsePass_done_iff hdone with ⟨-, heq⟩ | ⟨_, _, heq⟩ | ⟨hwaits, heq⟩
    · cases heq
      rfl
    · cases heq
    · have hstate : ParserState.complete = last.state := by
        injection heq with _ hstate
        injection hstate
      exact absurd hstate.symm hwaits.1
  rw [hlast] at hpasses
  have hext : checked.Extends (start (request.render ++ tail)) := by
    constructor
    · rw [hready.same]
      rfl
    · rw [hready.bytes]
      show _ <+: (request.render ++ tail).take (request.render ++ tail).length
      rw [List.take_length]
    · exact hready.safe.written
    · exact hready.safe.parsePos
    · rw [hready.same]
      exact ⟨trivial, HeadersMap.within_initial _, trivial, trivial⟩
  obtain ⟨q', hpasses', hq'⟩ := hext.passes hpasses
  apply Exists.intro q'
  constructor
  · exact hpasses'
  constructor
  · exact hq'.carries_iff.mp htaken.carries
  · rw [hq'.parsePos]
    have hbytes := (passes_input hpasses).1.trans hready.bytes
    have hrest := congrArg List.length htaken.unparsed
    have hinside := htaken.safe.parsePos
    have hsize := bytes_length htaken.safe.written
    rw [hbytes, List.length_append] at hsize
    rw [unparsed, List.length_drop, hbytes, List.length_append] at hrest
    omega

/-- Some text that goes on from the input and begins with the request. -/
theorem exists_continuation {render : List Byte} (hinput : input <+: render ++ tail)
    (hrender : render.length ≤ MAX_BUFFER_SIZE) (hlength : input.length ≤ MAX_BUFFER_SIZE) :
    ∃ behind, input <+: render ++ behind ∧ (render ++ behind).length ≤ MAX_BUFFER_SIZE ∧
      (render.length ≤ input.length → input = render ++ behind) := by
  by_cases hlong : render.length ≤ input.length
  · obtain ⟨behind, hbehind⟩ :=
      List.prefix_of_prefix_length_le (List.prefix_append render tail) hinput hlong
    apply Exists.intro behind
    rw [hbehind]
    exact ⟨List.prefix_refl input, hlength, fun _ => rfl⟩
  · apply Exists.intro []
    rw [List.append_nil]
    constructor
    · exact List.prefix_of_prefix_length_le hinput (List.prefix_append render tail) (by omega)
    constructor
    · exact hrender
    · exact fun hshort => absurd hshort hlong

theorem Receiving.length_le (h : Receiving input p) : input.length ≤ MAX_BUFFER_SIZE := by
  have hsize := bytes_length h.safe.written
  rw [h.bytes] at hsize
  have hcapacity := h.safe.bufferSize.trans h.safe.bufferCapacity
  omega

/-- The checks pass, whatever follows. -/
theorem Receiving.checkInput (h : Receiving input p) (hinput : headChecked input = true) :
    ∃ q, p.checkInput = (q, .ok ()) ∧ Reading input q := by
  obtain ⟨old, waiting, hreading, -, ⟨more, rfl⟩, hsame⟩ := h.waited
  have hcheck (total : List Byte) (htotal : old ++ more <+: total) :
      ∃ q, p.checkInput = (q, .ok ()) ∧ Fed total (old ++ more) q := by
    have hfed := hreading total ((List.prefix_append old more).trans htotal)
    rcases hfed.check h.safe h.bytes hsame with ⟨hbad, -⟩ | hgood
    · rw [hinput] at hbad
      cases hbad
    · exact hgood
  obtain ⟨q, hq, -⟩ := hcheck _ (List.prefix_refl _)
  apply Exists.intro q
  constructor
  · exact hq
  · intro total htotal
    obtain ⟨q', hq', hfed⟩ := hcheck total htotal
    rw [hq] at hq'
    cases hq'
    exact hfed

theorem Reading.loop (h : Reading input p) (hpasses : Passes parsePass p q) : Reading input q :=
  fun total htotal => (h total htotal).loop htotal hpasses

/-- A parser that has passed over the request holds it and what is behind it. -/
theorem Reading.taken (h : Reading input p) {behind : List Byte}
    (hinput : input = request.render ++ behind) (hcarries : Carries request.toRequestParts p)
    (hpos : p.parsePos = request.render.length) : Taken request.toRequestParts behind p where
  carries := hcarries
  unparsed := by
    rw [unparsed, h.fed.bytes, hinput, hpos, List.drop_left]
  safe := h.fed.safe
  headerEndPos := by
    have houtside : p.inHeaderSection = false := by
      simp [inHeaderSection, hcarries.complete]
    have hleft := h.fed.leftHead houtside
    have hchecked := h.fed.checked
    unfold headChecked at hchecked
    dsimp only at hchecked
    rw [if_pos hleft, Bool.and_eq_true, decide_eq_true_eq] at hchecked
    rw [h.fed.headerEndPos]
    exact ⟨hleft, hchecked.2⟩

/-- A parser that waits has not got the whole text of a request. -/
theorem Reading.ne_request (h : Reading input p) (hwaits : p.Waits)
    (hlength : input.length ≤ MAX_BUFFER_SIZE) (behind : List Byte) :
    input ≠ request.render ++ behind := by
  rintro rfl
  obtain ⟨q, hqpasses, hcarries, -⟩ := passes_request request behind hlength
  have hqstill := parsePass_complete hcarries.complete
  have hqdone := parseLoop_eq (.of_passes hqpasses (.of_done hqstill))
  have hstill := parsePass_of_waits (h.fed.waits hwaits)
  have hloop := parseLoop_eq (.of_passes h.fed.passes (.of_done hstill))
  rw [hqdone] at hloop
  injection hloop with _ hstate
  injection hstate with hstate
  exact hwaits.1 hstate.symm

/-- Neither has one that has waited and has nothing left to parse. -/
theorem Receiving.length_lt (h : Receiving input p) (hnone : p.bufferedBytes = 0)
    (hinput : input <+: request.render ++ tail)
    (hfits : request.render.length ≤ MAX_BUFFER_SIZE) :
    input.length < request.render.length := by
  by_contra hlong
  obtain ⟨behind, -, -, hwhole⟩ := exists_continuation hinput hfits h.length_le
  obtain ⟨old, waiting, hreading, hwaits, ⟨more, hmore⟩, hsame⟩ := h.waited
  have hpos : p.parsePos = waiting.parsePos := by rw [hsame]
  have hsize := bytes_length h.safe.written
  have hold := bytes_length hreading.fed.safe.written
  have hinside := hreading.fed.safe.parsePos
  have hlength := congrArg List.length hmore
  rw [h.bytes] at hsize
  rw [hreading.fed.bytes] at hold
  rw [List.length_append] at hlength
  have hbuffered : p.bufferSize - p.parsePos = 0 := hnone
  have hempty : more = [] := by
    rw [← List.length_eq_zero_iff]
    omega
  rw [hempty, List.append_nil] at hmore
  rw [hmore] at hreading
  exact hreading.ne_request hwaits h.length_le behind (hwhole (Nat.not_lt.mp hlong))

/-- The call of `parse_available` takes the request if its text is in the buffer,
and waits otherwise. -/
theorem Receiving.parseAvailable (h : Receiving input p)
    (hfits : request.render.length ≤ MAX_BUFFER_SIZE)
    (hinput : input <+: request.render ++ tail) (hkeeps : p.AvailableKeeps) :
    (∃ behind q, input = request.render ++ behind ∧ p.parseAvailable = (q, .ok .complete) ∧
        Taken request.toRequestParts behind q) ∨
      (input.length < request.render.length ∧ ∃ q, p.parseAvailable = (q, .ok q.state) ∧
        q.Waits ∧ Reading input q) := by
  obtain ⟨behind, hfront, hlength, hwhole⟩ := exists_continuation hinput hfits h.length_le
  have hchecked : headChecked input = true := by
    obtain ⟨more, hmore⟩ := hfront
    have hbehind := request.headChecked behind
    rw [← hmore] at hbehind
    exact headChecked_of_append hbehind
  obtain ⟨checked, hcheck, hreading⟩ := h.checkInput hchecked
  have hparse : p.parseAvailable = checked.parseLoop := by
    rw [Parser.parseAvailable, hcheck]
  -- the loop on the text of the request, and the loop on what has arrived
  obtain ⟨q, hqpasses, hcarries, hpos⟩ := passes_request request behind hlength
  have hqstill := parsePass_complete hcarries.complete
  have hqdone := parseLoop_eq (.of_passes hqpasses (.of_done hqstill))
  obtain ⟨last, hpasses, hdone⟩ := parseLoop_endsWith checked
  have hlast := hreading.loop hpasses
  have hfed := hlast _ hfront
  have hext := hfed.extends hfront
  rw [← hparse] at hdone
  rcases parsePass_done_iff hdone with ⟨hcomplete, heq⟩ | ⟨failed, e, heq⟩ | ⟨hwaits, heq⟩
  · left
    have hsame : last.onInput (start (request.render ++ behind)) = q := by
      have hend : (last.onInput (start (request.render ++ behind))).state = .complete := hcomplete
      have hloop := parseLoop_eq (.of_passes hfed.passes (.of_done (parsePass_complete hend)))
      rw [hqdone] at hloop
      injection hloop with hsame
      exact hsame.symm
    have hcarries' : Carries request.toRequestParts last := by
      rw [hext.carries_iff, hsame]
      exact hcarries
    have hpos' : last.parsePos = request.render.length := by
      rw [← hpos, ← hsame]
      rfl
    have hlong : request.render.length ≤ input.length := by
      have hinside := hlast.fed.safe.parsePos
      have hsize := bytes_length hlast.fed.safe.written
      rw [hlast.fed.bytes] at hsize
      omega
    exact ⟨behind, last, hwhole hlong, heq, hlast.taken (hwhole hlong) hcarries' hpos'⟩
  · rw [heq] at hdone
    have hfailed := hext.parsePass_error hdone
    have hloop := parseLoop_eq (.of_passes hfed.passes (.of_done hfailed))
    rw [hqdone] at hloop
    cases hloop
  · right
    constructor
    · by_contra hlong
      have hlength := h.length_le
      exact hlast.ne_request hwaits hlength behind (hwhole (Nat.not_lt.mp hlong))
    · apply Exists.intro last
      rw [heq, stall_eq (hkeeps checked hcheck last hpasses hwaits)]
      exact ⟨rfl, hwaits, hlast⟩

end Parser

end Http
end Katana
