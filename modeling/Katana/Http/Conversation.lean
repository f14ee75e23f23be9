import Katana.Http.ServerOutput
import Katana.Http.StreamParsing

/-!
# Conversations

A client sends requests one behind the other, the socket hands them over in any
pieces, and the handler answers them in batches and writes the answers in any
pieces.  What comes of it is one answer for each request, in the order of the
requests, each given to the request as it was sent.
-/

namespace Katana
namespace Http

open Library

namespace Connection

/-- The request that a pass hands to the dispatcher, still in its parser, and the
response it gets. -/
def dispatched (env : Environment) (c : Connection) : List (Parser × Response) :=
  match c.httpParser.parseAvailable with
  | (_, .error _) => []
  | (p, .ok _) => if p.state = .complete then [(p, env.response)] else []

/-- The bytes that a pass reads from the socket. -/
def readBytes (env : Environment) (c : Connection) : List Byte :=
  match c.httpParser.parseAvailable with
  | (_, .error _) => []
  | (p, .ok _) =>
      if p.state = .complete then []
      else
        match p.writableInputSpan READ_SPAN_SIZE, env.read with
        | (_, .ok _), .received data => data
        | _, _ => []

/-- The answer given to a request with this response of the dispatcher. -/
def answerOf (given : Parser × Response) : Answer :=
  ⟨announceConnection (closeConnection given.1) given.2, closeConnection given.1⟩

/-- A pass drops no byte of an unfinished request. -/
def KeepsBytes (env : Environment) (c : Connection) : Prop :=
  c.httpParser.AvailableKeeps ∧
    ∀ p, c.httpParser.parseAvailable.1 = p → p.state ≠ .complete →
      p.spanDrops READ_SPAN_SIZE = false ∧
        ∀ q span data, p.writableInputSpan READ_SPAN_SIZE = (q, .ok span) →
          env.read = .received data → (q.writeInput data).AvailableKeeps

end Connection

/-- An exchange with the bytes it has read and the requests it has handed to the
dispatcher. -/
structure Conversation where
  exchange : Exchange := {}
  input : List Byte := []
  dispatched : List (Parser × Response) := []

namespace Conversation

open Connection

def step (s : Conversation) : ServerLabel → Option Conversation
  | .event writes =>
      (s.exchange.step (.event writes)).map fun exchange => { s with exchange }
  | .pass env =>
      (s.exchange.step (.pass env)).map fun exchange =>
        { exchange
          input := s.input ++ s.exchange.connection.readBytes env
          dispatched := s.dispatched ++ s.exchange.connection.dispatched env }

/-- The pass of this label drops no byte of an unfinished request. -/
def KeepsBytes (s : Conversation) : ServerLabel → Prop
  | .event _ => True
  | .pass env => s.exchange.connection.KeepsBytes env

/-- The handler rests: it is not running, the connection is open and everything
has been written. -/
structure Rests (s : Conversation) : Prop where
  idle : s.exchange.looping = false
  watch : s.exchange.connection.watch = true
  written : s.exchange.connection.hasPendingResponse = false

/-- The answers are those to the first requests, in order, and when the handler
rests none of the requests that have arrived lacks its answer. -/
structure Answers (requests : List WireRequest) (s : Conversation) : Prop where
  requests : ∃ served, served <+: requests ∧
    List.Forall₂ (fun request given => Parser.Carries request.toRequestParts given.1)
      served s.dispatched ∧
    (s.Rests → s.input = requests.flatMap (·.render) → served = requests)
  answers : s.exchange.answers = s.dispatched.map answerOf
  sent : s.exchange.connection.socket <+: s.exchange.output
  written : s.Rests → s.exchange.connection.socket = s.exchange.output

end Conversation

/-! ## The parser between two passes -/

/-- A parser that has taken the first of the requests, or that goes on receiving
their text. -/
inductive Awaits : List WireRequest → List Byte → Parser → Prop
  | receiving {rest pending p} (h : Parser.Receiving pending p) : Awaits rest pending p
  | taken {request rest behind p} (h : Parser.Taken request.toRequestParts behind p) :
      Awaits (request :: rest) (request.render ++ behind) p

/-- No whole request has arrived of those that are left. -/
def Unfinished (rest : List WireRequest) (pending : List Byte) : Prop :=
  ∀ request ∈ rest.head?, pending.length < request.render.length

theorem WireRequest.render_pos (request : WireRequest) : 0 < request.render.length := by
  rw [RequestParts.render, RequestParts.renderHead]
  simp only [List.length_append, Parser.crlf_length]
  omega

theorem unfinished_nil (rest : List WireRequest) : Unfinished rest [] :=
  fun request _ => request.render_pos

theorem Method.get_known : Method.get ≠ .unknown := by
  decide

def rootUri : List Byte :=
  bytesOf "/"

/-- The smallest request. -/
def getRequest : WireRequest where
  httpMethod := .get
  uri := rootUri
  before := []
  payload := .none
  after := []
  method_known := Method.get_known
  uri_ne := by decide
  uri_chars := by decide +kernel
  uri_bound := by decide
  headers_count := by decide
  headers_distinct := by decide
  headers_framing := nofun
  head_bound := by decide
  body_bound := by decide

/-! ## The capacity of the buffer -/

namespace Parser

theorem stall_bufferCapacity (p : Parser) : p.stall.bufferCapacity = p.bufferCapacity := by
  unfold stall compactBuffer
  split
  · split
    · rfl
    split
    · rfl
    · rfl
  · rfl

theorem parseAvailable_bufferCapacity (p : Parser) :
    p.parseAvailable.1.bufferCapacity = p.bufferCapacity := by
  have hchecked := (checkInput_sizes p).2
  unfold Parser.parseAvailable
  split
  next hcheck => rwa [hcheck] at hchecked
  next q _ hcheck =>
    rw [hcheck] at hchecked
    obtain ⟨last, hpasses, hdone⟩ := parseLoop_endsWith q
    have hlast := (passes_sizes hpasses).2.trans hchecked
    have hadv := (nextState_advances last).input.bufferCapacity
    rcases parsePass_done_cases hdone with
      ⟨-, heq⟩ | ⟨-, r, e, hnext, heq⟩ | ⟨-, r, state, hnext, -, -, heq⟩
    · rw [heq]
      exact hlast
    · rw [hnext] at hadv
      rw [heq]
      exact hadv.trans hlast
    · rw [hnext] at hadv
      rw [heq]
      exact (stall_bufferCapacity _).trans (hadv.trans hlast)

theorem prepareForNextRequest_bufferCapacity (p : Parser) :
    p.prepareForNextRequest.bufferCapacity = p.bufferCapacity := by
  unfold prepareForNextRequest resetMessageState
  dsimp only
  split
  · rfl
  split
  · rfl
  · rfl

theorem bufferCapacity_le_ensure (required : ℕ) (p : Parser) :
    p.bufferCapacity ≤ (p.ensureBufferCapacity required).1.bufferCapacity := by
  have hreserve (capacity : ℕ) :
      p.bufferCapacity ≤ (p.reserveBuffer capacity).1.bufferCapacity := by
    unfold reserveBuffer
    split
    · exact le_rfl
    split
    · exact le_rfl
    next hmore => exact (Nat.not_le.mp hmore).le
  unfold ensureBufferCapacity
  split
  · exact le_rfl
  split
  · exact le_rfl
  · exact hreserve _

theorem bufferCapacity_le_inputSpan (desiredSize : ℕ) (p : Parser) :
    p.bufferCapacity ≤ (p.inputSpan desiredSize).1.bufferCapacity := by
  have hgrown := bufferCapacity_le_ensure (p.bufferSize + desiredSize) p
  unfold inputSpan
  split
  · split
    next q heq => rwa [heq] at hgrown
    next q heq => rwa [heq] at hgrown
  · exact le_rfl

theorem bufferCapacity_le_writableInputSpan (desiredSize : ℕ) (p : Parser) :
    p.bufferCapacity ≤ (p.writableInputSpan desiredSize).1.bufferCapacity := by
  have hcompact : (if 0 < p.parsePos && p.state ≠ .complete then p.compactBuffer
      else p).bufferCapacity = p.bufferCapacity := by
    unfold compactBuffer
    split
    · split
      · rfl
      split
      · rfl
      · rfl
    · rfl
  unfold writableInputSpan
  split
  · exact le_rfl
  split
  · exact le_rfl
  split
  · dsimp only
    generalize (if 0 < p.parsePos && p.state ≠ .complete then p.compactBuffer else p) = q
      at hcompact
    have hgrown := bufferCapacity_le_ensure (q.bufferSize + desiredSize) q
    rw [← hcompact]
    split
    · exact le_rfl
    split
    · split
      · exact le_rfl
      split
      next r heq => rwa [heq] at hgrown
      next r heq =>
        rw [heq] at hgrown
        exact hgrown.trans (bufferCapacity_le_inputSpan desiredSize r)
    · exact bufferCapacity_le_inputSpan desiredSize q
  · exact bufferCapacity_le_inputSpan desiredSize p

end Parser

section Passes

variable {rest : List WireRequest} {pending : List Byte} {p : Parser}

theorem Awaits.parseAvailable (h : Awaits rest pending p)
    (hfits : ∀ request ∈ rest, request.render.length ≤ MAX_BUFFER_SIZE)
    (hinput : pending <+: rest.flatMap (·.render)) (hkeeps : p.AvailableKeeps) :
    (∃ request later behind q, rest = request :: later ∧ pending = request.render ++ behind ∧
        p.parseAvailable = (q, .ok .complete) ∧ Parser.Taken request.toRequestParts behind q) ∨
      (Unfinished rest pending ∧ ∃ q, p.parseAvailable = (q, .ok q.state) ∧ q.Waits ∧
        q.Reading pending) := by
  cases h with
  | taken htaken => exact .inl ⟨_, _, _, _, rfl, rfl, htaken.parseAvailable, htaken⟩
  | receiving h =>
      cases rest with
      | nil =>
          -- with nothing to come the parser waits as in front of any request
          have hnone : pending = [] := List.prefix_nil.mp hinput
          subst hnone
          have hfront : [] <+: getRequest.render ++ [] := List.nil_prefix
          rcases h.parseAvailable (by decide) hfront hkeeps with
            ⟨behind, q, hsplit, -⟩ | ⟨-, hwaits⟩
          · have hlength := congrArg List.length hsplit
            have hpos := getRequest.render_pos
            rw [List.length_nil, List.length_append] at hlength
            omega
          · exact .inr ⟨unfinished_nil [], hwaits⟩
      | cons request later =>
          rw [List.flatMap_cons] at hinput
          have hfit := hfits request (List.mem_cons_self ..)
          rcases h.parseAvailable hfit hinput hkeeps with
            ⟨behind, q, hsplit, hparse, htaken⟩ | ⟨hshort, hwaits⟩
          · exact .inl ⟨request, later, behind, q, rfl, hsplit, hparse, htaken⟩
          · right
            constructor
            · intro first hfirst
              cases hfirst
              exact hshort
            · exact hwaits

theorem Parser.Receiving.unfinished (h : Parser.Receiving pending p)
    (hfits : ∀ request ∈ rest, request.render.length ≤ MAX_BUFFER_SIZE)
    (hinput : pending <+: rest.flatMap (·.render)) (hnone : p.bufferedBytes = 0) :
    Unfinished rest pending := by
  intro request hfirst
  cases rest with
  | nil => cases hfirst
  | cons first later =>
      cases hfirst
      rw [List.flatMap_cons] at hinput
      exact h.length_lt hnone hinput (hfits request (List.mem_cons_self ..))

end Passes

/-! ## Writing leaves the parser alone -/

namespace Connection

variable {writes : List WriteResult} {c : Connection} {result : Connection × Bool}

theorem flushActiveResponse_httpParser {rest : List WriteResult} {c' : Connection}
    {r : FlushResult} (h : flushActiveResponse writes c = some (c', r, rest)) :
    c'.httpParser = c.httpParser := by
  obtain ⟨middle, ⟨sent, -, hmiddle⟩, hflushed, -⟩ := flushActiveResponse_spec h
  have hparser : middle.httpParser = c.httpParser := by rw [hmiddle]
  cases r with
  | complete =>
      rw [hflushed.2]
      exact hparser
  | blocked =>
      rw [hflushed.2]
      exact hparser
  | error =>
      obtain ⟨more, -, hsame⟩ := hflushed
      rw [hsame]
      exact hparser

theorem nextResponse_httpParser (c : Connection) : c.nextResponse.httpParser = c.httpParser := by
  unfold nextResponse
  dsimp only
  split
  · rfl
  · rfl

theorem setWatchEvents_httpParser (events : EventType) (c : Connection) :
    (c.setWatchEvents events).httpParser = c.httpParser := by
  rw [setWatchEvents_eq]

theorem flushPass_httpParser {s next : Connection × List WriteResult}
    (h : flushPass s = .again next) : next.1.httpParser = s.1.httpParser := by
  unfold flushPass at h
  split at h
  · cases h
  split at h
  · cases h
  · cases h
  · cases h
  next hflush =>
    split at h
    · cases h
    · cases h
      have hparser := flushActiveResponse_httpParser hflush
      rw [nextResponse_httpParser]
      exact hparser

theorem flushReadyResponses_httpParser (h : c.flushReadyResponses writes = some result) :
    result.1.httpParser = c.httpParser := by
  have hend := evalLoop_endsWith flushPass_decreases (fun _ => none) (c, writes)
  unfold flushReadyResponses at h
  rw [h] at hend
  obtain ⟨last, hpasses, hlast⟩ := hend
  have hparser : last.1.httpParser = c.httpParser :=
    hpasses.invariant (fun _ _ hs hpass => (flushPass_httpParser hpass).trans hs) rfl
  unfold flushPass at hlast
  split at hlast
  · cases hlast
    exact hparser
  split at hlast
  · cases hlast
  next hflush =>
    cases hlast
    rw [setWatchEvents_httpParser, flushActiveResponse_httpParser hflush]
    exact hparser
  next hflush =>
    cases hlast
    exact (flushActiveResponse_httpParser hflush).trans hparser
  next hflush =>
    split at hlast
    · cases hlast
      exact (flushActiveResponse_httpParser hflush).trans hparser
    · cases hlast

/-- The parser is left as it was, and the handler comes to rest only when it has
nothing to parse. -/
structure LeavesParser (p : Parser) (result : Connection × Bool) : Prop where
  parser : result.1.httpParser = p
  rested : result.2 = false → result.1.watch = true → result.1.hasPendingResponse = false →
    p.bufferedBytes = 0

theorem Flushed.leavesParser {c' : Connection} (hflushed : Flushed c (c', false))
    (hparser : c'.httpParser = c.httpParser) : LeavesParser c.httpParser (c', false) where
  parser := hparser
  rested _ hwatch hnone := by
    cases hflushed with
    | blocked _ hpending =>
        rw [hpending] at hnone
        cases hnone
    | gone hgone =>
        rw [hwatch] at hgone
        cases hgone

theorem flushAndGoOn_leavesParser (hordered : c.Ordered)
    (h : c.flushAndGoOn writes = some result) : LeavesParser c.httpParser result := by
  unfold flushAndGoOn at h
  split at h
  · cases h
  next hflush =>
    cases h
    exact (flushReadyResponses_spec hordered hflush).leavesParser
      (flushReadyResponses_httpParser hflush)
  next c' hflush =>
    cases h
    have hparser : c'.httpParser = c.httpParser := flushReadyResponses_httpParser hflush
    unfold afterFlush
    split
    next hnone =>
      rw [hparser] at hnone
      exact ⟨(setWatchEvents_httpParser _ _).trans hparser, fun _ _ _ => hnone⟩
    · exact ⟨hparser, nofun⟩

theorem handleEvent_leavesParser (hordered : c.Ordered)
    (h : c.handleEvent writes = some result) : LeavesParser c.httpParser result := by
  unfold handleEvent at h
  split at h
  · split at h
    · cases h
    next hflush =>
      cases h
      exact (flushReadyResponses_spec hordered hflush).leavesParser
        (flushReadyResponses_httpParser hflush)
    next c' hflush =>
      have hparser : c'.httpParser = c.httpParser := flushReadyResponses_httpParser hflush
      split at h
      next hnone =>
        cases h
        rw [hparser] at hnone
        exact ⟨(setWatchEvents_httpParser _ _).trans hparser, fun _ _ _ => hnone⟩
      · cases h
        exact ⟨hparser, nofun⟩
  · cases h
    exact ⟨rfl, nofun⟩

theorem respond_leavesParser {close : Bool} {resp : Response} (hbatching : c.Batching)
    (h : c.respond close resp writes = some result) :
    LeavesParser c.httpParser.prepareForNextRequest result := by
  unfold respond at h
  dsimp only at h
  split at h
  · have hne : resp.serializeInto ++ [] ≠ [] := by
      rw [List.append_nil, Response.serializeInto_eq]
      exact resp.serialize_ne
    split at h
    · obtain ⟨-, howing⟩ := hbatching.join resp.serializeInto
        (c.activeResponseCompletedRequests + 1) c.httpParser.prepareForNextRequest
      split at h
      · cases h
        exact ⟨rfl, nofun⟩
      · exact flushAndGoOn_leavesParser howing.ordered h
    split at h
    next hpending =>
      have howing := hbatching.behind hpending hne [] false 1 c.httpParser.prepareForNextRequest
      exact flushAndGoOn_leavesParser howing.ordered h
    next hnone =>
      rw [Bool.not_eq_true] at hnone
      have howing := hbatching.active hnone hne [] false 1 c.httpParser.prepareForNextRequest
      exact flushAndGoOn_leavesParser howing.ordered h
  · split at h
    next hpending =>
      have howing := hbatching.behind hpending (prepareResponseStorage_ne resp)
        c.responseScratch close 1 c.httpParser.prepareForNextRequest
      exact flushAndGoOn_leavesParser howing.ordered h
    next hnone =>
      rw [Bool.not_eq_true] at hnone
      have howing := hbatching.active hnone (prepareResponseStorage_ne resp)
        c.responseScratch close 1 c.httpParser.prepareForNextRequest
      exact flushAndGoOn_leavesParser howing.ordered h

end Connection

/-! ## What is held of the requests that are left -/

/-- The connection, as long as it is open, holds what has arrived of the requests
that are left, and comes to rest only when none of them is whole. -/
structure Exchange.Holds (rest : List WireRequest) (pending : List Byte) (s : Exchange) : Prop where
  looping : s.looping = true → Awaits rest pending s.connection.httpParser
  idle : s.looping = false → s.connection.watch = true →
    Parser.Receiving pending s.connection.httpParser
  settled : s.looping = false → s.connection.watch = true →
    s.connection.hasPendingResponse = false → Unfinished rest pending
  roomy : s.connection.watch = true →
    INITIAL_BUFFER_CAPACITY ≤ s.connection.httpParser.bufferCapacity

namespace Exchange

open Connection

variable {rest : List WireRequest} {pending : List Byte} {s : Exchange}

theorem holds_initial (rest : List WireRequest) : ({} : Exchange).Holds rest [] where
  looping := nofun
  idle _ _ := Parser.Fresh.receiving ⟨rfl, rfl, Parser.safe_initial⟩
  settled _ _ _ := unfinished_nil rest
  roomy _ := le_rfl

/-- A connection that is given up holds nothing. -/
theorem holds_closed {c : Connection} (hwatch : c.watch = false) (answers : List Answer) :
    Holds rest pending { connection := c, looping := false, answers } where
  looping := nofun
  idle _ hopen := by
    rw [hwatch] at hopen
    cases hopen
  settled _ hopen := by
    rw [hwatch] at hopen
    cases hopen
  roomy hopen := by
    rw [hwatch] at hopen
    cases hopen

theorem holds_left {result : Connection × Bool} {p : Parser} (hleaves : LeavesParser p result)
    (hreceiving : Parser.Receiving pending p)
    (hsettled : p.bufferedBytes = 0 → Unfinished rest pending)
    (hroomy : INITIAL_BUFFER_CAPACITY ≤ p.bufferCapacity) (answers : List Answer) :
    Holds rest pending { connection := result.1, looping := result.2, answers } where
  looping _ := .receiving (hleaves.parser ▸ hreceiving)
  idle _ _ := hleaves.parser ▸ hreceiving
  settled hidle hwatch hnone := hsettled (hleaves.rested hidle hwatch hnone)
  roomy _ := hleaves.parser ▸ hroomy

end Exchange

/-! ## One pass -/

namespace Connection

variable {env : Environment} {c : Connection} {outcome : Connection × Bool × List Answer}
  {rest : List WireRequest} {pending : List Byte} {p q : Parser}

/-- A request that has been taken is handed to the dispatcher and answered, and
the parser goes on behind it. -/
theorem iterate_taken (hbatching : c.Batching)
    (hparse : c.httpParser.parseAvailable = (q, .ok .complete)) (hcomplete : q.state = .complete)
    (h : c.iterate env = some outcome) :
    c.readBytes env = [] ∧ c.dispatched env = [(q, env.response)] ∧
      outcome.2.2 = [answerOf (q, env.response)] ∧
      LeavesParser q.prepareForNextRequest (outcome.1, outcome.2.1) := by
  have hread : c.readBytes env = [] := by
    unfold readBytes
    rw [hparse]
    exact if_pos hcomplete
  have hdispatched : c.dispatched env = [(q, env.response)] := by
    unfold dispatched
    rw [hparse]
    exact if_pos hcomplete
  unfold iterate at h
  rw [hparse] at h
  dsimp only at h
  rw [if_neg (not_not.mpr hcomplete), Option.map_eq_some_iff] at h
  obtain ⟨result, hrespond, hsame⟩ := h
  cases hsame
  have hleaves := respond_leavesParser (hbatching.setParser q) hrespond
  exact ⟨hread, hdispatched, rfl, hleaves⟩

/-- What a pass leaves of a connection that waits for the rest of a request. -/
inductive ReadMore (rest : List WireRequest) (pending : List Byte) (capacity : ℕ) :
    List Byte → Connection × Bool × List Answer → Prop
  | gone {left : Connection} (hwatch : left.watch = false) :
      ReadMore rest pending capacity [] (left, false, [])
  | starved {left : Connection} (hreceiving : left.httpParser.Receiving pending)
      (hcapacity : capacity ≤ left.httpParser.bufferCapacity) :
      ReadMore rest pending capacity [] (left, false, [])
  | read {left : Connection} {data : List Byte}
      (hawaits : Awaits rest (pending ++ data) left.httpParser)
      (hcapacity : capacity ≤ left.httpParser.bufferCapacity) :
      ReadMore rest pending capacity data (left, true, [])

theorem iterate_waiting (hparse : c.httpParser.parseAvailable = (q, .ok q.state))
    (hwaits : q.Waits) (hreading : q.Reading pending)
    (hfits : ∀ request ∈ rest, request.render.length ≤ MAX_BUFFER_SIZE)
    (hinput : pending ++ c.readBytes env <+: rest.flatMap (·.render))
    (hkeeps : c.KeepsBytes env) (h : c.iterate env = some outcome) :
    c.dispatched env = [] ∧
      ReadMore rest pending c.httpParser.bufferCapacity (c.readBytes env) outcome := by
  have hincomplete := hwaits.1
  have hcapacity : q.bufferCapacity = c.httpParser.bufferCapacity := by
    have hsame := c.httpParser.parseAvailable_bufferCapacity
    rwa [hparse] at hsame
  rw [← hcapacity]
  have hparsed : c.httpParser.parseAvailable.1 = q := by rw [hparse]
  obtain ⟨hspanKeeps, hreadKeeps⟩ := hkeeps.2 q hparsed hincomplete
  constructor
  · unfold dispatched
    rw [hparse]
    exact if_neg hincomplete
  have hbytes : c.readBytes env = match q.writableInputSpan READ_SPAN_SIZE, env.read with
      | (_, .ok _), .received data => data
      | _, _ => [] := by
    unfold readBytes
    rw [hparse]
    exact if_neg hincomplete
  rw [hbytes] at hinput ⊢
  unfold iterate at h
  rw [hparse] at h
  dsimp only at h
  rw [if_pos hincomplete] at h
  unfold readInput at h
  dsimp only at h
  have hsafe := Parser.writableInputSpan_safe READ_SPAN_SIZE hreading.fed.safe
  have hgrown := q.bufferCapacity_le_writableInputSpan READ_SPAN_SIZE
  rcases Parser.writableInputSpan_cases READ_SPAN_SIZE q with hmoved | ⟨hdrops, -⟩
  · rcases hspan : q.writableInputSpan READ_SPAN_SIZE with ⟨p, e | span⟩
    · rw [hspan] at h
      cases h
      exact .gone rfl
    · have hinside := Parser.writableInputSpan_inside hreading.fed.safe (congrArg Prod.snd hspan)
      rw [hspan] at h hinput hsafe hmoved hinside hgrown
      dsimp only at h hinput hsafe hmoved hinside hgrown
      cases henv : env.read with
      | wouldBlock =>
          rw [henv] at h
          cases h
          have hreceiving := hreading.receiving hwaits hmoved hsafe
          apply ReadMore.starved
          · rw [setWatchEvents_httpParser]
            exact hreceiving
          · rw [setWatchEvents_httpParser]
            exact hgrown
      | eof =>
          rw [henv] at h
          cases h
          exact .gone rfl
      | failed =>
          rw [henv] at h
          cases h
          exact .gone rfl
      | received data =>
          rw [henv] at h hinput
          dsimp only at h hinput
          split at h
          · cases h
          next hlength =>
            rw [Bool.or_eq_true, not_or, decide_eq_true_iff, decide_eq_true_iff] at hlength
            have hroom : data.length ≤ p.bufferCapacity - p.bufferSize := by omega
            have hcommit : p.commitInput data = (p.writeInput data).parseAvailable := by
              have hsize := hsafe.bufferSize
              unfold Parser.commitInput
              rw [if_neg (by omega), if_neg (by omega)]
            have hreceiving := hreading.receiving_writeInput hwaits hmoved hsafe hroom
            have hawaits : Awaits rest (pending ++ data) (p.writeInput data) :=
              .receiving hreceiving
            have hsame := (p.writeInput data).parseAvailable_bufferCapacity
            rcases hawaits.parseAvailable hfits hinput (hreadKeeps p span data hspan henv) with
              ⟨request, later, behind, r, hrest, hsplit, hparse', htaken⟩ |
                ⟨-, r, hparse', hstill, hreading'⟩
            · rw [hparse'] at hsame
              rw [hcommit, hparse'] at h
              cases h
              have hawaits' : Awaits rest (pending ++ data) r := by
                rw [hrest, hsplit]
                exact .taken htaken
              exact .read hawaits' (hgrown.trans hsame.ge)
            · rw [hparse'] at hsame
              rw [hcommit, hparse'] at h
              cases h
              have hreceiving' := hreading'.receiving hstill (.refl r) hreading'.fed.safe
              exact .read (.receiving hreceiving') (hgrown.trans hsame.ge)
  · rw [hspanKeeps] at hdrops
    cases hdrops

end Connection

end Http
end Katana
