import Katana.Http.ServerFlush

/-!
# Steps of the connection handler

While the handler runs, the answers it has not written pile up in the active
response alone.  Each step of the handler either goes on like that, leaves a
connection whose buffers are in order and that waits for the right event, or
gives the connection up.
-/

namespace Katana
namespace Http

open Library

namespace Connection

/-- The connection is open and owes exactly these bytes. -/
structure Owing (owed : List Byte) (close : Bool) (c : Connection) : Prop where
  watch : c.watch = true
  owed : c.socket ++ c.unsent = owed
  ordered : c.Ordered
  closing : c.closing = close

/-- The buffers while the handler runs. -/
structure Batching (c : Connection) : Prop where
  watch : c.watch = true
  queued : c.queued = []
  counted : c.queuedResponseCompletedRequests = 0
  opened : c.closeRequested = false
  body : c.activeResponseBody = []
  start : c.writePos = 0

theorem Keeps.owing {owed : List Byte} {close : Bool} {c c' : Connection} (hkeeps : c.Keeps c')
    (howing : c.Owing owed close) : c'.Owing owed close where
  watch := hkeeps.watch.trans howing.watch
  owed := hkeeps.owed.trans howing.owed
  ordered := hkeeps.ordered
  closing := hkeeps.closing.trans howing.closing

theorem Batching.setParser {c : Connection} (hbatching : c.Batching) (p : Parser) :
    ({ c with httpParser := p } : Connection).Batching :=
  ⟨hbatching.watch, hbatching.queued, hbatching.counted, hbatching.opened, hbatching.body,
    hbatching.start⟩

theorem Batching.activeRest {c : Connection} (hbatching : c.Batching) :
    c.activeRest = c.activeResponse := by
  unfold Connection.activeRest
  rw [hbatching.body, hbatching.start, List.append_nil, List.drop_zero]

theorem Batching.unsent {c : Connection} (hbatching : c.Batching) :
    c.unsent = c.activeResponse := by
  rw [Connection.unsent, hbatching.queued, hbatching.activeRest, List.append_nil]

theorem Batching.hasQueuedResponse {c : Connection} (hbatching : c.Batching) :
    c.hasQueuedResponse = false := by
  rw [← Bool.not_eq_true, hasQueuedResponse_eq fun _ => hbatching.counted]
  exact not_not_intro hbatching.queued

theorem Batching.closing {c : Connection} (hbatching : c.Batching) : c.closing = false :=
  (closing_of_queued_nil hbatching.queued).trans hbatching.opened

theorem Batching.ordered {c : Connection} (hbatching : c.Batching) : c.Ordered := by
  constructor
  · exact fun _ => hbatching.queued
  · exact fun _ => hbatching.counted
  · exact fun _ => hbatching.opened
  · intro hclose
    rw [hbatching.closing] at hclose
    cases hclose
  · intro hnone
    have hactive := hbatching.activeRest.symm.trans (hasPendingResponse_eq_false.mp hnone)
    exact ⟨hactive, hbatching.body, hbatching.start⟩

theorem Batching.owing {c : Connection} (hbatching : c.Batching) :
    c.Owing (c.socket ++ c.unsent) false :=
  ⟨hbatching.watch, rfl, hbatching.ordered, hbatching.closing⟩

/-- Nothing is left to be written, so the handler may go on. -/
theorem Owing.batching {owed : List Byte} {close : Bool} {c : Connection}
    (howing : c.Owing owed close) (hnone : c.hasPendingResponse = false) :
    c.Batching ∧ close = false := by
  have hqueued := howing.ordered.queueBehind hnone
  obtain ⟨-, hbody, hstart⟩ := howing.ordered.clean hnone
  have hclosing : c.closing = false := by
    by_contra hclose
    rw [Bool.not_eq_false] at hclose
    rw [howing.ordered.closesPending hclose] at hnone
    cases hnone
  have hopened := (closing_of_queued_nil hqueued).symm.trans hclosing
  exact ⟨⟨howing.watch, hqueued, howing.ordered.counted hqueued, hopened, hbody, hstart⟩,
    howing.closing.symm.trans hclosing⟩

/-- What the handler leaves of a connection that owed these bytes, and whether it
goes on. -/
inductive Handled (owed : List Byte) (close : Bool) : Connection × Bool → Prop
  | going {c} (hbatching : c.Batching) (howing : c.Owing owed close) : Handled owed close (c, true)
  | waiting {c} (howing : c.Owing owed close)
      (harmed : c.unsent ≠ [] → c.watchEvents = .writable) : Handled owed close (c, false)
  | gone {c} (hwatch : c.watch = false) (hsocket : c.socket <+: owed) :
      Handled owed close (c, false)

variable {owed : List Byte} {close : Bool} {c : Connection} {result : Connection × Bool}
  {writes : List WriteResult}

theorem Flushed.handled {c' : Connection} (howing : c.Owing owed close)
    (hflushed : Flushed c (c', false)) : Handled owed close (c', false) := by
  cases hflushed with
  | blocked hkeeps hpending harmed =>
      have howing' := hkeeps.owing howing
      exact .waiting howing' fun _ => harmed howing'.watch
  | gone hwatch hsocket => exact .gone hwatch (howing.owed ▸ hsocket)

theorem Owing.unsent_nil (howing : c.Owing owed close) (hnone : c.hasPendingResponse = false) :
    c.unsent = [] := by
  rw [unsent, (hasPendingResponse_eq_false).mp hnone, howing.ordered.queueBehind hnone,
    List.append_nil]

theorem Owing.setWatchEvents (howing : c.Owing owed close) (events : EventType) :
    (c.setWatchEvents events).Owing owed close :=
  (Keeps.setWatchEvents events ⟨rfl, rfl, howing.ordered, rfl⟩).owing howing

theorem Owing.setParser (howing : c.Owing owed close) (p : Parser) :
    ({ c with httpParser := p } : Connection).Owing owed close :=
  ⟨howing.watch, howing.owed,
    ⟨howing.ordered.queueBehind, howing.ordered.counted, howing.ordered.lastCloses,
      howing.ordered.closesPending, howing.ordered.clean⟩, howing.closing⟩

/-- With nothing left to write, waiting for input is right. -/
theorem Owing.readable (howing : c.Owing owed close) (hnone : c.hasPendingResponse = false) :
    Handled owed close (c.setWatchEvents .readable, false) := by
  apply Handled.waiting (howing.setWatchEvents _)
  intro hne
  have hsame : (c.setWatchEvents .readable).unsent = c.unsent := by
    rw [setWatchEvents_eq]
    rfl
  rw [hsame] at hne
  exact (hne (howing.unsent_nil hnone)).elim

theorem Owing.afterFlush (howing : c.Owing owed close) (hnone : c.hasPendingResponse = false) :
    Handled owed close c.afterFlush := by
  unfold Connection.afterFlush
  split
  · exact howing.readable hnone
  · exact .going (howing.batching hnone).1 howing

theorem flushAndGoOn_spec (howing : c.Owing owed close)
    (h : c.flushAndGoOn writes = some result) : Handled owed close result := by
  unfold flushAndGoOn at h
  split at h
  · cases h
  next hflush =>
    cases h
    exact (flushReadyResponses_spec howing.ordered hflush).handled howing
  next hflush =>
    cases h
    cases flushReadyResponses_spec howing.ordered hflush with
    | written hkeeps hnone => exact (hkeeps.owing howing).afterFlush hnone

/-- One event, up to the handler's loop. -/
theorem handleEvent_spec (howing : c.Owing owed close)
    (h : c.handleEvent writes = some result) : Handled owed close result := by
  unfold handleEvent at h
  split at h
  · split at h
    · cases h
    next hflush =>
      cases h
      exact (flushReadyResponses_spec howing.ordered hflush).handled howing
    next hflush =>
      cases flushReadyResponses_spec howing.ordered hflush with
      | written hkeeps hnone =>
          have howing' := hkeeps.owing howing
          split at h
          · cases h
            exact howing'.readable hnone
          · cases h
            exact .going (howing'.batching hnone).1 howing'
  next hnone =>
    rw [Bool.not_eq_true] at hnone
    cases h
    exact .going (howing.batching hnone).1 howing

/-! ## An answer leaves its request -/

/-- The answer waits behind the batch. -/
theorem Batching.behind (hbatching : c.Batching) (hpending : c.hasPendingResponse = true)
    {head body : List Byte} (hne : head ++ body ≠ []) (scratch : List Byte) (close : Bool)
    (completedRequests : ℕ) (p : Parser) :
    ({ c with
        queuedResponse := head, queuedResponseBody := body, queuedCloseRequested := close
        queuedResponseCompletedRequests := completedRequests, responseScratch := scratch
        httpParser := p } : Connection).Owing (c.socket ++ c.unsent ++ (head ++ body)) close := by
  have hnot {P : Prop} (hnone : c.hasPendingResponse = false) : P := by
    rw [hpending] at hnone
    cases hnone
  constructor
  · exact hbatching.watch
  · show c.socket ++ (c.activeRest ++ (head ++ body)) = _
    rw [Connection.unsent, hbatching.queued, List.append_nil, List.append_assoc]
  · constructor
    · exact fun hnone => hnot hnone
    · exact fun hnone => (hne hnone).elim
    · exact fun _ => hbatching.opened
    · exact fun _ => hpending
    · exact fun hnone => hnot hnone
  · exact closing_of_queued_ne hne

/-- The answer is the active response. -/
theorem Batching.active (hbatching : c.Batching) (hnone : c.hasPendingResponse = false)
    {head body : List Byte} (hne : head ++ body ≠ []) (scratch : List Byte) (close : Bool)
    (completedRequests : ℕ) (p : Parser) :
    ({ c with
        activeResponse := head, activeResponseBody := body, writePos := 0, closeRequested := close
        activeResponseCompletedRequests := completedRequests, responseScratch := scratch
        httpParser := p } : Connection).Owing (c.socket ++ c.unsent ++ (head ++ body)) close := by
  have hpending : ({ c with
      activeResponse := head, activeResponseBody := body, writePos := 0, closeRequested := close
      activeResponseCompletedRequests := completedRequests, responseScratch := scratch
      httpParser := p } : Connection).hasPendingResponse = true :=
    (hasPendingResponse_eq_true).mpr hne
  constructor
  · exact hbatching.watch
  · rw [hbatching.owing.unsent_nil hnone, List.append_nil]
    show c.socket ++ (head ++ body ++ c.queued) = _
    rw [hbatching.queued, List.append_nil]
  · constructor
    · exact fun _ => hbatching.queued
    · exact fun _ => hbatching.counted
    · exact fun hbehind => (hbehind hbatching.queued).elim
    · exact fun _ => hpending
    · intro hnone'
      rw [hpending] at hnone'
      cases hnone'
  · exact closing_of_queued_nil hbatching.queued

/-- The answer joins the batch. -/
theorem Batching.join (hbatching : c.Batching) (text : List Byte) (completedRequests : ℕ)
    (p : Parser) :
    let c' : Connection := { c with
      activeResponse := c.activeResponse ++ text, responseScratch := text
      activeResponseCompletedRequests := completedRequests, httpParser := p }
    c'.Batching ∧ c'.Owing (c.socket ++ c.unsent ++ text) false := by
  intro c'
  have hbatching' : c'.Batching :=
    ⟨hbatching.watch, hbatching.queued, hbatching.counted, hbatching.opened, hbatching.body,
      hbatching.start⟩
  refine ⟨hbatching', ?_⟩
  have howing := hbatching'.owing
  rw [hbatching'.unsent] at howing
  rw [hbatching.unsent, List.append_assoc]
  exact howing

theorem prepareResponseStorage_append (resp : Response) :
    (prepareResponseStorage resp).1 ++ (prepareResponseStorage resp).2 = resp.serialize := by
  unfold prepareResponseStorage
  split
  · rw [List.append_nil, Response.serializeInto_eq]
  next hlong =>
    rw [Bool.or_eq_true, not_or, Bool.not_eq_true] at hlong
    exact Response.serializeHeadInto_append hlong.1

theorem prepareResponseStorage_ne (resp : Response) :
    (prepareResponseStorage resp).1 ++ (prepareResponseStorage resp).2 ≠ [] := by
  rw [prepareResponseStorage_append]
  exact resp.serialize_ne

theorem respond_spec {resp : Response} (hbatching : c.Batching)
    (h : c.respond close resp writes = some result) :
    Handled (c.socket ++ c.unsent ++ resp.serialize) close result := by
  unfold respond at h
  dsimp only at h
  split at h
  next hbatch =>
    have hopen : close = false := by
      unfold canBatchSmallResponse at hbatch
      cases close
      · rfl
      · cases hbatch
    have hne : resp.serializeInto ++ [] ≠ [] := by
      rw [List.append_nil, Response.serializeInto_eq]
      exact resp.serialize_ne
    have htext : resp.serializeInto ++ [] = resp.serialize := by
      rw [List.append_nil, Response.serializeInto_eq]
    rw [hopen]
    split at h
    · obtain ⟨hjoined, howing⟩ := hbatching.join resp.serializeInto
        (c.activeResponseCompletedRequests + 1) c.httpParser.prepareForNextRequest
      rw [Response.serializeInto_eq] at hjoined howing h
      split at h
      · cases h
        exact .going hjoined howing
      · exact flushAndGoOn_spec howing h
    rw [← htext]
    split at h
    next hpending =>
      exact flushAndGoOn_spec (hbatching.behind hpending hne _ _ _ _) h
    next hnone =>
      rw [Bool.not_eq_true] at hnone
      exact flushAndGoOn_spec (hbatching.active hnone hne _ _ _ _) h
  next =>
    rw [← prepareResponseStorage_append]
    split at h
    next hpending =>
      have howing := hbatching.behind hpending (prepareResponseStorage_ne resp)
        c.responseScratch close 1 c.httpParser.prepareForNextRequest
      exact flushAndGoOn_spec howing h
    next hnone =>
      rw [Bool.not_eq_true] at hnone
      have howing := hbatching.active hnone (prepareResponseStorage_ne resp)
        c.responseScratch close 1 c.httpParser.prepareForNextRequest
      exact flushAndGoOn_spec howing h

theorem closeWithParseError_spec {c' : Connection} (hbatching : c.Batching)
    (h : c.closeWithParseError writes = some c') :
    Handled (c.socket ++ c.unsent ++ parseErrorResponse.serialize) true (c', false) := by
  rw [← prepareResponseStorage_append]
  unfold closeWithParseError at h
  rw [hbatching.hasQueuedResponse, Bool.or_false] at h
  split at h
  next hpending =>
    have howing := hbatching.behind hpending (prepareResponseStorage_ne parseErrorResponse)
      c.responseScratch true 0 c.httpParser
    split at h
    · cases h
    next hflush =>
      cases h
      exact (flushReadyResponses_spec howing.ordered hflush).handled howing
    next hflush =>
      cases h
      cases flushReadyResponses_spec howing.ordered hflush with
      | written hkeeps hnone =>
          have howed := (hkeeps.owing howing).owed
          refine .gone rfl ?_
          rw [← howed]
          exact List.prefix_append _ _
  next hnone =>
    rw [Bool.not_eq_true] at hnone
    have howing := hbatching.active hnone (prepareResponseStorage_ne parseErrorResponse)
      c.responseScratch true 0 c.httpParser
    rw [Option.map_eq_some_iff] at h
    obtain ⟨⟨c'', done⟩, hflush, hsame⟩ := h
    cases hsame
    cases done with
    | false => exact (flushReadyResponses_spec howing.ordered hflush).handled howing
    | true =>
        -- a response that closes the connection never counts as written
        cases flushReadyResponses_spec howing.ordered hflush with
        | written hkeeps hwritten => cases ((hkeeps.owing howing).batching hwritten).2

/-! ## One pass of the handler's loop -/

/-- The request is incomplete and the socket has no more input. -/
def Starves (env : Environment) (c : Connection) : Prop :=
  env.read = .wouldBlock ∧
    ∃ p state, c.httpParser.parseAvailable = (p, .ok state) ∧ p.state ≠ .complete ∧
      ∃ p' span, p.writableInputSpan READ_SPAN_SIZE = (p', .ok span)

/-- The answer given to a request. -/
def AnswerTo (env : Environment) (c : Connection) (a : Answer) : Prop :=
  a = ⟨parseErrorResponse, true⟩ ∨
    ∃ p state, c.httpParser.parseAvailable = (p, .ok state) ∧ p.state = .complete ∧
      a = ⟨announceConnection (closeConnection p) env.response, closeConnection p⟩

/-- What one pass may do. -/
inductive Iterated (env : Environment) (c : Connection) : Connection × Bool × List Answer → Prop
  | answered {c' looping a} (hanswer : AnswerTo env c a)
      (hhandled : Handled (c.socket ++ c.unsent ++ a.response.serialize) a.closeRequested
        (c', looping)) : Iterated env c (c', looping, [a])
  | read (p : Parser) : Iterated env c ({ c with httpParser := p }, true, [])
  | starved (hstarves : Starves env c) (p : Parser) :
      Iterated env c (setWatchEvents .readable { c with httpParser := p }, false, [])
  | closed (p : Parser) : Iterated env c (resetWatch { c with httpParser := p }, false, [])

variable {env : Environment} {outcome : Connection × Bool × List Answer}

theorem Batching.parseError (hbatching : c.Batching) {p : Parser}
    (h : (closeWithParseError env.writes { c with httpParser := p }).map
        (·, false, [⟨parseErrorResponse, true⟩]) = some outcome) : Iterated env c outcome := by
  rw [Option.map_eq_some_iff] at h
  obtain ⟨c', hclose, hsame⟩ := h
  cases hsame
  have hhandled := closeWithParseError_spec (hbatching.setParser p) hclose
  exact .answered (.inl rfl) hhandled

theorem iterate_spec (hbatching : c.Batching) (h : c.iterate env = some outcome) :
    Iterated env c outcome := by
  unfold iterate at h
  split at h
  · exact hbatching.parseError h
  next p state hparse =>
    dsimp only at h
    split at h
    next hstate =>
      unfold readInput at h
      split at h
      · cases h
        exact .closed _
      next p' span hspan =>
        dsimp only at h
        split at h
        next hread =>
          cases h
          exact .starved ⟨hread, p, state, hparse, hstate, p', span, hspan⟩ p'
        · cases h
          exact .closed p'
        · cases h
          exact .closed p'
        split at h
        · cases h
        split at h
        · exact hbatching.parseError h
        · cases h
          exact .read _
    next hstate =>
      rw [Option.map_eq_some_iff] at h
      obtain ⟨result, hrespond, hsame⟩ := h
      cases hsame
      have hhandled := respond_spec (hbatching.setParser p) hrespond
      exact .answered (.inr ⟨p, state, hparse, not_not.mp hstate, rfl⟩) hhandled

/-- A starved pass always ends with the watch set to input. -/
theorem Starves.iterate (hstarves : Starves env c) :
    ∃ p, c.iterate env = some (setWatchEvents .readable { c with httpParser := p }, false, []) := by
  obtain ⟨hread, p, state, hparse, hstate, p', span, hspan⟩ := hstarves
  refine ⟨p', ?_⟩
  unfold Connection.iterate
  rw [hparse]
  dsimp only
  rw [if_pos hstate]
  unfold readInput
  dsimp only
  rw [hspan]
  dsimp only
  rw [hread]

end Connection

end Http
end Katana
