import Katana.Http.ServerSteps
import Katana.Library.Transition

/-!
# Response order and integrity

The bytes accepted by the socket are a first part of the responses in request
order, and nothing follows the response to a request that asked for the close.
A response of the dispatcher may announce the close of its own accord; the
handler does not act on that header, so such a response can be followed by
others.
-/

namespace Katana
namespace Http

open Library

def Response.announcesClose (resp : Response) : Bool :=
  (resp.headers.getField .connection).any fun value => ciEqual (value.read []) (bytesOf "close")

/-- The response says that it is the last one, or its request asked for that. -/
def Answer.closes (a : Answer) : Bool :=
  a.closeRequested || a.response.announcesClose

/-- The responses in request order. -/
def Exchange.output (s : Exchange) : List Byte :=
  s.answers.flatMap (·.response.serialize)

/-- The socket has accepted a first part of the output and nothing behind an
answer that closes. -/
structure Exchange.InOrder (closes : Answer → Bool) (s : Exchange) : Prop where
  sent : s.connection.socket <+: s.output
  closed : ∀ before a after, s.answers = before ++ a :: after → closes a = true →
    s.connection.socket <+: (before ++ [a]).flatMap (·.response.serialize)

/-- The dispatcher announces the close only where the request asked for it. -/
def Exchange.AnnouncesRequested (s : Exchange) : ServerLabel → Prop
  | .event _ => True
  | .pass env =>
      s.looping = true → s.connection.httpParser.parseAvailable.2.isOk = true →
        s.connection.httpParser.parseAvailable.1.state = .complete →
        env.response.announcesClose = true →
        Connection.closeConnection s.connection.httpParser.parseAvailable.1 = true

instance (s : Exchange) (label : ServerLabel) : Decidable (s.AnnouncesRequested label) :=
  match label with
  | .event _ => inferInstanceAs (Decidable True)
  | .pass _ => inferInstanceAs (Decidable (_ → _ → _ → _ → _))

namespace Exchange

open Connection

variable {closes : Answer → Bool}

/-- Invariant of the runs: what is unsent completes the output, and only the last
answer closes. -/
structure Sending (closes : Answer → Bool) (s : Exchange) : Prop where
  going : s.looping = true → s.connection.Batching
  owing : s.connection.watch = true → s.connection.Owing s.output (s.answers.any closes)
  sent : s.connection.socket <+: s.output
  last : ∀ a ∈ s.answers.dropLast, closes a = false

theorem sending_initial : ({} : Exchange).Sending closes where
  going := nofun
  owing _ := by
    constructor
    · rfl
    · rfl
    · constructor
      · exact fun _ => rfl
      · exact fun _ => rfl
      · exact fun hne => (hne rfl).elim
      · nofun
      · exact fun _ => ⟨rfl, rfl, rfl⟩
    · rfl
  sent := List.nil_prefix
  last _ := nofun

theorem Sending.inOrder {s : Exchange} (hsending : s.Sending closes) : s.InOrder closes := by
  constructor
  · exact hsending.sent
  · intro before a after hanswers hcloses
    have hlast : after = [] := by
      by_contra hne
      have hmem : a ∈ s.answers.dropLast := by
        rw [hanswers, List.dropLast_append_of_ne_nil (List.cons_ne_nil _ _),
          List.dropLast_cons_of_ne_nil hne]
        exact List.mem_append_right _ (List.mem_cons_self ..)
      rw [hsending.last a hmem] at hcloses
      cases hcloses
    have hsent := hsending.sent
    rw [output, hanswers, hlast] at hsent
    exact hsent

/-- While the handler runs no answer has closed. -/
theorem Sending.open {s : Exchange} (hsending : s.Sending closes) (hlooping : s.looping = true) :
    ∀ a ∈ s.answers, closes a = false := by
  have hbatching := hsending.going hlooping
  have hany := (hsending.owing hbatching.watch).closing.symm.trans hbatching.closing
  rw [List.any_eq_false] at hany
  exact fun a ha => eq_false_of_ne_true (hany a ha)

theorem Sending.of_handled {s : Exchange} {c : Connection} {looping : Bool}
    (hhandled : Handled s.output (s.answers.any closes) (c, looping))
    (hlast : ∀ a ∈ s.answers.dropLast, closes a = false) :
    ({ s with connection := c, looping } : Exchange).Sending closes := by
  cases hhandled with
  | going hbatching howing =>
      refine ⟨fun _ => hbatching, fun _ => howing, ?_, hlast⟩
      exact ⟨_, howing.owed⟩
  | waiting howing harmed =>
      refine ⟨nofun, fun _ => howing, ?_, hlast⟩
      exact ⟨_, howing.owed⟩
  | gone hwatch hsocket =>
      refine ⟨nofun, fun hopen => ?_, hsocket, hlast⟩
      rw [hwatch] at hopen
      cases hopen

/-- One more answer, given while the handler runs. -/
theorem Sending.answered {s : Exchange} (hsending : s.Sending closes)
    (hlooping : s.looping = true) {a : Answer} (hcloses : closes a = a.closeRequested)
    {c : Connection} {looping : Bool}
    (hhandled : Handled (s.connection.socket ++ s.connection.unsent ++ a.response.serialize)
      a.closeRequested (c, looping)) :
    ({ connection := c, looping, answers := s.answers ++ [a] } : Exchange).Sending closes := by
  have hopen := hsending.open hlooping
  have howing := hsending.owing (hsending.going hlooping).watch
  have houtput : s.connection.socket ++ s.connection.unsent ++ a.response.serialize =
      ({ s with answers := s.answers ++ [a] } : Exchange).output := by
    unfold output
    rw [howing.owed, output, List.flatMap_append, List.flatMap_singleton]
  have hany : a.closeRequested = (s.answers ++ [a]).any closes := by
    rw [List.any_append, howing.closing.symm.trans (hsending.going hlooping).closing,
      List.any_cons, List.any_nil, hcloses, Bool.or_false, Bool.false_or]
  rw [houtput, hany] at hhandled
  have hlast : ∀ b ∈ (s.answers ++ [a]).dropLast, closes b = false := by
    rw [List.dropLast_concat]
    exact hopen
  have hsending' := Sending.of_handled hhandled hlast
  exact hsending'

theorem Sending.step {s next : Exchange} {label : ServerLabel} (hsending : s.Sending closes)
    (hcloses : ∀ env a, label = .pass env → s.looping = true → AnswerTo env s.connection a →
      closes a = a.closeRequested)
    (h : s.step label = some next) : next.Sending closes := by
  cases label with
  | event writes =>
      unfold Exchange.step at h
      dsimp only at h
      split at h
      · cases h
      next hidle =>
        rw [Bool.or_eq_true, not_or, Bool.not_eq_true, Bool.not_eq_true, Bool.not_eq_false'] at hidle
        rw [Option.map_eq_some_iff] at h
        obtain ⟨result, hhandle, hsame⟩ := h
        cases hsame
        have hhandled := handleEvent_spec (hsending.owing hidle.2) hhandle
        exact .of_handled hhandled hsending.last
  | pass env =>
      unfold Exchange.step at h
      dsimp only at h
      split at h
      next hlooping =>
        rw [Option.map_eq_some_iff] at h
        obtain ⟨outcome, hiterate, hsame⟩ := h
        cases hsame
        have hbatching := hsending.going hlooping
        have howing := hsending.owing hbatching.watch
        cases iterate_spec hbatching hiterate with
        | answered hanswer hhandled =>
            exact hsending.answered hlooping (hcloses env _ rfl hlooping hanswer) hhandled
        | read p =>
            rw [List.append_nil]
            exact ⟨fun _ => hbatching.setParser p, fun _ => howing.setParser p, hsending.sent,
              hsending.last⟩
        | starved hstarves p =>
            rw [List.append_nil]
            have howing' := (howing.setParser p).setWatchEvents .readable
            exact ⟨nofun, fun _ => howing', ⟨_, howing'.owed⟩, hsending.last⟩
        | closed p =>
            rw [List.append_nil]
            exact ⟨nofun, nofun, hsending.sent, hsending.last⟩
      · cases h

/-- The handler's own header tells the truth. -/
theorem announcesClose_announceConnection (close : Bool) (resp : Response)
    (h : (announceConnection close resp).announcesClose = true) :
    close = true ∨ resp.announcesClose = true := by
  unfold announceConnection at h
  split at h
  · exact .inr h
  · have hknown : Field.connection ≠ .unknown := by decide
    unfold Response.announcesClose at h
    dsimp only at h
    rw [HeadersMap.getField_setKnownBorrowed_self hknown] at h
    cases close with
    | true => exact .inl rfl
    | false =>
        have hkeep : ciEqual ((View.owned (bytesOf "keep-alive")).truncate16.read [])
            (bytesOf "close") = false := by decide
        cases hkeep.symm.trans h

theorem closes_eq_closeRequested {s : Exchange} {env : Environment} {a : Answer}
    (hanswer : AnswerTo env s.connection a) (hlooping : s.looping = true)
    (hannounces : s.AnnouncesRequested (.pass env)) : a.closes = a.closeRequested := by
  unfold Answer.closes
  rcases hanswer with rfl | ⟨p, state, hparse, hstate, rfl⟩
  · rfl
  · cases hclose : closeConnection p with
    | true => rfl
    | false =>
        dsimp only
        rw [Bool.false_or, ← Bool.not_eq_true]
        intro hannounced
        rcases announcesClose_announceConnection false _ hannounced with hfalse | hannounced
        · cases hfalse
        · have hrequested := hannounces hlooping
          rw [hparse, hclose] at hrequested
          cases hrequested rfl hstate hannounced

/-- Every run sends its responses in order and stops behind the one whose request
asked for the close. -/
theorem exec_inOrder_requested {labels : List ServerLabel} {final : Exchange}
    (hexec : exec step {} labels = some final) : final.InOrder Answer.closeRequested :=
  (exec_invariant (fun _ _ _ hsending => hsending.step fun _ _ _ _ _ => rfl) sending_initial
    hexec).inOrder

/-- If the dispatcher announces the close only to requests that ask for it, every
run sends its responses in order and nothing behind one that announces the close. -/
theorem exec_inOrder {labels : List ServerLabel} {final : Exchange}
    (hannounced : Along step AnnouncesRequested {} labels)
    (hexec : exec step {} labels = some final) : final.InOrder Answer.closes := by
  have hstep (s : Exchange) (label : ServerLabel) (next : Exchange)
      (hsending : s.Sending Answer.closes) (hannounces : s.AnnouncesRequested label)
      (h : s.step label = some next) : next.Sending Answer.closes := by
    apply hsending.step _ h
    rintro env a rfl hlooping hanswer
    exact closes_eq_closeRequested hanswer hlooping hannounces
  exact (exec_invariant_along hstep sending_initial hannounced hexec).inOrder

/-- A request that asks for the close, and its answer in two writes. -/
def closedRun : List ServerLabel :=
  [.event [],
    .pass ⟨.received (bytesOf "GET / HTTP/1.1" ++ CRLF ++ bytesOf "Connection: close" ++ CRLF ++
      CRLF), {}, []⟩,
    .pass ⟨.wouldBlock,
      { headers := ({} : HeadersMap).setKnown .connection (bytesOf "close") }, [.accepted 10, .accepted 0]⟩,
    .event [.accepted 20, .accepted 0]]

theorem exec_inOrder_closed :
    ∃ final, exec step {} closedRun = some final ∧ final.InOrder Answer.closes := by
  have hlast : (exec step {} closedRun).isSome = true := by decide +kernel
  cases hexec : exec step {} closedRun with
  | none =>
      rw [hexec] at hlast
      cases hlast
  | some final => exact ⟨final, rfl, exec_inOrder (by decide +kernel) hexec⟩

/-- Two requests in one piece. -/
def twoRequests : List Byte :=
  bytesOf "GET / HTTP/1.1" ++ CRLF ++ CRLF ++ bytesOf "GET / HTTP/1.1" ++ CRLF ++ CRLF

/-- The dispatcher announces the close to the first request, which did not ask
for it. -/
def announcedRun : List ServerLabel :=
  [.event [],
    .pass ⟨.received twoRequests, {}, []⟩,
    .pass ⟨.wouldBlock,
      { headers := ({} : HeadersMap).setKnown .connection (bytesOf "close") }, []⟩,
    .pass ⟨.wouldBlock, {}, [.accepted 100, .accepted 0]⟩]

theorem announcedRun_goesOn :
    ∃ final, exec step {} announcedRun = some final ∧ ¬ final.InOrder Answer.closes := by
  have hlast : ((exec step {} announcedRun).any fun final =>
      final.answers.head?.any fun a =>
        a.closes && a.response.serialize.length < final.connection.socket.length) = true := by
    decide +kernel
  cases hexec : exec step {} announcedRun with
  | none =>
      rw [hexec] at hlast
      cases hlast
  | some final =>
      rw [hexec] at hlast
      refine ⟨final, rfl, fun hinOrder => ?_⟩
      cases hanswers : final.answers with
      | nil =>
          rw [Option.any_some, hanswers] at hlast
          cases hlast
      | cons a after =>
          rw [Option.any_some, hanswers, List.head?_cons, Option.any_some, Bool.and_eq_true,
            decide_eq_true_iff] at hlast
          have hshort := (hinOrder.closed [] a after hanswers hlast.1).length_le
          rw [List.nil_append, List.flatMap_singleton] at hshort
          exact absurd hlast.2 (Nat.not_lt.mpr hshort)

end Exchange

end Http
end Katana
