import Katana.Http.Conversation

/-!
# The requests that are served

Every run of the handler on the text of some requests answers them one by one, in
order and each as it was sent, however the text was cut into reads and the
answers into writes, as long as no byte of an unfinished request is dropped.  The
requests up to the compaction threshold never lose a byte.
-/

namespace Katana
namespace Http

open Library

namespace Conversation

open Connection

variable {requests : List WireRequest} {s next : Conversation} {label : ServerLabel}

/-- Invariant of the runs: the requests are those served and those left, and the
connection holds what has arrived behind those served. -/
structure Serving (requests : List WireRequest) (s : Conversation) : Prop where
  sending : s.exchange.Sending Answer.closeRequested
  answers : s.exchange.answers = s.dispatched.map answerOf
  progress : ∃ served rest pending, requests = served ++ rest ∧
    List.Forall₂ (fun request given => Parser.Carries request.toRequestParts given.1)
      served s.dispatched ∧
    s.input = served.flatMap (·.render) ++ pending ∧ s.exchange.Holds rest pending

theorem serving_initial (requests : List WireRequest) : ({} : Conversation).Serving requests where
  sending := Exchange.sending_initial
  answers := rfl
  progress := ⟨[], requests, [], rfl, .nil, rfl, Exchange.holds_initial requests⟩

theorem step_exchange (h : s.step label = some next) :
    s.exchange.step label = some next.exchange := by
  cases label with
  | event writes =>
      obtain ⟨exchange, hexchange, hsame⟩ := Option.map_eq_some_iff.mp h
      rw [← hsame]
      exact hexchange
  | pass env =>
      obtain ⟨exchange, hexchange, hsame⟩ := Option.map_eq_some_iff.mp h
      rw [← hsame]
      exact hexchange

theorem step_input (h : s.step label = some next) : s.input <+: next.input := by
  cases label with
  | event writes =>
      obtain ⟨exchange, -, hsame⟩ := Option.map_eq_some_iff.mp h
      rw [← hsame]
  | pass env =>
      obtain ⟨exchange, -, hsame⟩ := Option.map_eq_some_iff.mp h
      rw [← hsame]
      exact List.prefix_append _ _

/-- What has arrived behind the requests served is text of those left. -/
theorem pending_prefix {served rest : List WireRequest} {input pending : List Byte}
    (hsplit : requests = served ++ rest) (hheld : input = served.flatMap (·.render) ++ pending)
    (hinput : input <+: requests.flatMap (·.render)) : pending <+: rest.flatMap (·.render) := by
  rw [hsplit, List.flatMap_append, hheld, List.prefix_append_right_inj] at hinput
  exact hinput

theorem left_fits {served rest : List WireRequest} {bound : ℕ} (hsplit : requests = served ++ rest)
    (hfits : ∀ request ∈ requests, request.render.length ≤ bound) :
    ∀ request ∈ rest, request.render.length ≤ bound := by
  intro request hmem
  apply hfits
  rw [hsplit]
  exact List.mem_append_right _ hmem

/-- The same with what a pass reads. -/
theorem arriving_prefix {served rest : List WireRequest} {input pending data : List Byte}
    (hsplit : requests = served ++ rest) (hheld : input = served.flatMap (·.render) ++ pending)
    (hinput : input ++ data <+: requests.flatMap (·.render)) :
    pending ++ data <+: rest.flatMap (·.render) := by
  apply pending_prefix hsplit _ hinput
  rw [hheld, List.append_assoc]

theorem Serving.event (h : s.Serving requests) {writes : List WriteResult}
    (hfits : ∀ request ∈ requests, request.render.length ≤ MAX_BUFFER_SIZE)
    (hinput : s.input <+: requests.flatMap (·.render))
    (hstep : s.step (.event writes) = some next) : next.Serving requests := by
  have hexchange := step_exchange hstep
  have hsending := h.sending.step (fun _ _ _ _ _ => rfl) hexchange
  obtain ⟨served, rest, pending, hsplit, hcarries, hheld, hholds⟩ := h.progress
  have hpending := pending_prefix hsplit hheld hinput
  obtain ⟨exchange, hinner, hsame⟩ := Option.map_eq_some_iff.mp hstep
  subst hsame
  unfold Exchange.step at hinner
  dsimp only at hinner
  split at hinner
  · cases hinner
  next hidle =>
    rw [Bool.or_eq_true, not_or, Bool.not_eq_true, Bool.not_eq_true, Bool.not_eq_false'] at hidle
    obtain ⟨result, hhandle, hsame⟩ := Option.map_eq_some_iff.mp hinner
    subst hsame
    have howing := h.sending.owing hidle.2
    have hleaves := handleEvent_leavesParser howing.ordered hhandle
    have hreceiving := hholds.idle hidle.1 hidle.2
    have hleft := left_fits hsplit hfits
    have hholds' := Exchange.holds_left hleaves hreceiving (hreceiving.unfinished hleft hpending)
      (hholds.roomy hidle.2) s.exchange.answers
    exact ⟨hsending, h.answers, ⟨served, rest, pending, hsplit, hcarries, hheld, hholds'⟩⟩

theorem Serving.pass (h : s.Serving requests) {env : Environment}
    (hfits : ∀ request ∈ requests, request.render.length ≤ MAX_BUFFER_SIZE)
    (hkeeps : s.exchange.connection.KeepsBytes env)
    (hinput : next.input <+: requests.flatMap (·.render))
    (hstep : s.step (.pass env) = some next) : next.Serving requests := by
  have hexchange := step_exchange hstep
  have hsending := h.sending.step (fun _ _ _ _ _ => rfl) hexchange
  obtain ⟨served, rest, pending, hsplit, hcarries, hheld, hholds⟩ := h.progress
  obtain ⟨exchange, hinner, hsame⟩ := Option.map_eq_some_iff.mp hstep
  subst hsame
  have hleft := left_fits hsplit hfits
  have harriving := arriving_prefix hsplit hheld hinput
  have harrived := (List.prefix_append _ _).trans harriving
  unfold Exchange.step at hinner
  dsimp only at hinner
  split at hinner
  next hlooping =>
    obtain ⟨outcome, hiterate, hsame⟩ := Option.map_eq_some_iff.mp hinner
    subst hsame
    have hbatching := h.sending.going hlooping
    have hroomy := hholds.roomy hbatching.watch
    rcases (hholds.looping hlooping).parseAvailable hleft harrived hkeeps.1 with
      ⟨request, later, behind, q, hrest, hfront, hparse, htaken⟩ |
        ⟨hunfinished, q, hparse, hwaits, hreading⟩
    · obtain ⟨hread, hdispatched, hanswers, hleaves⟩ :=
        iterate_taken hbatching hparse htaken.carries.complete hiterate
      have hreceiving := htaken.prepareForNextRequest.receiving
      have hcapacity := s.exchange.connection.httpParser.parseAvailable_bufferCapacity
      rw [hparse] at hcapacity
      have hroomy' : INITIAL_BUFFER_CAPACITY ≤ q.prepareForNextRequest.bufferCapacity := by
        rw [q.prepareForNextRequest_bufferCapacity]
        exact hroomy.trans hcapacity.ge
      rw [hfront, hrest, List.flatMap_cons, List.prefix_append_right_inj] at harrived
      rw [hrest] at hleft
      have hlater (request : WireRequest) (hmem : request ∈ later) :=
        hleft request (List.mem_cons_of_mem _ hmem)
      have hholds' := Exchange.holds_left hleaves hreceiving (hreceiving.unfinished hlater harrived)
        hroomy' (s.exchange.answers ++ outcome.2.2)
      rw [hread, List.append_nil, hdispatched]
      constructor
      · exact hsending
      · dsimp only
        rw [hanswers, h.answers, List.map_append, List.map_singleton]
      · apply Exists.intro (served ++ [request])
        apply Exists.intro later
        apply Exists.intro behind
        constructor
        · rw [hsplit, hrest, List.append_assoc, List.singleton_append]
        constructor
        · exact List.rel_append hcarries (.cons htaken.carries .nil)
        constructor
        · rw [hheld, hfront, List.flatMap_append, List.flatMap_singleton, List.append_assoc]
        · exact hholds'
    · obtain ⟨hdispatched, hmore⟩ :=
        iterate_waiting hparse hwaits hreading hleft harriving hkeeps hiterate
      have hholds' : Exchange.Holds rest (pending ++ s.exchange.connection.readBytes env)
          { connection := outcome.1, looping := outcome.2.1,
            answers := s.exchange.answers ++ outcome.2.2 } ∧ outcome.2.2 = [] := by
        generalize s.exchange.connection.readBytes env = data at hmore
        cases hmore with
        | gone hwatch => exact ⟨Exchange.holds_closed hwatch _, rfl⟩
        | starved hreceiving hcapacity =>
            rw [List.append_nil]
            constructor
            · constructor
              · nofun
              · exact fun _ _ => hreceiving
              · exact fun _ _ _ => hunfinished
              · exact fun _ => hroomy.trans hcapacity
            · rfl
        | read hawaits hcapacity =>
            constructor
            · constructor
              · exact fun _ => hawaits
              · nofun
              · nofun
              · exact fun _ => hroomy.trans hcapacity
            · rfl
      rw [hdispatched, List.append_nil]
      constructor
      · exact hsending
      · dsimp only
        rw [hholds'.2, List.append_nil, h.answers]
      · apply Exists.intro served
        apply Exists.intro rest
        apply Exists.intro (pending ++ s.exchange.connection.readBytes env)
        constructor
        · exact hsplit
        constructor
        · exact hcarries
        constructor
        · rw [hheld, List.append_assoc]
        · exact hholds'.1
  · cases hinner

theorem Serving.step (h : s.Serving requests)
    (hfits : ∀ request ∈ requests, request.render.length ≤ MAX_BUFFER_SIZE)
    (hkeeps : s.KeepsBytes label) (hinput : next.input <+: requests.flatMap (·.render))
    (hstep : s.step label = some next) : next.Serving requests := by
  cases label with
  | event writes => exact h.event hfits ((step_input hstep).trans hinput) hstep
  | pass env => exact h.pass hfits hkeeps hinput hstep

end Conversation

/-! ## Short requests -/

theorem unfinished_short {rest : List WireRequest} {pending : List Byte}
    (hunfinished : Unfinished rest pending) (hinput : pending <+: rest.flatMap (·.render))
    (hshort : ∀ request ∈ rest, request.render.length ≤ COMPACT_THRESHOLD) :
    pending.length ≤ COMPACT_THRESHOLD := by
  cases rest with
  | nil =>
      rw [List.prefix_nil.mp hinput]
      exact Nat.zero_le _
  | cons request later =>
      have hbound := hshort request (List.mem_cons_self ..)
      exact (hunfinished request rfl).le.trans hbound

/-- A loop that waits with little in the buffer drops nothing. -/
theorem Parser.stallDrops_short {p : Parser} (hsafe : p.Safe)
    (hshort : p.bufferSize ≤ COMPACT_THRESHOLD) :
    p.stallDrops = false := by
  have hinside := hsafe.parsePos
  have hconsumed : ¬COMPACT_THRESHOLD < p.parsePos := by omega
  have hlarge : ¬MAX_HEADER_SIZE * 2 < p.bufferSize := by
    have hlt : COMPACT_THRESHOLD ≤ MAX_HEADER_SIZE * 2 := by decide
    omega
  simp [stallDrops, hconsumed, hlarge]

theorem headChecked_pending {rest : List WireRequest} {pending : List Byte}
    (hinput : pending <+: rest.flatMap (·.render)) : Parser.headChecked pending = true := by
  cases rest with
  | nil =>
      rw [List.prefix_nil.mp hinput]
      decide
  | cons request later =>
      obtain ⟨more, hmore⟩ := hinput
      rw [List.flatMap_cons] at hmore
      have hchecked := request.headChecked (later.flatMap (·.render))
      rw [← hmore] at hchecked
      exact Parser.headChecked_of_append hchecked

/-- A parser that reads with less than a request in its buffer waits. -/
theorem Parser.Reading.unfinished {rest : List WireRequest} {pending : List Byte} {p : Parser}
    (h : p.Reading pending) (hwaits : p.Waits)
    (hinput : pending <+: rest.flatMap (·.render)) : Unfinished rest pending := by
  intro request hfirst
  cases rest with
  | nil => cases hfirst
  | cons first later =>
      cases hfirst
      by_contra hlong
      rw [List.flatMap_cons] at hinput
      obtain ⟨behind, hbehind⟩ := List.prefix_of_prefix_length_le
        (List.prefix_append request.render _) hinput (Nat.not_lt.mp hlong)
      have hsize := Parser.bytes_length h.fed.safe.written
      have hcapacity := h.fed.safe.bufferSize.trans h.fed.safe.bufferCapacity
      rw [h.fed.bytes] at hsize
      exact h.ne_request hwaits (by omega) behind hbehind.symm

theorem Awaits.availableKeeps {rest : List WireRequest} {pending : List Byte} {p : Parser}
    (h : Awaits rest pending p)
    (hshort : ∀ request ∈ rest, request.render.length ≤ COMPACT_THRESHOLD)
    (hinput : pending <+: rest.flatMap (·.render)) : p.AvailableKeeps := by
  intro q hcheck last hpasses hwaits
  cases h with
  | receiving h =>
      obtain ⟨checked, hchecked, hreading⟩ := h.checkInput (headChecked_pending hinput)
      rw [hcheck] at hchecked
      cases hchecked
      have hlast := hreading.loop hpasses
      have hlength := unfinished_short (hlast.unfinished hwaits hinput) hinput hshort
      have hsize := Parser.bytes_length hlast.fed.safe.written
      rw [hlast.fed.bytes] at hsize
      exact Parser.stallDrops_short hlast.fed.safe (hsize.ge.trans hlength)
  | taken h =>
      -- a request that has been taken is not parsed any further
      have hcomplete := h.carries.complete
      have houtside : p.inHeaderSection = false := by
        simp [Parser.inHeaderSection, hcomplete]
      have hsame : q = p := by
        rw [Parser.checkInput_outside houtside] at hcheck
        split at hcheck
        · cases hcheck
        · cases hcheck
          rfl
      have hstill : last = p := by
        have hpass (s next : Parser) (hs : s = p) (hagain : s.parsePass = .again next) :
            next = p := by
          rw [hs, Parser.parsePass_complete hcomplete] at hagain
          cases hagain
        exact hpasses.invariant hpass hsame
      rw [hstill] at hwaits
      exact absurd hcomplete hwaits.1

/-- What is read by a pass that waits for the rest of a request. -/
theorem Connection.iterate_received {c : Connection} {env : Environment} {p q : Parser}
    {span : Span} {data : List Byte} {outcome : Connection × Bool × List Answer}
    (hparse : c.httpParser.parseAvailable = (q, .ok q.state)) (hstate : q.state ≠ .complete)
    (hspan : q.writableInputSpan READ_SPAN_SIZE = (p, .ok span))
    (henv : env.read = .received data) (h : c.iterate env = some outcome) :
    c.readBytes env = data ∧ data.length ≤ READ_SPAN_SIZE := by
  constructor
  · unfold readBytes
    rw [hparse]
    dsimp only
    rw [if_neg hstate, hspan, henv]
  · unfold iterate at h
    rw [hparse] at h
    dsimp only at h
    rw [if_pos hstate] at h
    unfold readInput at h
    dsimp only at h
    rw [hspan, henv] at h
    dsimp only at h
    split at h
    · cases h
    next hlength =>
      rw [Bool.or_eq_true, not_or, decide_eq_true_iff, decide_eq_true_iff] at hlength
      exact Nat.not_lt.mp hlength.2

namespace Conversation

open Connection

variable {requests : List WireRequest} {s next : Conversation} {label : ServerLabel}

theorem Serving.keepsBytes (h : s.Serving requests)
    (hshort : ∀ request ∈ requests, request.render.length ≤ COMPACT_THRESHOLD)
    (hinput : next.input <+: requests.flatMap (·.render))
    (hstep : s.step label = some next) : s.KeepsBytes label := by
  cases label with
  | event writes => trivial
  | pass env =>
      obtain ⟨served, rest, pending, hsplit, -, hheld, hholds⟩ := h.progress
      obtain ⟨exchange, hinner, hsame⟩ := Option.map_eq_some_iff.mp hstep
      subst hsame
      have hleft := left_fits hsplit hshort
      have hfits (request : WireRequest) (hmem : request ∈ rest) :
          request.render.length ≤ MAX_BUFFER_SIZE :=
        (hleft request hmem).trans (by decide)
      have harriving := arriving_prefix hsplit hheld hinput
      have harrived := (List.prefix_append _ _).trans harriving
      unfold Exchange.step at hinner
      dsimp only at hinner
      split at hinner
      next hlooping =>
        obtain ⟨outcome, hiterate, -⟩ := Option.map_eq_some_iff.mp hinner
        have hbatching := h.sending.going hlooping
        have hroomy := hholds.roomy hbatching.watch
        have hawaits := hholds.looping hlooping
        have hkeeps := hawaits.availableKeeps hleft harrived
        constructor
        · exact hkeeps
        intro parsed hparsed hstate
        rcases hawaits.parseAvailable hfits harrived hkeeps with
          ⟨request, later, behind, q, -, -, hparse, htaken⟩ |
            ⟨hunfinished, q, hparse, hwaits, hreading⟩
        · rw [hparse] at hparsed
          cases hparsed
          exact absurd htaken.carries.complete hstate
        · have hcapacity := s.exchange.connection.httpParser.parseAvailable_bufferCapacity
          rw [hparse] at hparsed hcapacity
          cases hparsed
          have hlength := unfinished_short hunfinished harrived hleft
          have hsize := Parser.bytes_length hreading.fed.safe.written
          rw [hreading.fed.bytes] at hsize
          have hspanKeeps : q.spanDrops READ_SPAN_SIZE = false := by
            have hroom : INITIAL_BUFFER_CAPACITY = COMPACT_THRESHOLD + READ_SPAN_SIZE + 10240 := by
              decide
            have hfits : ¬q.bufferCapacity - q.bufferSize < READ_SPAN_SIZE := by
              dsimp only at hcapacity
              omega
            simp [Parser.spanDrops, hfits]
          constructor
          · exact hspanKeeps
          intro p span data hspan henv
          obtain ⟨hdata, hbound⟩ := iterate_received hparse hstate hspan henv hiterate
          have hsafe := Parser.writableInputSpan_safe READ_SPAN_SIZE hreading.fed.safe
          have hinside :=
            Parser.writableInputSpan_inside hreading.fed.safe (congrArg Prod.snd hspan)
          rw [hdata] at harriving
          rcases Parser.writableInputSpan_cases READ_SPAN_SIZE q with hmoved | ⟨hdrops, -⟩
          · rw [hspan] at hsafe hinside hmoved
            dsimp only at hsafe hinside hmoved
            have hroom : data.length ≤ p.bufferCapacity - p.bufferSize := by omega
            have hreceiving := hreading.receiving_writeInput hwaits hmoved hsafe hroom
            have hgrown : Awaits rest (pending ++ data) (p.writeInput data) :=
              .receiving hreceiving
            exact hgrown.availableKeeps hleft harriving
          · rw [hspanKeeps] at hdrops
            cases hdrops
      · cases hinner

theorem exec_input {labels : List ServerLabel} {s final : Conversation}
    (hexec : exec step s labels = some final) : s.input <+: final.input := by
  have hstep (t : Conversation) (label : ServerLabel) (next : Conversation)
      (ht : s.input <+: t.input) (hnext : t.step label = some next) : s.input <+: next.input :=
    ht.trans (step_input hnext)
  exact exec_invariant hstep (List.prefix_refl _) hexec

theorem Serving.keepsAlong {labels : List ServerLabel} {final : Conversation}
    (h : s.Serving requests)
    (hshort : ∀ request ∈ requests, request.render.length ≤ COMPACT_THRESHOLD)
    (hexec : exec Conversation.step s labels = some final)
    (hinput : final.input <+: requests.flatMap (·.render)) :
    Along Conversation.step KeepsBytes s labels := by
  induction labels generalizing s with
  | nil => trivial
  | cons label labels ih =>
      obtain ⟨middle, hstep, hrest⟩ := exec_cons.mp hexec
      have hmiddle := (exec_input hrest).trans hinput
      have hkeeps := h.keepsBytes hshort hmiddle hstep
      constructor
      · exact hkeeps
      · intro next hnext
        rw [hstep] at hnext
        cases hnext
        have hfits (request : WireRequest) (hmem : request ∈ requests) :
            request.render.length ≤ MAX_BUFFER_SIZE :=
          (hshort request hmem).trans (by decide)
        exact ih (h.step hfits hkeeps hmiddle hstep) hrest

/-- No run on requests up to the compaction threshold drops a byte of an unfinished
request. -/
theorem exec_keepsBytes (requests : List WireRequest)
    (hshort : ∀ request ∈ requests, request.render.length ≤ COMPACT_THRESHOLD)
    {labels : List ServerLabel} {final : Conversation}
    (hexec : exec step {} labels = some final)
    (hinput : final.input <+: requests.flatMap (·.render)) :
    Along step KeepsBytes {} labels :=
  (serving_initial requests).keepsAlong hshort hexec hinput

/-- Two requests, cut inside the first and inside the second, and their answers in
two writes. -/
def cutRun : List ServerLabel :=
  [.event [],
    .pass ⟨.received (bytesOf "GET /"), {}, []⟩,
    .pass ⟨.received (bytesOf " HTTP/1.1\r\n\r\nGE"), {}, []⟩,
    .pass ⟨.wouldBlock, {}, []⟩,
    .pass ⟨.received (bytesOf "T / HTTP/1.1\r\n\r\n"), {}, []⟩,
    .pass ⟨.wouldBlock, {}, [.accepted 10, .accepted 0]⟩,
    .event [.accepted 110]]

theorem cutRun_rests :
    ∃ final, exec step {} cutRun = some final ∧
      final.input = [getRequest, getRequest].flatMap (·.render) ∧ final.Rests := by
  have hlast : ((exec step {} cutRun).any fun final =>
      decide (final.input = [getRequest, getRequest].flatMap (·.render)) &&
        (!final.exchange.looping && (final.exchange.connection.watch &&
          !final.exchange.connection.hasPendingResponse))) = true := by
    decide +kernel
  cases hexec : exec step {} cutRun with
  | none =>
      rw [hexec] at hlast
      cases hlast
  | some final =>
      simp only [hexec, Option.any_some, Bool.and_eq_true, decide_eq_true_eq,
        Bool.not_eq_true'] at hlast
      exact ⟨final, rfl, hlast.1, hlast.2.1, hlast.2.2.1, hlast.2.2.2⟩

theorem exec_keepsBytes_cutRun : Along step KeepsBytes {} cutRun := by
  obtain ⟨final, hexec, hinput, -⟩ := cutRun_rests
  apply exec_keepsBytes [getRequest, getRequest] (by decide) hexec
  rw [hinput]

end Conversation

end Http
end Katana
