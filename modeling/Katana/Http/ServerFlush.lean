import Katana.Http.Server

/-!
# Writing responses

Writes move bytes from the active response to the socket, and a response that
waits in the queue follows the active one.  So the bytes accepted by the socket
followed by those still unsent do not change while responses are flushed, unless
the connection is given up.
-/

namespace Katana
namespace Http

open Library

namespace Connection

/-- The bytes of the active response that the socket has not accepted. -/
def activeRest (c : Connection) : List Byte :=
  (c.activeResponse ++ c.activeResponseBody).drop c.writePos

def queued (c : Connection) : List Byte :=
  c.queuedResponse ++ c.queuedResponseBody

def unsent (c : Connection) : List Byte :=
  c.activeRest ++ c.queued

theorem activeRest_length (c : Connection) :
    c.activeRest.length = c.pendingResponseBytes - c.writePos := by
  rw [activeRest, List.length_drop, List.length_append]
  rfl

theorem hasPendingResponse_eq_false {c : Connection} :
    c.hasPendingResponse = false ↔ c.activeRest = [] := by
  rw [hasPendingResponse, decide_eq_false_iff_not, ← List.length_eq_zero_iff, activeRest_length]
  omega

theorem hasPendingResponse_eq_true {c : Connection} :
    c.hasPendingResponse = true ↔ c.activeRest ≠ [] := by
  rw [ne_eq, ← hasPendingResponse_eq_false, Bool.not_eq_false]

/-- Head and body are offered to the socket as one byte string. -/
theorem offered_eq (c : Connection) : c.offered = c.activeRest := by
  unfold offered activeRest
  split
  next hbody => rw [hbody, List.append_nil]
  split
  next hhead => rw [List.drop_append_of_le_length hhead.le]
  next hhead =>
    rw [List.drop_append, List.drop_eq_nil_of_le (Nat.not_lt.mp hhead), List.nil_append]

/-- Some bytes of the active response have been accepted, and nothing else has
changed. -/
def Wrote (c c' : Connection) : Prop :=
  ∃ sent, c.activeRest = sent ++ c'.activeRest ∧
    c' = { c with socket := c.socket ++ sent, writePos := c'.writePos }

theorem Wrote.refl (c : Connection) : c.Wrote c :=
  ⟨[], rfl, by rw [List.append_nil]⟩

theorem Wrote.trans {c d e : Connection} (hcd : c.Wrote d) (hde : d.Wrote e) : c.Wrote e := by
  obtain ⟨sent, hrest, hsame⟩ := hcd
  obtain ⟨sent', hrest', hsame'⟩ := hde
  refine ⟨sent ++ sent', by rw [hrest, hrest', List.append_assoc], ?_⟩
  rw [hsame', hsame]
  simp only [List.append_assoc]

theorem wrote_accepted {c : Connection} (count : ℕ) :
    c.Wrote
      { c with socket := c.socket ++ c.offered.take count, writePos := c.writePos + count } := by
  refine ⟨c.offered.take count, ?_, rfl⟩
  rw [offered_eq]
  show c.activeRest = c.activeRest.take count ++
    (c.activeResponse ++ c.activeResponseBody).drop (c.writePos + count)
  rw [← List.drop_drop]
  exact (List.take_append_drop count _).symm

/-- What `flush_active_response` leaves behind, by its result. -/
def FlushedTo (middle c' : Connection) : FlushResult → Prop
  | .complete => middle.activeRest = [] ∧
      c' = { middle with activeResponse := [], activeResponseBody := [], writePos := 0 }
  | .blocked => middle.hasPendingResponse = true ∧ c' = middle
  | .error => ∃ sent, sent <+: middle.activeRest ∧
      c' = { middle with socket := middle.socket ++ sent }

theorem flushActiveResponse_spec {writes rest : List WriteResult} {c c' : Connection}
    {r : FlushResult} (h : flushActiveResponse writes c = some (c', r, rest)) :
    ∃ middle, c.Wrote middle ∧ FlushedTo middle c' r ∧
      (c.hasPendingResponse = true → rest.length < writes.length) := by
  induction writes generalizing c with
  | nil =>
      unfold flushActiveResponse at h
      split at h
      · cases h
      next hdone =>
        have hnone : c.hasPendingResponse = false := decide_eq_false hdone
        cases h
        refine ⟨_, .refl _, ⟨(hasPendingResponse_eq_false).mp hnone, rfl⟩, ?_⟩
        rw [hnone]
        nofun
  | cons write writes ih =>
      unfold flushActiveResponse at h
      split at h
      next hpending =>
        have hsome : c.hasPendingResponse = true := decide_eq_true hpending
        cases write with
        | failed count =>
            dsimp only at h
            split at h
            · cases h
              refine ⟨c, .refl c, ⟨c.offered.take count, ?_, rfl⟩, fun _ => Nat.lt_succ_self _⟩
              rw [offered_eq]
              exact List.take_prefix _ _
            · cases h
        | accepted count =>
            dsimp only at h
            split at h
            · cases h
              exact ⟨_, .refl _, ⟨hsome, rfl⟩, fun _ => Nat.lt_succ_self _⟩
            split at h
            · obtain ⟨middle, hwrote, hresult, hlength⟩ := ih h
              refine ⟨middle, (wrote_accepted count).trans hwrote, hresult, fun _ => ?_⟩
              rw [List.length_cons]
              by_cases hmore : Connection.hasPendingResponse { c with
                  socket := c.socket ++ c.offered.take count, writePos := c.writePos + count } =
                    true
              · exact (hlength hmore).trans (Nat.lt_succ_self _)
              · -- everything has been written, and no further outcome is used
                rw [Bool.not_eq_true] at hmore
                cases writes with
                | nil =>
                    unfold flushActiveResponse at h
                    rw [if_neg (of_decide_eq_false hmore)] at h
                    cases h
                    exact Nat.lt_succ_self _
                | cons next writes =>
                    unfold flushActiveResponse at h
                    rw [if_neg (of_decide_eq_false hmore)] at h
                    cases h
                    exact Nat.lt_succ_self _
            · cases h
      next hdone =>
        have hnone : c.hasPendingResponse = false := decide_eq_false hdone
        cases h
        refine ⟨_, .refl _, ⟨(hasPendingResponse_eq_false).mp hnone, rfl⟩, ?_⟩
        rw [hnone]
        nofun

theorem flushPass_decreases : Decreases flushPass (fun s => s.2.length) := by
  intro s next h
  unfold flushPass at h
  split at h
  · cases h
  next hpending =>
    rw [Bool.not_eq_true, Bool.not_eq_false'] at hpending
    split at h
    · cases h
    · cases h
    · cases h
    next hflush =>
      obtain ⟨middle, -, -, hlength⟩ := flushActiveResponse_spec hflush
      split at h
      · cases h
      · cases h
        exact hlength hpending

/-! ## Order of the buffers -/

/-- Whether the last response that is not fully written asks for the close. -/
def closing (c : Connection) : Bool :=
  if c.queued = [] then c.closeRequested else c.queuedCloseRequested

theorem closing_of_queued_nil {c : Connection} (hnone : c.queued = []) :
    c.closing = c.closeRequested :=
  if_pos hnone

theorem closing_of_queued_ne {c : Connection} (hbehind : c.queued ≠ []) :
    c.closing = c.queuedCloseRequested :=
  if_neg hbehind

/-- A response waits in the queue only behind an active one, and only the last
response closes the connection. -/
structure Ordered (c : Connection) : Prop where
  queueBehind : c.hasPendingResponse = false → c.queued = []
  counted : c.queued = [] → c.queuedResponseCompletedRequests = 0
  lastCloses : c.queued ≠ [] → c.closeRequested = false
  closesPending : c.closing = true → c.hasPendingResponse = true
  clean : c.hasPendingResponse = false →
    c.activeResponse = [] ∧ c.activeResponseBody = [] ∧ c.writePos = 0

theorem hasQueuedResponse_eq {c : Connection}
    (hcounted : c.queued = [] → c.queuedResponseCompletedRequests = 0) :
    c.hasQueuedResponse = true ↔ c.queued ≠ [] := by
  unfold hasQueuedResponse
  rw [Bool.or_eq_true, decide_eq_true_iff, decide_eq_true_iff, queuedResponseBytes,
    ← List.length_append]
  show c.queued.length ≠ 0 ∨ _ ↔ _
  rw [ne_eq, List.length_eq_zero_iff]
  constructor
  · rintro (hbytes | hcount) hempty
    · exact hbytes hempty
    · exact hcount (hcounted hempty)
  · exact .inl

theorem setWatchEvents_eq (events : EventType) (c : Connection) :
    c.setWatchEvents events = { c with watchEvents := (c.setWatchEvents events).watchEvents } := by
  unfold setWatchEvents
  split <;> rfl

theorem setWatchEvents_watchEvents {events : EventType} {c : Connection} (hwatch : c.watch = true) :
    (c.setWatchEvents events).watchEvents = events := by
  unfold setWatchEvents
  split
  next hsame =>
    rw [hwatch] at hsame
    exact of_decide_eq_true hsame
  · rfl

/-- The same bytes are owed, in the same order, and the close is still to come. -/
structure Keeps (c c' : Connection) : Prop where
  watch : c'.watch = c.watch
  owed : c'.socket ++ c'.unsent = c.socket ++ c.unsent
  ordered : c'.Ordered
  closing : c'.closing = c.closing

theorem Keeps.trans {c d e : Connection} (hcd : c.Keeps d) (hde : d.Keeps e) : c.Keeps e where
  watch := hde.watch.trans hcd.watch
  owed := hde.owed.trans hcd.owed
  ordered := hde.ordered
  closing := hde.closing.trans hcd.closing

theorem Wrote.owed {c c' : Connection} (hwrote : c.Wrote c') :
    c'.socket ++ c'.unsent = c.socket ++ c.unsent := by
  obtain ⟨sent, hrest, hsame⟩ := hwrote
  have hsocket : c'.socket = c.socket ++ sent := by rw [hsame]
  have hqueued : c'.queued = c.queued := by rw [hsame]; rfl
  rw [unsent, unsent, hqueued, hrest, hsocket]
  simp only [List.append_assoc]

/-- A write that leaves something pending keeps the order of the buffers. -/
theorem Wrote.keeps {c c' : Connection} (hordered : c.Ordered) (hwrote : c.Wrote c')
    (hpending : c'.hasPendingResponse = true) : c.Keeps c' := by
  have howed := hwrote.owed
  obtain ⟨sent, -, hsame⟩ := hwrote
  have hnot (hnone : c'.hasPendingResponse = false) : False := by
    rw [hpending] at hnone
    cases hnone
  have hqueued : c'.queued = c.queued := by rw [hsame]; rfl
  have hclosing : c'.closing = c.closing := by rw [hsame]; rfl
  have hclose : c'.closeRequested = c.closeRequested := by rw [hsame]
  have hcount : c'.queuedResponseCompletedRequests = c.queuedResponseCompletedRequests := by
    rw [hsame]
  constructor
  · rw [hsame]
  · exact howed
  · constructor
    · exact fun hnone => (hnot hnone).elim
    · rw [hqueued, hcount]
      exact hordered.counted
    · rw [hqueued, hclose]
      exact hordered.lastCloses
    · exact fun _ => hpending
    · exact fun hnone => (hnot hnone).elim
  · exact hclosing

/-- The response behind a finished one takes its place. -/
theorem Keeps.nextResponse {c middle : Connection} (hordered : c.Ordered) (hwrote : c.Wrote middle)
    (hdone : middle.activeRest = []) (hopen : middle.closeRequested = false) :
    c.Keeps (nextResponse { middle with
      activeResponse := [], activeResponseBody := [], writePos := 0
      activeResponseCompletedRequests := 0 }) := by
  have howed := hwrote.owed
  rw [unsent, hdone, List.nil_append] at howed
  obtain ⟨sent, -, hsame⟩ := hwrote
  have hwatch : middle.watch = c.watch := by rw [hsame]
  have hqueued : middle.queued = c.queued := by rw [hsame]; rfl
  have hclosing : middle.closing = c.closing := by rw [hsame]; rfl
  have hcounted : middle.queued = [] → middle.queuedResponseCompletedRequests = 0 := by
    have hcount : middle.queuedResponseCompletedRequests = c.queuedResponseCompletedRequests := by
      rw [hsame]
    rw [hqueued, hcount]
    exact hordered.counted
  unfold Connection.nextResponse
  dsimp only
  split
  next hbehind =>
    have hbehind : middle.queued ≠ [] := (hasQueuedResponse_eq hcounted).mp hbehind
    have hpending : Connection.hasPendingResponse
        (promoteQueuedResponse { middle with
          activeResponse := [], activeResponseBody := [], writePos := 0
          activeResponseCompletedRequests := 0, closeRequested := false }) = true :=
      (hasPendingResponse_eq_true).mpr hbehind
    constructor
    · exact hwatch
    · rw [← howed]
      show _ ++ (middle.queued ++ []) = _
      rw [List.append_nil]
      rfl
    · constructor
      · exact fun _ => rfl
      · exact fun _ => rfl
      · exact fun hne => (hne rfl).elim
      · exact fun _ => hpending
      · intro hnone
        rw [hpending] at hnone
        cases hnone
    · rw [← hclosing, closing_of_queued_ne hbehind]
      rfl
  next hbehind =>
    have hnone : middle.queued = [] := by
      by_contra hne
      exact hbehind ((hasQueuedResponse_eq hcounted).mpr hne)
    constructor
    · exact hwatch
    · exact howed
    · constructor
      · exact fun _ => hnone
      · exact hcounted
      · exact fun _ => rfl
      · intro hclose
        rw [closing_of_queued_nil] at hclose
        · cases hclose
        · exact hnone
      · exact fun _ => ⟨rfl, rfl, rfl⟩
    · rw [← hclosing, closing_of_queued_nil hnone, hopen]
      apply closing_of_queued_nil
      exact hnone

theorem Keeps.flushPass {c : Connection} {s next : Connection × List WriteResult}
    (hkeeps : c.Keeps s.1) (h : flushPass s = .again next) : c.Keeps next.1 := by
  unfold Connection.flushPass at h
  split at h
  · cases h
  split at h
  · cases h
  · cases h
  · cases h
  next hflush =>
    obtain ⟨middle, hwrote, ⟨hdone, hresult⟩, -⟩ := flushActiveResponse_spec hflush
    split at h
    · cases h
    next hopen =>
      rw [Bool.not_eq_true] at hopen
      cases h
      rw [hresult] at hopen ⊢
      have hnext := Keeps.nextResponse hkeeps.ordered hwrote hdone hopen
      exact hkeeps.trans hnext

/-- What `flush_ready_responses` leaves behind: everything is written, or the
rest waits for the socket, or the connection is given up. -/
inductive Flushed (c : Connection) : Connection × Bool → Prop
  | written {c'} (hkeeps : c.Keeps c') (hnone : c'.hasPendingResponse = false) :
      Flushed c (c', true)
  | blocked {c'} (hkeeps : c.Keeps c') (hpending : c'.hasPendingResponse = true)
      (harmed : c'.watch = true → c'.watchEvents = .writable) : Flushed c (c', false)
  | gone {c'} (hwatch : c'.watch = false) (hsocket : c'.socket <+: c.socket ++ c.unsent) :
      Flushed c (c', false)

theorem Keeps.setWatchEvents {c c' : Connection} (events : EventType) (hkeeps : c.Keeps c') :
    c.Keeps (c'.setWatchEvents events) := by
  rw [setWatchEvents_eq]
  exact ⟨hkeeps.watch, hkeeps.owed,
    ⟨hkeeps.ordered.queueBehind, hkeeps.ordered.counted, hkeeps.ordered.lastCloses,
      hkeeps.ordered.closesPending, hkeeps.ordered.clean⟩, hkeeps.closing⟩

theorem flushReadyResponses_spec {writes : List WriteResult} {c : Connection}
    {result : Connection × Bool} (hordered : c.Ordered)
    (h : c.flushReadyResponses writes = some result) : Flushed c result := by
  have hend := evalLoop_endsWith flushPass_decreases (fun _ => none) (c, writes)
  unfold flushReadyResponses at h
  rw [h] at hend
  obtain ⟨last, hpasses, hlast⟩ := hend
  have hkeeps : c.Keeps last.1 :=
    hpasses.invariant (fun _ _ => Keeps.flushPass) ⟨rfl, rfl, hordered, rfl⟩
  unfold Connection.flushPass at hlast
  split at hlast
  next hnone =>
    rw [Bool.not_eq_true'] at hnone
    cases hlast
    exact .written hkeeps hnone
  split at hlast
  · cases hlast
  next hflush =>
    obtain ⟨middle, hwrote, ⟨hpending, hresult⟩, -⟩ := flushActiveResponse_spec hflush
    cases hlast
    cases hresult
    have hwaits := hkeeps.trans (hwrote.keeps hkeeps.ordered hpending)
    apply Flushed.blocked (hwaits.setWatchEvents _)
    · rw [setWatchEvents_eq]
      exact hpending
    · intro hwatch
      rw [setWatchEvents_eq] at hwatch
      exact setWatchEvents_watchEvents hwatch
  next hflush =>
    obtain ⟨middle, hwrote, ⟨sent, hsent, hresult⟩, -⟩ := flushActiveResponse_spec hflush
    cases hlast
    refine .gone rfl ?_
    rw [← hkeeps.owed, ← hwrote.owed, hresult]
    exact (List.prefix_append_right_inj _).mpr (hsent.trans (List.prefix_append _ _))
  next hflush =>
    obtain ⟨middle, hwrote, ⟨-, hresult⟩, -⟩ := flushActiveResponse_spec hflush
    split at hlast
    · cases hlast
      refine .gone rfl ?_
      rw [← hkeeps.owed, ← hwrote.owed, hresult]
      exact List.prefix_append _ _
    · cases hlast

end Connection

end Http
end Katana
