import Katana.Reactor.Epoll

/-!
# Deferred closes

The loop of `epoll_reactor::run` around the functions of the reactor.  A descriptor
that has timed out is closed at once, or put into a queue of which at most two are
closed at the end of a pass, and two more when the loop has been left.  Beside the
reactor runs an account of what was asked for and what was done.
-/

namespace Katana
namespace Reactor

open Library Timer

namespace EpollReactor

/-! ## What a step does about descriptors -/

/-- `queue_fd_close` closes the descriptor itself. -/
def closesInline (s : EpollReactor) : Bool :=
  (0 < s.inlineBudget && s.deferredCloses.isEmpty) ||
    !(s.deferredCloses.length < DEFERRED_CLOSES)

/-- What `queue_fd_close` is called for. -/
def asks (s : EpollReactor) : ReactorLabel → List ℕ
  | .callbackDone =>
      match s.handling with
      | .callback fd => [fd]
      | _ => []
  | _ => []

/-- What is closed because `queue_fd_close` was called. -/
def closes (s : EpollReactor) : ReactorLabel → List ℕ
  | .callbackDone =>
      match s.handling with
      | .callback fd => if s.closesInline then [fd] else []
      | _ => []
  | .flushDeferredCloses => s.deferredCloses.take MAX_BATCH
  | _ => []

def registers : ReactorLabel → List ℕ
  | .registerFd fd _ _ epollOk | .registerFdWithTimeout fd _ _ _ epollOk =>
      if epollOk then [fd] else []
  | _ => []

def unregisters (s : EpollReactor) : ReactorLabel → List ℕ
  | .unregisterFd fd epollOk => if (s.fdStates fd).callback && epollOk then [fd] else []
  | _ => []

end EpollReactor

/-! ## The loop -/

/-- Where `run` stands; behind `wheel` the time is the one the pass began with. -/
inductive RunPhase where
  | outside
  | top
  | wheel (loopNow : ℕ)
  | ticking (loopNow : ℕ)
  | tasks (loopNow : ℕ)
  | polling
  | events
  | forcing (fd : ℕ)
  | forcedCallback (fd : ℕ)
  | leaving
  | returned
  | failed
  deriving DecidableEq

/-- What has been asked of the reactor, and what it has done. -/
structure CloseHistory where
  asked : List ℕ := []
  closed : List ℕ := []
  /-- Registered since it was last to be closed. -/
  anew : ℕ → Bool := fun _ => false
  registered : ℕ := 0
  unregistered : ℕ := 0

structure ReactorRun where
  reactor : EpollReactor
  /-- `fd_states_.size()` -/
  fdCount : ℕ := 0
  running : Bool := false
  gracefulShutdown : Bool := false
  gracefulDeadline : ℤ := 0
  phase : RunPhase := .outside
  history : CloseHistory := {}

inductive RunLabel where
  | run
  | stop
  | gracefulStop (now : ℕ) (timeout : Int64)
  | look (now : ℕ)
  | reactor (label : ReactorLabel)
  | next (pollOk : Bool)

def CloseHistory.after (s : EpollReactor) (label : ReactorLabel) (h : CloseHistory) :
    CloseHistory where
  asked := h.asked ++ s.asks label
  closed := h.closed ++ s.closes label
  anew fd :=
    if fd ∈ EpollReactor.registers label then true
    else if fd ∈ s.asks label then false
    else h.anew fd
  registered := h.registered + (EpollReactor.registers label).length
  unregistered := h.unregistered + (s.unregisters label).length

/-- The size of `fd_states_` behind `ensure_fd_capacity`. -/
def ensureFdCapacity (fd size : ℕ) : ℕ :=
  if fd < size then size
  else
    let newSize := if size = 0 then 64 else size
    if newSize ≤ fd then max (newSize * 2) (fd + 1) else newSize

/-- The step of the loop in which a function of the reactor may run. -/
def RunPhase.allows : RunPhase → ReactorLabel → Bool
  | .wheel _, .tick _ => true
  | .ticking _, .proceed | .ticking _, .handleFdTimeout _ | .ticking _, .callbackDone => true
  | .outside, label | .ticking _, label | .tasks _, label | .events, label
  | .forcedCallback _, label | .returned, label | .failed, label =>
      match label with
      | .registerFd _ _ _ _ | .registerFdWithTimeout _ _ _ _ _ | .modifyFd _ _ _ _
      | .unregisterFd _ _ | .refreshFdTimeout _ _ => true
      | _ => false
  | _, _ => false

namespace ReactorRun

def enter (phase : RunPhase) (s : ReactorRun) : ReactorRun :=
  { s with phase := phase }

/-- A function of the reactor runs. -/
def advance (label : ReactorLabel) (s : ReactorRun) : Option ReactorRun :=
  (s.reactor.step label).map fun reactor =>
    { s with
      reactor := reactor
      history := s.history.after s.reactor label
      fdCount :=
        match label with
        | .registerFd fd _ _ _ | .registerFdWithTimeout fd _ _ _ _ =>
            ensureFdCapacity fd s.fdCount
        | _ => s.fdCount }

def hasActiveFds (s : ReactorRun) : Bool :=
  (List.range s.fdCount).any fun fd => (s.reactor.fdStates fd).callback

/-- Behind the tasks of a pass. -/
def checkShutdown (loopNow : ℕ) (s : ReactorRun) : ReactorRun :=
  if s.gracefulShutdown then
    if !s.hasActiveFds then { s with running := false }.enter .leaving
    else if s.gracefulDeadline ≤ loopNow then s.enter (.forcing 0)
    else s.enter .polling
  else s.enter .polling

def next (pollOk : Bool) (s : ReactorRun) : Option ReactorRun :=
  match s.phase with
  | .ticking loopNow =>
      match s.reactor.handling, s.reactor.timers.activity with
      | .none, .idle => some (s.enter (.tasks loopNow))
      | _, _ => none
  | .tasks loopNow => some (s.checkShutdown loopNow)
  | .polling =>
      if pollOk then some (s.enter .events) else some ({ s with running := false }.enter .failed)
  | .events => (s.advance .flushDeferredCloses).map (enter .top)
  | .forcing fd =>
      if fd < s.fdCount then
        if (s.reactor.fdStates fd).callback then some (s.enter (.forcedCallback fd))
        else some (s.enter (.forcing (fd + 1)))
      else some ({ s with running := false }.enter .leaving)
  | .forcedCallback fd =>
      if (s.reactor.fdStates fd).callback then
        some ({ s with reactor := s.reactor.setFd fd {} }.enter (.forcing (fd + 1)))
      else some (s.enter (.forcing (fd + 1)))
  | .leaving => (s.advance .flushDeferredCloses).map (enter .returned)
  | _ => none

/-- A call of `run` while the reactor runs is an error and changes nothing. -/
def step (s : ReactorRun) : RunLabel → Option ReactorRun
  | .run =>
      if s.running then some s
      else
        match s.phase with
        | .outside | .returned | .failed => some ({ s with running := true }.enter .top)
        | _ => none
  | .stop => some { s with running := false }
  | .gracefulStop now timeout =>
      some { s with
        gracefulShutdown := true
        gracefulDeadline := now + 1000000 * timeout.toInt }
  | .look now =>
      match s.phase with
      | .top =>
          if !s.running then some (s.enter .leaving)
          else if s.reactor.clock ≤ now then
            some ({ s with reactor := { s.reactor with clock := now } }.enter (.wheel now))
          else none
      | _ => none
  | .reactor label =>
      if s.phase.allows label then
        match s.phase, label with
        | .wheel loopNow, .tick _ => (s.advance label).map (enter (.ticking loopNow))
        | _, _ => s.advance label
      else none
  | .next pollOk => s.next pollOk

def initial (now : ℕ) : ReactorRun :=
  { reactor := .initial now }

/-- Every descriptor handed to `queue_fd_close` has been closed for it, its entry is empty
unless the descriptor was registered anew, and `active_fds_` was decremented once for
each. -/
structure CarriedOut (s : ReactorRun) : Prop where
  closed : ∀ fd, s.history.closed.count fd = s.history.asked.count fd
  cleared : ∀ fd ∈ s.history.asked, s.history.anew fd = false → s.reactor.fdStates fd = {}
  decremented : (s.reactor.activeFds + s.history.unregistered + s.history.asked.length) % SIZE_WORD =
    s.history.registered % SIZE_WORD

end ReactorRun

/-! ## The account of a step -/

namespace EpollReactor

/-- What a step does to the queue, to the entries and to the counter. -/
structure Change (s next : EpollReactor) (asked closed registered unregistered : List ℕ) :
    Prop where
  queue : ∀ fd, next.deferredCloses.count fd + closed.count fd =
    s.deferredCloses.count fd + asked.count fd
  active : (next.activeFds + unregistered.length + closed.length) % SIZE_WORD =
    (s.activeFds + registered.length) % SIZE_WORD
  cleared : ∀ fd ∈ closed, next.fdStates fd = {}
  empty : ∀ fd, s.fdStates fd = {} → fd ∉ registered → next.fdStates fd = {}

/-- Only the timers and where they stand may differ. -/
structure SameFds (s next : EpollReactor) : Prop where
  fdStates : next.fdStates = s.fdStates
  deferredCloses : next.deferredCloses = s.deferredCloses
  activeFds : next.activeFds = s.activeFds

section Steps

variable {s next : EpollReactor} {fd now : ℕ}

theorem SameFds.trans {middle : EpollReactor} (h : SameFds s middle) (h' : SameFds middle next) :
    SameFds s next :=
  ⟨h'.fdStates.trans h.fdStates, h'.deferredCloses.trans h.deferredCloses,
    h'.activeFds.trans h.activeFds⟩

theorem SameFds.change (h : SameFds s next) : Change s next [] [] [] [] := by
  constructor
  · intro fd
    rw [h.deferredCloses]
  · simp [h.activeFds]
  · simp
  · intro fd hempty _
    rw [h.fdStates, hempty]

theorem addTimer_sameFds {timeout : Int64} {id : ℕ} (hadd : s.addTimer timeout fd = some (id, next)) :
    SameFds s next := by
  simp only [addTimer, Option.map_eq_some_iff, Prod.mk.injEq] at hadd
  rcases hadd with ⟨timers, -, -, rfl⟩
  exact ⟨rfl, rfl, rfl⟩

theorem scheduleFdTimeout_sameFds {state state' : FdState}
    (hschedule : s.scheduleFdTimeout fd state now = some (state', next)) : SameFds s next := by
  simp only [scheduleFdTimeout, Option.map_eq_some_iff, Prod.mk.injEq] at hschedule
  rcases hschedule with ⟨⟨id, added⟩, hadd, -, rfl⟩
  exact addTimer_sameFds hadd

theorem cancelFdTimeout_sameFds {state state' : FdState}
    (hcancel : s.cancelFdTimeout state = some (state', next)) : SameFds s next := by
  simp only [cancelFdTimeout] at hcancel
  split at hcancel
  · simp only [Option.map_eq_some_iff, Prod.mk.injEq] at hcancel
    rcases hcancel with ⟨timers, -, -, rfl⟩
    exact ⟨rfl, rfl, rfl⟩
  · cases hcancel
    exact ⟨rfl, rfl, rfl⟩

/-- The entry of a descriptor that has one is replaced. -/
theorem SameFds.setFd (h : SameFds s next) {state : FdState}
    (hused : s.fdStates fd = {} → state = {}) : Change s (next.setFd fd state) [] [] [] [] := by
  constructor
  · intro other
    simp [EpollReactor.setFd, h.deferredCloses]
  · simp [EpollReactor.setFd, h.activeFds]
  · simp
  · intro other hempty _
    by_cases heq : other = fd
    · subst heq
      simp [EpollReactor.setFd, hused hempty]
    · simp [EpollReactor.setFd, heq, h.fdStates, hempty]

/-- A descriptor is registered. -/
theorem SameFds.register (h : SameFds s next) (state : FdState) :
    Change s { next.setFd fd state with activeFds := (next.activeFds + 1) % SIZE_WORD }
      [] [] [fd] [] := by
  constructor
  · intro other
    simp [EpollReactor.setFd, h.deferredCloses]
  · simp [h.activeFds]
  · simp
  · intro other hempty hother
    have hne : other ≠ fd := by simpa using hother
    simp [EpollReactor.setFd, hne, h.fdStates, hempty]

theorem decrement (active : ℕ) : ((active + (SIZE_WORD - 1)) % SIZE_WORD + 1) % SIZE_WORD =
    active % SIZE_WORD := by
  unfold SIZE_WORD
  omega

theorem closeFdImmediate_change (fd : ℕ) (s : EpollReactor) :
    Change s (s.closeFdImmediate fd) [fd] [fd] [] [] := by
  constructor
  · intro other
    rfl
  · simpa [closeFdImmediate] using decrement s.activeFds
  · simp [closeFdImmediate, EpollReactor.setFd]
  · intro other hempty _
    by_cases heq : other = fd
    · subst heq
      simp [closeFdImmediate, EpollReactor.setFd]
    · simp [closeFdImmediate, EpollReactor.setFd, heq, hempty]

theorem registerFd_change (events : Events) (epollOk : Bool) :
    Change s (s.registerFd fd events now epollOk) [] []
      (registers (.registerFd fd events now epollOk)) [] := by
  have hsame : SameFds s s := ⟨rfl, rfl, rfl⟩
  cases epollOk with
  | true => exact hsame.register _
  | false => exact hsame.change

theorem registerFdWithTimeout_change {events : Events} {config : TimeoutConfig} {epollOk : Bool}
    (hregister : s.registerFdWithTimeout fd events config now epollOk = some next) :
    Change s next [] [] (registers (.registerFdWithTimeout fd events config now epollOk)) [] := by
  simp only [registerFdWithTimeout] at hregister
  split at hregister
  next => cases hregister
  next state scheduled hschedule =>
    have hsame := scheduleFdTimeout_sameFds hschedule
    cases epollOk with
    | true =>
        cases hregister
        exact hsame.register state
    | false =>
        simp only [Bool.false_eq_true, if_false, Option.map_eq_some_iff] at hregister
        rcases hregister with ⟨⟨state', cancelled⟩, hcancel, rfl⟩
        exact (hsame.trans (cancelFdTimeout_sameFds hcancel)).change

theorem modifyFd_change {events : Events} {epollOk : Bool}
    (hmodify : s.modifyFd fd events now epollOk = some next) : Change s next [] [] [] [] := by
  have hsame : SameFds s s := ⟨rfl, rfl, rfl⟩
  simp only [modifyFd] at hmodify
  split at hmodify
  next =>
    cases hmodify
    exact hsame.change
  next hcallback =>
    have hused (state : FdState) : s.fdStates fd = {} → state = {} := by
      intro hempty
      rw [hempty] at hcallback
      exact absurd rfl hcallback
    split at hmodify
    next =>
      split at hmodify
      next => cases hmodify
      next state cancelled hcancel =>
        rw [Option.map_eq_some_iff] at hmodify
        rcases hmodify with ⟨⟨state', scheduled⟩, hschedule, rfl⟩
        have hboth := (cancelFdTimeout_sameFds hcancel).trans (scheduleFdTimeout_sameFds hschedule)
        exact hboth.setFd (hused state')
    next =>
      cases hmodify
      exact hsame.setFd (hused _)

theorem unregisterFd_change {epollOk : Bool} (hunregister : s.unregisterFd fd epollOk = some next) :
    Change s next [] [] [] (s.unregisters (.unregisterFd fd epollOk)) := by
  have hsame : SameFds s s := ⟨rfl, rfl, rfl⟩
  simp only [unregisterFd] at hunregister
  cases hcallback : (s.fdStates fd).callback with
  | false =>
      simp only [hcallback, Bool.not_false, if_true, Option.some.injEq] at hunregister
      subst hunregister
      simpa [unregisters, hcallback] using hsame.change
  | true =>
      simp only [hcallback, Bool.not_true, Bool.false_eq_true, if_false] at hunregister
      split at hunregister
      next => cases hunregister
      next state cancelled hcancel =>
        have hcancelled := cancelFdTimeout_sameFds hcancel
        cases epollOk with
        | true =>
            cases hunregister
            have hclosed := closeFdImmediate_change fd cancelled
            simp only [unregisters, hcallback, Bool.and_self, if_true]
            constructor
            · intro other
              simp [EpollReactor.setFd, hcancelled.deferredCloses]
            · simpa [closeFdImmediate, hcancelled.activeFds] using hclosed.active
            · simp
            · intro other hempty _
              exact hclosed.empty other (by rw [hcancelled.fdStates, hempty]) (by simp)
        | false =>
            cases hunregister
            simp only [unregisters, Bool.and_false, Bool.false_eq_true, if_false]
            apply hcancelled.setFd
            intro hempty
            rw [hempty] at hcallback
            cases hcallback

theorem refreshFdTimeout_change (fd now : ℕ) (s : EpollReactor) :
    Change s (s.refreshFdTimeout fd now) [] [] [] [] := by
  have hsame : SameFds s s := ⟨rfl, rfl, rfl⟩
  unfold refreshFdTimeout
  split
  next htimeout =>
    apply hsame.setFd
    intro hempty
    rw [hempty] at htimeout
    cases htimeout
  next => exact hsame.change

theorem handleFdTimeout_change (hhandle : s.handleFdTimeout fd now = some next) :
    Change s next [] [] [] [] := by
  have hsame : SameFds s s := ⟨rfl, rfl, rfl⟩
  simp only [handleFdTimeout] at hhandle
  split at hhandle
  next =>
    cases hhandle
    exact SameFds.change ⟨rfl, rfl, rfl⟩
  next hlive =>
    have hused (state : FdState) : s.fdStates fd = {} → state = {} := by
      intro hempty
      rw [hempty] at hlive
      exact absurd rfl hlive
    split at hhandle
    next =>
      cases hhandle
      have hset := hsame.setFd (hused { s.fdStates fd with
        callback := false, hasTimeout := false, timeoutId := 0 })
      exact ⟨hset.queue, hset.active, hset.cleared, hset.empty⟩
    next =>
      rw [Option.map_eq_some_iff] at hhandle
      rcases hhandle with ⟨⟨id, added⟩, hadd, rfl⟩
      have hset := (addTimer_sameFds hadd).setFd (hused { s.fdStates fd with timeoutId := id })
      exact ⟨hset.queue, hset.active, hset.cleared, hset.empty⟩

theorem queueFdClose_change (fd : ℕ) (s : EpollReactor) :
    Change s (s.queueFdClose fd) [fd] (if s.closesInline then [fd] else []) [] [] := by
  have hclosed (budget : ℕ) : Change s ({ s with inlineBudget := budget }.closeFdImmediate fd)
      [fd] [fd] [] [] := by
    have hchange := closeFdImmediate_change fd { s with inlineBudget := budget }
    exact ⟨hchange.queue, hchange.active, hchange.cleared, hchange.empty⟩
  unfold queueFdClose closesInline
  cases hinline : (decide (0 < s.inlineBudget) && s.deferredCloses.isEmpty) with
  | true =>
      simp only [if_true, Bool.true_or]
      exact hclosed _
  | false =>
      simp only [Bool.false_eq_true, if_false, Bool.false_or]
      by_cases hroom : s.deferredCloses.length < DEFERRED_CLOSES
      · simp only [decide_true, Bool.not_true, Bool.false_eq_true, if_false, hroom]
        constructor
        · intro other
          simp
        · rfl
        · simp
        · intro other hempty _
          exact hempty
      · simp only [decide_false, Bool.not_false, if_true, hroom]
        exact hclosed _

theorem closeAll_change (fds : List ℕ) (s : EpollReactor) :
    Change s (fds.foldl (fun s fd => s.closeFdImmediate fd) s) fds fds [] [] ∧
      (fds.foldl (fun s fd => s.closeFdImmediate fd) s).deferredCloses = s.deferredCloses := by
  induction fds generalizing s with
  | nil => exact ⟨SameFds.change ⟨rfl, rfl, rfl⟩, rfl⟩
  | cons fd rest ih =>
      rcases ih (s.closeFdImmediate fd) with ⟨hrest, hqueue⟩
      have hfirst := closeFdImmediate_change fd s
      rw [List.foldl_cons]
      refine ⟨?_, hqueue⟩
      constructor
      · intro other
        rw [hqueue]
        rfl
      · have hactive := hrest.active
        have hone := hfirst.active
        simp only [List.length_nil, List.length_cons] at hactive hone ⊢
        unfold SIZE_WORD at hactive hone ⊢
        omega
      · intro other hmem
        by_cases heq : other = fd
        · subst heq
          exact hrest.empty other (hfirst.cleared other (by simp)) (by simp)
        · exact hrest.cleared other (by simpa [heq] using hmem)
      · intro other hempty _
        exact hrest.empty other (hfirst.empty other hempty (by simp)) (by simp)

theorem flushDeferredCloses_change (s : EpollReactor) :
    Change s s.flushDeferredCloses [] (s.deferredCloses.take MAX_BATCH) [] [] ∧
      s.flushDeferredCloses.deferredCloses = s.deferredCloses.drop MAX_BATCH := by
  rcases closeAll_change (s.deferredCloses.take MAX_BATCH)
    { s with deferredCloses := s.deferredCloses.drop MAX_BATCH } with ⟨hchange, hqueue⟩
  refine ⟨⟨?_, hchange.active, hchange.cleared, hchange.empty⟩, hqueue⟩
  intro fd
  have hsplit : (s.deferredCloses.take MAX_BATCH).count fd +
      (s.deferredCloses.drop MAX_BATCH).count fd = s.deferredCloses.count fd := by
    rw [← List.count_append, List.take_append_drop]
  unfold flushDeferredCloses
  rw [hqueue]
  simp only [List.count_nil]
  omega

theorem Change.later {asked closed registered unregistered : List ℕ}
    (h : Change { s with clock := now } next asked closed registered unregistered) :
    Change s next asked closed registered unregistered :=
  ⟨h.queue, h.active, h.cleared, h.empty⟩

/-- What every step does is in the account. -/
theorem step_change {label : ReactorLabel} (hstep : s.step label = some next) :
    Change s next (s.asks label) (s.closes label) (registers label) (s.unregisters label) := by
  cases label with
  | registerFd fd events now epollOk =>
      simp only [EpollReactor.step] at hstep
      split at hstep <;> cases hstep
      exact (registerFd_change events epollOk).later
  | registerFdWithTimeout fd events config now epollOk =>
      simp only [EpollReactor.step] at hstep
      split at hstep
      · exact (registerFdWithTimeout_change hstep).later
      · cases hstep
  | modifyFd fd events now epollOk =>
      simp only [EpollReactor.step] at hstep
      split at hstep
      · exact (modifyFd_change hstep).later
      · cases hstep
  | unregisterFd fd epollOk =>
      simp only [EpollReactor.step] at hstep
      split at hstep
      · exact unregisterFd_change hstep
      · cases hstep
  | refreshFdTimeout fd now =>
      simp only [EpollReactor.step] at hstep
      split at hstep <;> cases hstep
      exact (refreshFdTimeout_change fd now _).later
  | tick now =>
      simp only [EpollReactor.step] at hstep
      split at hstep
      · rw [Option.map_eq_some_iff] at hstep
        rcases hstep with ⟨timers, -, rfl⟩
        exact SameFds.change ⟨rfl, rfl, rfl⟩
      · cases hstep
  | proceed =>
      simp only [EpollReactor.step, EpollReactor.proceed] at hstep
      split at hstep
      · rw [Option.map_eq_some_iff] at hstep
        rcases hstep with ⟨timers, -, rfl⟩
        exact SameFds.change ⟨rfl, rfl, rfl⟩
      · cases hstep
  | handleFdTimeout now =>
      simp only [EpollReactor.step] at hstep
      split at hstep
      · split at hstep
        · exact (handleFdTimeout_change hstep).later
        · cases hstep
      · cases hstep
  | callbackDone =>
      simp only [EpollReactor.step] at hstep
      split at hstep
      next fd hcallback =>
        cases hstep
        have hchange := queueFdClose_change fd { s with handling := .none }
        simp only [asks, closes, hcallback]
        exact ⟨hchange.queue, hchange.active, hchange.cleared, hchange.empty⟩
      next => cases hstep
  | flushDeferredCloses =>
      simp only [EpollReactor.step] at hstep
      split at hstep
      · cases hstep
        exact (flushDeferredCloses_change s).1
      · cases hstep

end Steps

end EpollReactor

/-! ## The account of a run -/

namespace ReactorRun

/-- Of what was asked for, the queue holds what has not been done. -/
structure Accounted (s : ReactorRun) : Prop where
  queue : ∀ fd, s.history.closed.count fd + s.reactor.deferredCloses.count fd =
    s.history.asked.count fd
  active : (s.reactor.activeFds + s.history.unregistered + s.history.closed.length) % SIZE_WORD =
    s.history.registered % SIZE_WORD
  cleared : ∀ fd ∈ s.history.asked, s.history.anew fd = false → fd ∉ s.reactor.deferredCloses →
    s.reactor.fdStates fd = {}

section Runs

variable {s final : ReactorRun}

theorem accounted_initial (now : ℕ) : (initial now).Accounted := by
  constructor <;> simp [initial, EpollReactor.initial]

/-- Where the loop stands is not in the account. -/
theorem Accounted.same (h : s.Accounted) {s' : ReactorRun} (hhistory : s'.history = s.history)
    (hsame : s.reactor.SameFds s'.reactor) : s'.Accounted := by
  constructor
  · rw [hhistory, hsame.deferredCloses]
    exact h.queue
  · rw [hhistory, hsame.activeFds]
    exact h.active
  · rw [hhistory, hsame.deferredCloses, hsame.fdStates]
    exact h.cleared

theorem Accounted.advance (h : s.Accounted) {label : ReactorLabel}
    (hadvance : s.advance label = some final) : final.Accounted := by
  simp only [ReactorRun.advance, Option.map_eq_some_iff] at hadvance
  rcases hadvance with ⟨reactor, hstep, rfl⟩
  have hchange := EpollReactor.step_change hstep
  constructor
  · intro fd
    have hqueue := h.queue fd
    have hcount := hchange.queue fd
    simp only [CloseHistory.after, List.count_append]
    omega
  · have hactive := h.active
    have hmoved := hchange.active
    simp only [CloseHistory.after, List.length_append]
    unfold SIZE_WORD at hactive hmoved ⊢
    omega
  · intro fd hasked hanew hqueue
    simp only [CloseHistory.after, List.mem_append] at hasked hanew
    by_cases hclosed : fd ∈ s.reactor.closes label
    · exact hchange.cleared fd hclosed
    have hold : fd ∉ EpollReactor.registers label := by
      intro hregistered
      rw [if_pos hregistered] at hanew
      cases hanew
    have hcount := hchange.queue fd
    rw [List.count_eq_zero.mpr hqueue, List.count_eq_zero.mpr hclosed] at hcount
    have hnot : fd ∉ s.reactor.asks label := by
      rw [← List.count_eq_zero]
      omega
    have hwaits : fd ∉ s.reactor.deferredCloses := by
      rw [← List.count_eq_zero]
      omega
    rw [if_neg hold, if_neg hnot] at hanew
    exact hchange.empty fd (h.cleared fd (hasked.resolve_right hnot) hanew hwaits) hold

theorem Accounted.enter (h : s.Accounted) (phase : RunPhase) : (s.enter phase).Accounted :=
  h.same rfl ⟨rfl, rfl, rfl⟩

theorem Accounted.advanceEnter (h : s.Accounted) {label : ReactorLabel} {phase : RunPhase}
    (hadvance : (s.advance label).map (ReactorRun.enter phase) = some final) :
    final.Accounted := by
  rw [Option.map_eq_some_iff] at hadvance
  rcases hadvance with ⟨middle, hmiddle, rfl⟩
  exact (h.advance hmiddle).enter phase

theorem Accounted.next (h : s.Accounted) {pollOk : Bool} (hnext : s.next pollOk = some final) :
    final.Accounted := by
  unfold ReactorRun.next at hnext
  split at hnext
  next loopNow hphase =>
    split at hnext <;> cases hnext
    exact h.enter _
  next loopNow hphase =>
    cases hnext
    unfold checkShutdown
    split
    · split
      · exact h.same rfl ⟨rfl, rfl, rfl⟩
      · split <;> exact h.enter _
    · exact h.enter _
  next hphase =>
    split at hnext <;> cases hnext
    · exact h.enter _
    · exact h.same rfl ⟨rfl, rfl, rfl⟩
  next hphase => exact h.advanceEnter hnext
  next fd hphase =>
    split at hnext
    · split at hnext <;> cases hnext <;> exact h.enter _
    · cases hnext
      exact h.same rfl ⟨rfl, rfl, rfl⟩
  next fd hphase =>
    split at hnext <;> cases hnext
    · constructor
      · exact h.queue
      · exact h.active
      · intro other hasked hanew hqueue
        have hempty := h.cleared other hasked hanew hqueue
        by_cases heq : other = fd <;> simp [ReactorRun.enter, EpollReactor.setFd, heq, hempty]
    · exact h.enter _
  next hphase => exact h.advanceEnter hnext
  next => cases hnext

theorem Accounted.step (h : s.Accounted) {label : RunLabel} (hstep : s.step label = some final) :
    final.Accounted := by
  cases label with
  | run =>
      simp only [ReactorRun.step] at hstep
      split at hstep
      · cases hstep
        exact h
      · split at hstep <;> cases hstep <;> exact h.same rfl ⟨rfl, rfl, rfl⟩
  | stop =>
      cases hstep
      exact h.same rfl ⟨rfl, rfl, rfl⟩
  | gracefulStop now timeout =>
      cases hstep
      exact h.same rfl ⟨rfl, rfl, rfl⟩
  | look now =>
      simp only [ReactorRun.step] at hstep
      split at hstep
      · split at hstep
        · cases hstep
          exact h.enter _
        · split at hstep <;> cases hstep
          exact h.same rfl ⟨rfl, rfl, rfl⟩
      · cases hstep
  | reactor label =>
      simp only [ReactorRun.step] at hstep
      split at hstep
      · split at hstep
        · exact h.advanceEnter hstep
        · exact h.advance hstep
      · cases hstep
  | next pollOk => exact h.next hstep

/-- The flush behind the loop. -/
theorem Accounted.returned_iff (h : s.Accounted) (hleaving : s.phase = .leaving) {pollOk : Bool}
    (hreturn : s.step (.next pollOk) = some final) :
    final.CarriedOut ↔ s.reactor.deferredCloses.length ≤ MAX_BATCH := by
  have hfinal : final.Accounted := h.step hreturn
  have hqueue : final.reactor.deferredCloses = s.reactor.deferredCloses.drop MAX_BATCH := by
    simp only [ReactorRun.step, ReactorRun.next, hleaving, ReactorRun.advance,
      EpollReactor.step, Option.map_map, Option.map_eq_some_iff] at hreturn
    rcases hreturn with ⟨reactor, hflush, rfl⟩
    split at hflush <;> cases hflush
    exact (EpollReactor.flushDeferredCloses_change s.reactor).2
  rw [← List.drop_eq_nil_iff, ← hqueue]
  constructor
  · intro hcarried
    rw [List.eq_nil_iff_forall_not_mem]
    intro fd
    rw [← List.count_eq_zero]
    have hcount := hfinal.queue fd
    have hclosed := hcarried.closed fd
    omega
  · intro hempty
    have hclosed : ∀ fd, final.history.closed.count fd = final.history.asked.count fd := by
      intro fd
      have hcount := hfinal.queue fd
      rw [hempty, List.count_nil] at hcount
      exact hcount
    constructor
    · exact hclosed
    · intro fd hasked hanew
      exact hfinal.cleared fd hasked hanew (by rw [hempty]; exact List.not_mem_nil)
    · rw [← (List.perm_iff_count.mpr hclosed).length_eq]
      exact hfinal.active

end Runs

theorem accounted_of_exec {now : ℕ} {labels : List RunLabel} {s : ReactorRun}
    (hexec : exec step (initial now) labels = some s) : s.Accounted := by
  apply exec_invariant _ (accounted_initial now) hexec
  intro s label next h hstep
  exact h.step hstep

/-- When `run` returns behind its loop, the closes that were asked for have been carried
out exactly if the queue held no more of them than the last flush takes. -/
theorem returned_carriedOut_iff {now : ℕ} {labels : List RunLabel} {s final : ReactorRun}
    (hexec : exec step (initial now) labels = some s) (hleaving : s.phase = .leaving)
    {pollOk : Bool} (hreturn : s.step (.next pollOk) = some final) :
    final.CarriedOut ↔ s.reactor.deferredCloses.length ≤ MAX_BATCH :=
  (accounted_of_exec hexec).returned_iff hleaving hreturn

/-- So many connections time out in one tick of a reactor that is to shut down. -/
def timeoutRun (connections : ℕ) : List RunLabel :=
  (List.range connections).map (fun i =>
    .reactor (.registerFdWithTimeout (5 + i) { readable := true } { readTimeout := 16 } 0 true)) ++
  [.gracefulStop 0 30000, .run, .look 16000000, .reactor (.tick 16000000), .reactor .proceed] ++
  (List.replicate connections [.reactor .proceed, .reactor .proceed,
    .reactor (.handleFdTimeout 16000000), .reactor .callbackDone]).flatten ++
  [.reactor .proceed, .reactor .proceed, .reactor .proceed, .next true, .next true]

/-- The run ends behind the loop with so many descriptors in the queue. -/
def leavesWith (count : ℕ) (s : ReactorRun) : Bool :=
  s.phase = .leaving && s.reactor.deferredCloses.length = count && (s.step (.next true)).isSome

theorem leavesWith_iff {count : ℕ} {s : ReactorRun} : s.leavesWith count = true ↔
    s.phase = .leaving ∧ s.reactor.deferredCloses.length = count ∧
      ∃ final, s.step (.next true) = some final := by
  simp [leavesWith, Option.isSome_iff_exists, and_assoc]

theorem returned_carriedOut_timeoutRun :
    ∃ s final, exec step (initial 0) (timeoutRun 4) = some s ∧
      s.step (.next true) = some final ∧ final.CarriedOut := by
  have hrun : ((exec step (initial 0) (timeoutRun 4)).any (leavesWith 2)) = true := by
    decide +kernel
  rw [Option.any_eq_true] at hrun
  rcases hrun with ⟨s, hexec, hleaves⟩
  rcases leavesWith_iff.mp hleaves with ⟨hleaving, hcount, final, hreturn⟩
  have hfew : s.reactor.deferredCloses.length ≤ MAX_BATCH := hcount.le
  exact ⟨s, final, hexec, hreturn, (returned_carriedOut_iff hexec hleaving hreturn).mpr hfew⟩

/-- Of five connections that time out at once, one is left in the queue. -/
theorem timeoutRun_left :
    ∃ s final, exec step (initial 0) (timeoutRun 5) = some s ∧
      s.step (.next true) = some final ∧ ¬ final.CarriedOut := by
  have hrun : ((exec step (initial 0) (timeoutRun 5)).any (leavesWith 3)) = true := by
    decide +kernel
  rw [Option.any_eq_true] at hrun
  rcases hrun with ⟨s, hexec, hleaves⟩
  rcases leavesWith_iff.mp hleaves with ⟨hleaving, hcount, final, hreturn⟩
  refine ⟨s, final, hexec, hreturn, fun hcarried => ?_⟩
  have hfew := ((accounted_of_exec hexec).returned_iff hleaving hreturn).mp hcarried
  rw [hcount] at hfew
  exact absurd hfew (by decide)

end ReactorRun

end Reactor
end Katana
