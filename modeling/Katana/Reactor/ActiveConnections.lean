import Katana.Reactor.Epoll

/-!
# Connections that are still active

`handle_fd_timeout` is to call the callback of a registration only if its timeout
interval has passed since the last activity, and to wait for the rest otherwise.
It compares nanoseconds with a count of milliseconds.  So it does the right thing
exactly if the interval has passed whenever it runs: the comparison then holds as
well, and in every other case it either gives up the connection too early or asks
for a timer that is a million times too short.
-/

namespace Katana
namespace Reactor

open Library Timer

namespace EpollReactor

/-- The registration has a callback and a timeout, as `handle_fd_timeout` asks. -/
def Live (s : EpollReactor) (fd : ℕ) : Prop :=
  (s.fdStates fd).callback = true ∧ (s.fdStates fd).hasTimeout = true

/-- Nanoseconds since the last activity of a registration. -/
def elapsed (s : EpollReactor) (fd now : ℕ) : ℤ :=
  now - (s.fdStates fd).lastActivity

/-- Its timeout interval, in nanoseconds. -/
def interval (s : EpollReactor) (fd : ℕ) : ℤ :=
  1000000 * (s.fdStates fd).timeoutInterval.toInt

/-- A timer for the rest of the interval was added, and nothing else changed in
the registration. -/
structure Rearmed (s next : EpollReactor) (fd now : ℕ) : Prop where
  handling : next.handling = .none
  adds : next.timers.history.adds = s.timers.history.adds + 1
  timerFd : next.timerFd s.timers.history.adds = fd
  timeout : (next.timers.history.added s.timers.history.adds).2.toInt =
    (s.interval fd - s.elapsed fd now) / 1000000
  fdStates : next.fdStates = Function.update s.fdStates fd
    { s.fdStates fd with timeoutId := next.timers.history.ids s.timers.history.adds }

/-- What is expected of `handle_fd_timeout`. -/
def Respects (s : EpollReactor) (label : ReactorLabel) : Prop :=
  ∀ fd now next, s.handling = .entered fd → label = .handleFdTimeout now → s.Live fd →
    s.step label = some next →
      (next.handling = .callback fd → s.interval fd ≤ s.elapsed fd now) ∧
        (s.elapsed fd now < s.interval fd → s.Rearmed next fd now)

/-- When `handle_fd_timeout` runs, the timeout interval has passed. -/
def Passed (s : EpollReactor) (label : ReactorLabel) : Prop :=
  ∀ fd now, s.handling = .entered fd → label = .handleFdTimeout now → s.Live fd →
    s.clock ≤ now → s.interval fd ≤ s.elapsed fd now

/-- The clock is not behind an activity, and where a timer is being handled, the
wheel is in one of its callbacks. -/
structure Sound (s : EpollReactor) : Prop where
  clock : ∀ fd, (s.fdStates fd).lastActivity ≤ s.clock
  calling : s.handling ≠ .none →
    ∃ left handles compact, s.timers.activity = .calling left handles compact

theorem sound_initial (now : ℕ) : (initial now).Sound := by
  constructor <;> simp [initial]

section Steps

variable {s next : EpollReactor}

theorem Sound.later (h : s.Sound) {now : ℕ} (hnow : s.clock ≤ now) :
    ({ s with clock := now } : EpollReactor).Sound := by
  constructor
  · intro fd
    exact (h.clock fd).trans hnow
  · exact h.calling

theorem Sound.setFd (h : s.Sound) {fd : ℕ} {state : FdState}
    (hstate : state.lastActivity ≤ s.clock) : (s.setFd fd state).Sound := by
  constructor
  · intro other
    by_cases heq : other = fd
    · subst heq
      simpa [EpollReactor.setFd] using hstate
    · simpa [EpollReactor.setFd, heq] using h.clock other
  · exact h.calling

/-- The calls of code outside the timer do not change where `tick` stands. -/
theorem activity_outside {r r' : TimerRun 2048 8} {label : TimerLabel}
    (hlabel : (∃ timeout, label = .add timeout) ∨ ∃ id, label = .cancel id)
    (hstep : r.step label = some r') : r'.activity = r.activity := by
  rcases hlabel with ⟨timeout, rfl⟩ | ⟨id, rfl⟩
  · simp only [TimerRun.step] at hstep
    split at hstep
    · rw [Option.map_eq_some_iff] at hstep
      rcases hstep with ⟨result, -, rfl⟩
      rfl
    · cases hstep
  · simp only [TimerRun.step] at hstep
    split at hstep
    · cases hstep
      rfl
    · cases hstep

theorem Sound.timers (h : s.Sound) {timers : TimerRun 2048 8} (timerFd : ℕ → ℕ)
    (hactivity : timers.activity = s.timers.activity) :
    ({ s with timers := timers, timerFd := timerFd } : EpollReactor).Sound := by
  constructor
  · exact h.clock
  · simpa [hactivity] using h.calling

theorem Sound.addTimer (h : s.Sound) {timeout : Int64} {fd id : ℕ}
    (hadd : s.addTimer timeout fd = some (id, next)) : next.Sound ∧ next.clock = s.clock := by
  simp only [EpollReactor.addTimer, Option.map_eq_some_iff, Prod.mk.injEq] at hadd
  rcases hadd with ⟨timers, hstep, -, rfl⟩
  exact ⟨h.timers _ (activity_outside (.inl ⟨timeout, rfl⟩) hstep), rfl⟩

theorem Sound.scheduleFdTimeout (h : s.Sound) {fd now : ℕ} {state state' : FdState}
    (hschedule : s.scheduleFdTimeout fd state now = some (state', next)) :
    next.Sound ∧ next.clock = s.clock ∧ state'.lastActivity = now := by
  simp only [EpollReactor.scheduleFdTimeout, Option.map_eq_some_iff, Prod.mk.injEq] at hschedule
  rcases hschedule with ⟨⟨id, added⟩, hadd, rfl, rfl⟩
  exact ⟨(h.addTimer hadd).1, (h.addTimer hadd).2, rfl⟩

theorem Sound.cancelFdTimeout (h : s.Sound) {state state' : FdState}
    (hcancel : s.cancelFdTimeout state = some (state', next)) :
    next.Sound ∧ next.clock = s.clock ∧ state'.lastActivity = state.lastActivity := by
  simp only [EpollReactor.cancelFdTimeout] at hcancel
  split at hcancel
  · simp only [Option.map_eq_some_iff, Prod.mk.injEq] at hcancel
    rcases hcancel with ⟨timers, hstep, rfl, rfl⟩
    exact ⟨h.timers s.timerFd (activity_outside (.inr ⟨_, rfl⟩) hstep), rfl, rfl⟩
  · cases hcancel
    exact ⟨h, rfl, rfl⟩

theorem Sound.active (h : s.Sound) (count : ℕ) :
    ({ s with activeFds := count } : EpollReactor).Sound :=
  ⟨h.clock, h.calling⟩

theorem Sound.registerFd (h : s.Sound) {now : ℕ} (hnow : now = s.clock) (fd : ℕ)
    (events : Events) (epollOk : Bool) : (s.registerFd fd events now epollOk).Sound := by
  unfold EpollReactor.registerFd
  split
  · apply Sound.active (s := s.setFd fd _)
    apply h.setFd
    simp [hnow]
  · exact h

theorem Sound.registerFdWithTimeout (h : s.Sound) {fd now : ℕ} {events : Events}
    {config : TimeoutConfig} {epollOk : Bool} (hnow : now = s.clock)
    (hregister : s.registerFdWithTimeout fd events config now epollOk = some next) :
    next.Sound := by
  simp only [EpollReactor.registerFdWithTimeout] at hregister
  split at hregister
  next => cases hregister
  next state scheduled hschedule =>
    have hscheduled := h.scheduleFdTimeout hschedule
    split at hregister
    · cases hregister
      apply Sound.active (s := scheduled.setFd fd state)
      apply hscheduled.1.setFd
      rw [hscheduled.2.2, hscheduled.2.1, hnow]
    · rw [Option.map_eq_some_iff] at hregister
      rcases hregister with ⟨⟨state', cancelled⟩, hcancel, rfl⟩
      exact (hscheduled.1.cancelFdTimeout hcancel).1

theorem Sound.modifyFd (h : s.Sound) {fd now : ℕ} {events : Events} {epollOk : Bool}
    (hnow : now = s.clock) (hmodify : s.modifyFd fd events now epollOk = some next) :
    next.Sound := by
  simp only [EpollReactor.modifyFd] at hmodify
  split at hmodify
  next =>
    cases hmodify
    exact h
  next =>
    split at hmodify
    next =>
      split at hmodify
      next => cases hmodify
      next state cancelled hcancel =>
        have hcancelled := h.cancelFdTimeout hcancel
        rw [Option.map_eq_some_iff] at hmodify
        rcases hmodify with ⟨⟨state', scheduled⟩, hschedule, rfl⟩
        have hscheduled := hcancelled.1.scheduleFdTimeout hschedule
        apply hscheduled.1.setFd
        rw [hscheduled.2.2, hscheduled.2.1, hcancelled.2.1, hnow]
    next =>
      cases hmodify
      apply h.setFd
      exact h.clock fd

theorem Sound.unregisterFd (h : s.Sound) {fd : ℕ} {epollOk : Bool}
    (hunregister : s.unregisterFd fd epollOk = some next) : next.Sound := by
  simp only [EpollReactor.unregisterFd] at hunregister
  split at hunregister
  next =>
    cases hunregister
    exact h
  next =>
    split at hunregister
    next => cases hunregister
    next state cancelled hcancel =>
      have hcancelled := h.cancelFdTimeout hcancel
      split at hunregister
      · cases hunregister
        apply Sound.active (s := cancelled.setFd fd {})
        apply hcancelled.1.setFd
        simp
      · cases hunregister
        apply hcancelled.1.setFd
        rw [hcancelled.2.2, hcancelled.2.1]
        exact h.clock fd

theorem Sound.refreshFdTimeout (h : s.Sound) {now : ℕ} (hnow : now = s.clock) (fd : ℕ) :
    (s.refreshFdTimeout fd now).Sound := by
  unfold EpollReactor.refreshFdTimeout
  split
  · apply h.setFd
    simp [hnow]
  · exact h

theorem Sound.closeFdImmediate (h : s.Sound) (fd : ℕ) : (s.closeFdImmediate fd).Sound := by
  apply Sound.active (s := s.setFd fd {})
  apply h.setFd
  simp

theorem Sound.queueFdClose (h : s.Sound) (fd : ℕ) : (s.queueFdClose fd).Sound := by
  unfold EpollReactor.queueFdClose
  split
  · exact Sound.closeFdImmediate (s := { s with inlineBudget := s.inlineBudget - 1 })
      ⟨h.clock, h.calling⟩ fd
  · dsimp only
    split
    · exact ⟨h.clock, h.calling⟩
    · exact Sound.closeFdImmediate (s := { s with inlineBudget := INLINE_THRESHOLD })
        ⟨h.clock, h.calling⟩ fd

theorem Sound.flushDeferredCloses (h : s.Sound) : s.flushDeferredCloses.Sound := by
  unfold EpollReactor.flushDeferredCloses
  generalize s.deferredCloses.take MAX_BATCH = closes
  have hstart : ({ s with deferredCloses := s.deferredCloses.drop MAX_BATCH } :
      EpollReactor).Sound := ⟨h.clock, h.calling⟩
  generalize ({ s with deferredCloses := s.deferredCloses.drop MAX_BATCH } :
    EpollReactor) = start at hstart
  induction closes generalizing start with
  | nil => exact hstart
  | cons fd closes ih => exact ih _ (hstart.closeFdImmediate fd)

theorem Sound.handleFdTimeout (h : s.Sound) {fd now : ℕ} (hentered : s.handling = .entered fd)
    (hhandle : s.handleFdTimeout fd now = some next) : next.Sound := by
  have hcalling := h.calling (by simp [hentered])
  simp only [EpollReactor.handleFdTimeout] at hhandle
  split at hhandle
  next =>
    cases hhandle
    exact ⟨h.clock, fun hne => absurd rfl hne⟩
  next =>
    split at hhandle
    next =>
      cases hhandle
      constructor
      · apply Sound.clock (s := s.setFd fd _)
        apply h.setFd
        exact h.clock fd
      · exact fun _ => hcalling
    next =>
      rw [Option.map_eq_some_iff] at hhandle
      rcases hhandle with ⟨⟨id, added⟩, hadd, rfl⟩
      have hadded := h.addTimer hadd
      constructor
      · apply Sound.clock (s := added.setFd fd _)
        apply hadded.1.setFd
        rw [hadded.2]
        exact h.clock fd
      · exact fun hne => absurd rfl hne

theorem Sound.proceed (h : s.Sound) (hproceed : s.proceed = some next) : next.Sound := by
  simp only [EpollReactor.proceed, Option.map_eq_some_iff] at hproceed
  rcases hproceed with ⟨timers, -, rfl⟩
  constructor
  · exact h.clock
  · intro hne
    revert hne
    dsimp only
    split
    next left handles compact timer call hactivity hlast =>
      exact fun _ => ⟨left, handles, compact, hactivity⟩
    next => exact fun hne => absurd rfl hne

theorem Sound.step (h : s.Sound) {label : ReactorLabel} (hstep : s.step label = some next) :
    next.Sound := by
  cases label with
  | registerFd fd events now epollOk =>
      simp only [EpollReactor.step] at hstep
      split at hstep <;> cases hstep
      next hguard =>
        simp only [Bool.and_eq_true, decide_eq_true_eq] at hguard
        exact (h.later hguard.2).registerFd rfl fd events epollOk
  | registerFdWithTimeout fd events config now epollOk =>
      simp only [EpollReactor.step] at hstep
      split at hstep
      next hguard =>
        simp only [Bool.and_eq_true, decide_eq_true_eq] at hguard
        exact (h.later hguard.2).registerFdWithTimeout rfl hstep
      next => cases hstep
  | modifyFd fd events now epollOk =>
      simp only [EpollReactor.step] at hstep
      split at hstep
      next hguard =>
        simp only [Bool.and_eq_true, decide_eq_true_eq] at hguard
        exact (h.later hguard.2).modifyFd rfl hstep
      next => cases hstep
  | unregisterFd fd epollOk =>
      simp only [EpollReactor.step] at hstep
      split at hstep
      · exact h.unregisterFd hstep
      · cases hstep
  | refreshFdTimeout fd now =>
      simp only [EpollReactor.step] at hstep
      split at hstep <;> cases hstep
      next hguard =>
        simp only [Bool.and_eq_true, decide_eq_true_eq] at hguard
        exact (h.later hguard.2).refreshFdTimeout rfl fd
  | tick now =>
      simp only [EpollReactor.step] at hstep
      split at hstep
      next hguard =>
        simp only [Bool.and_eq_true, decide_eq_true_eq] at hguard
        rw [Option.map_eq_some_iff] at hstep
        rcases hstep with ⟨timers, -, rfl⟩
        constructor
        · exact (h.later hguard.2).clock
        · exact fun hne => absurd hguard.1 hne
      next => cases hstep
  | proceed =>
      simp only [EpollReactor.step] at hstep
      split at hstep
      · exact h.proceed hstep
      · cases hstep
  | handleFdTimeout now =>
      simp only [EpollReactor.step] at hstep
      split at hstep
      next fd hentered =>
        split at hstep
        next hnow => exact (h.later hnow).handleFdTimeout hentered hstep
        next => cases hstep
      next => cases hstep
  | callbackDone =>
      simp only [EpollReactor.step] at hstep
      split at hstep <;> cases hstep
      next fd hcallback =>
        exact Sound.queueFdClose (s := { s with handling := .none })
          ⟨h.clock, fun hne => absurd rfl hne⟩ fd
  | flushDeferredCloses =>
      simp only [EpollReactor.step] at hstep
      split at hstep <;> cases hstep
      exact h.flushDeferredCloses

theorem step_handleFdTimeout {fd now : ℕ} (hentered : s.handling = .entered fd)
    (hnow : s.clock ≤ now) :
    s.step (.handleFdTimeout now) = { s with clock := now }.handleFdTimeout fd now := by
  simp [EpollReactor.step, hentered, hnow]

/-- The comparison of `handle_fd_timeout`, with both sides in nanoseconds. -/
theorem handleFdTimeout_late {fd now : ℕ} (hlive : s.Live fd)
    (hlate : (s.fdStates fd).timeoutInterval.toInt ≤ s.elapsed fd now) :
    ∃ next, s.handleFdTimeout fd now = some next ∧ next.handling = .callback fd := by
  unfold elapsed at hlate
  simp [EpollReactor.handleFdTimeout, hlive.1, hlive.2, hlate]

/-- The wheel timer can be asked for another timer from one of its callbacks. -/
theorem Sound.addTimer_calling (h : s.Sound) {fd : ℕ} (hentered : s.handling = .entered fd)
    (timeout : Int64) : ∃ id added, s.addTimer timeout fd = some (id, added) ∧
      added.timers.history.added s.timers.history.adds =
        (s.timers.history.advances, timeout) := by
  have hcalling := h.calling (by simp [hentered])
  rcases hcalling with ⟨left, handles, compact, hactivity⟩
  simp [EpollReactor.addTimer, TimerRun.step, TimerRun.outside, hactivity, WheelTimer.add,
    TimerRun.recordAdd]

/-- Otherwise a timer is added whose milliseconds were computed as a difference of
milliseconds and nanoseconds. -/
theorem Sound.handleFdTimeout_early (h : s.Sound) {fd now : ℕ}
    (hentered : s.handling = .entered fd) (hlive : s.Live fd)
    (hearly : s.elapsed fd now < (s.fdStates fd).timeoutInterval.toInt) :
    ∃ next, s.handleFdTimeout fd now = some next ∧
      (next.timers.history.added s.timers.history.adds).2 =
        Int64.ofInt (((s.fdStates fd).timeoutInterval.toInt - s.elapsed fd now) / 1000000) := by
  rcases h.addTimer_calling hentered (Int64.ofInt
    (((s.fdStates fd).timeoutInterval.toInt - s.elapsed fd now) / 1000000)) with
    ⟨id, added, hadd, htimeout⟩
  unfold elapsed at hearly hadd htimeout ⊢
  refine ⟨{ added.setFd fd { s.fdStates fd with timeoutId := id } with handling := .none }, ?_, ?_⟩
  · simp [EpollReactor.handleFdTimeout, hlive.1, hlive.2, not_le.mpr hearly, hadd]
  · simp [EpollReactor.setFd, htimeout]

/-- What is expected of `handle_fd_timeout` is what it does exactly if the interval
has passed. -/
theorem Sound.respects_iff (h : s.Sound) (label : ReactorLabel) :
    s.Respects label ↔ s.Passed label := by
  constructor
  · intro hrespects fd now hentered hlabel hlive hnow
    subst hlabel
    have hstep := step_handleFdTimeout hentered hnow
    have hlater := h.later hnow
    have hlast := h.clock fd
    by_contra hnot
    have hearly := not_le.mp hnot
    unfold interval at hearly
    by_cases hlate : (s.fdStates fd).timeoutInterval.toInt ≤ s.elapsed fd now
    -- the connection is given up although its interval has not passed
    · rcases handleFdTimeout_late (s := { s with clock := now }) hlive hlate with
        ⟨next, hnext, hhandling⟩
      exact hnot ((hrespects fd now next hentered rfl hlive (hstep.trans hnext)).1 hhandling)
    -- the timer is added for too short a time
    · rcases hlater.handleFdTimeout_early hentered hlive (not_le.mp hlate) with
        ⟨next, hnext, htimeout⟩
      have hrearmed := (hrespects fd now next hentered rfl hlive (hstep.trans hnext)).2 hearly
      have hwanted := hrearmed.timeout
      have hgiven : (next.timers.history.added s.timers.history.adds).2 =
          Int64.ofInt (((s.fdStates fd).timeoutInterval.toInt - s.elapsed fd now) / 1000000) :=
        htimeout
      have hword := (s.fdStates fd).timeoutInterval.toInt_lt
      have hpassed : 0 ≤ s.elapsed fd now := by
        unfold elapsed
        omega
      rw [hgiven, Int64.toInt_ofInt_of_le (by omega) (by omega)] at hwanted
      unfold interval at hwanted
      have hone : (s.fdStates fd).timeoutInterval.toInt = 1 := by omega
      have hzero : s.elapsed fd now = 0 := by omega
      rw [hone, hzero] at hwanted
      omega
  · intro hpassed fd now next hentered hlabel hlive hstep
    subst hlabel
    have hnow : s.clock ≤ now := by
      by_contra hnot
      simp [EpollReactor.step, hentered, hnot] at hstep
    have hlate := hpassed fd now hentered rfl hlive hnow
    constructor
    · exact fun _ => hlate
    · exact fun hearly => absurd hlate (not_le.mpr hearly)

end Steps

/-- Along every run `handle_fd_timeout` does what is expected of it exactly if the
timeout interval has passed whenever it runs for a registration with a timeout. -/
theorem along_respects_iff (now : ℕ) (labels : List ReactorLabel) :
    Along step Respects (initial now) labels ↔ Along step Passed (initial now) labels := by
  apply along_congr _ _ labels (sound_initial now)
  · intro s label next hsound hstep
    exact hsound.step hstep
  · intro s label hsound
    exact hsound.respects_iff label

/-- Whether `handle_fd_timeout` gives up the connection for which it was entered. -/
def givesUp (s : EpollReactor) (now : ℕ) : Bool :=
  match s.handling, s.step (.handleFdTimeout now) with
  | .entered fd, some next =>
      (s.fdStates fd).callback && (s.fdStates fd).hasTimeout && next.handling = .callback fd &&
        s.elapsed fd now < s.interval fd
  | _, _ => false

theorem not_respects_of_givesUp {s : EpollReactor} {now : ℕ} (hgives : s.givesUp now = true) :
    ¬ s.Respects (.handleFdTimeout now) := by
  intro hrespects
  unfold givesUp at hgives
  split at hgives
  next fd next hentered hstep =>
    simp only [Bool.and_eq_true, decide_eq_true_eq] at hgives
    have hlate := (hrespects fd now next hentered rfl hgives.1.1 hstep).1 hgives.1.2
    exact absurd hgives.2 (not_lt.mpr hlate)
  next => cases hgives

/-- A connection with a timeout of 16 milliseconds that was active one millisecond
ago when its timer goes off. -/
def busyRun : List ReactorLabel :=
  [.registerFdWithTimeout 5 { readable := true } { readTimeout := 16 } 0 true,
    .refreshFdTimeout 5 15000000, .tick 16000000, .proceed, .proceed, .proceed]

theorem busyRun_gives_up :
    ¬ Along step Respects (initial 0) (busyRun ++ [.handleFdTimeout 16000000]) := by
  have hlast : ((exec step (initial 0) busyRun).any fun s => s.givesUp 16000000) = true := by
    decide +kernel
  intro halong
  cases hexec : exec step (initial 0) busyRun with
  | none =>
      rw [hexec] at hlast
      cases hlast
  | some s =>
      rw [hexec] at hlast
      exact not_respects_of_givesUp hlast (halong.last hexec)

end EpollReactor

end Reactor
end Katana
