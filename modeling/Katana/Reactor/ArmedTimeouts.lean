import Katana.Reactor.ActiveConnections
import Katana.Timer.ArmedTimers

/-!
# Timeouts that stay armed

A registration with a timeout never waits in vain: in every state that the reactor can
reach, the id in its entry is that of an armed timer, made for this descriptor and for no
longer than the timeout interval, or the timer has just gone off and is being handled.
The one exception is a registration that `unregister_fd` could not take out of epoll: its
timer is gone and the registration is still there.
-/

namespace Katana
namespace Reactor

open Library Timer

namespace EpollReactor

variable {s middle next : EpollReactor} {fd : ℕ}

/-! ## Runs of the wheel timer under the reactor -/

/-- The wheel timer has taken some steps. -/
abbrev TimerSteps (s next : EpollReactor) : Prop :=
  s.timers.Runs next.timers

theorem TimerSteps.refl (h : next.timers = s.timers) : TimerSteps s next := by
  rw [TimerSteps, h]
  exact TimerRun.Runs.refl _

theorem TimerSteps.reliable (h : TimerSteps s next) (hspaced : next.timers.Spaced) :
    s.timers.Spaced ∧ (s.timers.Reliable → next.timers.Reliable) :=
  TimerRun.Runs.reliable h (by decide) (by decide) hspaced

theorem addTimer_timerSteps {timeout : Int64} {id : ℕ}
    (hadd : s.addTimer timeout fd = some (id, next)) : TimerSteps s next := by
  simp only [EpollReactor.addTimer, Option.map_eq_some_iff, Prod.mk.injEq] at hadd
  rcases hadd with ⟨timers, hstep, -, rfl⟩
  have hlabel : TimerLabel.add timeout ≠ .throw := by simp
  exact .single hlabel hstep

theorem scheduleFdTimeout_timerSteps {now : ℕ} {state state' : FdState}
    (hschedule : s.scheduleFdTimeout fd state now = some (state', next)) : TimerSteps s next := by
  simp only [EpollReactor.scheduleFdTimeout, Option.map_eq_some_iff, Prod.mk.injEq] at hschedule
  rcases hschedule with ⟨result, hadd, -, rfl⟩
  exact addTimer_timerSteps hadd

theorem cancelFdTimeout_timerSteps {state state' : FdState}
    (hcancel : s.cancelFdTimeout state = some (state', next)) : TimerSteps s next := by
  simp only [EpollReactor.cancelFdTimeout] at hcancel
  split at hcancel
  · simp only [Option.map_eq_some_iff, Prod.mk.injEq] at hcancel
    rcases hcancel with ⟨timers, hstep, -, rfl⟩
    have hlabel : TimerLabel.cancel state.timeoutId ≠ .throw := by simp
    exact .single hlabel hstep
  · cases hcancel
    exact .refl rfl

theorem closeAll_timers (fds : List ℕ) (s : EpollReactor) :
    (fds.foldl (fun s fd => s.closeFdImmediate fd) s).timers = s.timers := by
  induction fds generalizing s with
  | nil => rfl
  | cons fd fds ih => exact ih (s.closeFdImmediate fd)

theorem queueFdClose_timers (fd : ℕ) (s : EpollReactor) :
    (s.queueFdClose fd).timers = s.timers := by
  unfold EpollReactor.queueFdClose
  dsimp only
  split
  · rfl
  · split <;> rfl

/-- Every step of the reactor is some steps of its wheel timer. -/
theorem step_timerSteps {label : ReactorLabel} (hstep : s.step label = some next) :
    TimerSteps s next := by
  cases label with
  | registerFd fd events now epollOk =>
      simp only [EpollReactor.step] at hstep
      split at hstep <;> cases hstep
      apply TimerSteps.refl
      unfold EpollReactor.registerFd
      split <;> rfl
  | registerFdWithTimeout fd events config now epollOk =>
      simp only [EpollReactor.step, EpollReactor.registerFdWithTimeout] at hstep
      split at hstep
      next =>
        split at hstep
        next => cases hstep
        next state scheduled hschedule =>
          have hscheduled := scheduleFdTimeout_timerSteps hschedule
          split at hstep
          · cases hstep
            exact hscheduled
          · rw [Option.map_eq_some_iff] at hstep
            rcases hstep with ⟨⟨state', cancelled⟩, hcancel, rfl⟩
            exact hscheduled.trans (cancelFdTimeout_timerSteps hcancel)
      next => cases hstep
  | modifyFd fd events now epollOk =>
      simp only [EpollReactor.step, EpollReactor.modifyFd] at hstep
      split at hstep
      next =>
        split at hstep
        next =>
          cases hstep
          exact .refl rfl
        next =>
          split at hstep
          next =>
            split at hstep
            next => cases hstep
            next state cancelled hcancel =>
              rw [Option.map_eq_some_iff] at hstep
              rcases hstep with ⟨⟨state', scheduled⟩, hschedule, rfl⟩
              have hscheduled := scheduleFdTimeout_timerSteps hschedule
              exact (cancelFdTimeout_timerSteps hcancel).trans hscheduled
          next =>
            cases hstep
            exact .refl rfl
      next => cases hstep
  | unregisterFd fd epollOk =>
      simp only [EpollReactor.step, EpollReactor.unregisterFd] at hstep
      split at hstep
      next =>
        split at hstep
        next =>
          cases hstep
          exact .refl rfl
        next =>
          split at hstep
          next => cases hstep
          next state cancelled hcancel =>
            have hcancelled := cancelFdTimeout_timerSteps hcancel
            split at hstep <;> cases hstep <;> exact hcancelled
      next => cases hstep
  | refreshFdTimeout fd now =>
      simp only [EpollReactor.step] at hstep
      split at hstep <;> cases hstep
      apply TimerSteps.refl
      unfold EpollReactor.refreshFdTimeout
      split <;> rfl
  | tick now =>
      simp only [EpollReactor.step] at hstep
      split at hstep
      next =>
        rw [Option.map_eq_some_iff] at hstep
        rcases hstep with ⟨timers, htick, rfl⟩
        have hlabel : TimerLabel.tick now ≠ .throw := by simp
        exact .single hlabel htick
      next => cases hstep
  | proceed =>
      simp only [EpollReactor.step, EpollReactor.proceed] at hstep
      split at hstep
      next =>
        rw [Option.map_eq_some_iff] at hstep
        rcases hstep with ⟨timers, hproceed, rfl⟩
        have hlabel : TimerLabel.proceed ≠ .throw := by simp
        exact .single hlabel hproceed
      next => cases hstep
  | handleFdTimeout now =>
      simp only [EpollReactor.step, EpollReactor.handleFdTimeout] at hstep
      split at hstep
      next fd _ =>
        split at hstep
        next =>
          split at hstep
          next =>
            cases hstep
            exact .refl rfl
          next =>
            split at hstep
            next =>
              cases hstep
              exact .refl rfl
            next =>
              rw [Option.map_eq_some_iff] at hstep
              rcases hstep with ⟨⟨id, added⟩, hadd, rfl⟩
              have hadded := addTimer_timerSteps hadd
              exact hadded
        next => cases hstep
      next => cases hstep
  | callbackDone =>
      simp only [EpollReactor.step] at hstep
      split at hstep <;> cases hstep
      exact .refl (queueFdClose_timers ..)
  | flushDeferredCloses =>
      simp only [EpollReactor.step] at hstep
      split at hstep <;> cases hstep
      exact .refl (closeAll_timers ..)

theorem exec_timerSteps {labels : List ReactorLabel} (hexec : exec step s labels = some next) :
    TimerSteps s next := by
  have hkeep : ∀ (middle : EpollReactor) label final, TimerSteps s middle →
      middle.step label = some final → TimerSteps s final :=
    fun middle label final h hstep => h.trans (step_timerSteps hstep)
  exact exec_invariant hkeep (TimerSteps.refl rfl) hexec

/-- Behind a run in which ids are not used up the wheel timer is reliable. -/
theorem exec_reliable {now : ℕ} {labels : List ReactorLabel} {final : EpollReactor}
    (hexec : exec step (initial now) labels = some final) (hspaced : final.timers.Spaced) :
    final.timers.Reliable :=
  ((exec_timerSteps hexec).reliable hspaced).2 (TimerRun.reliable_initial (by decide) now)

/-- Fewer than 2^32 - 1 timers do not use up the ids. -/
theorem spaced_of_adds {now : ℕ} {labels : List ReactorLabel} {final : EpollReactor}
    (hexec : exec step (initial now) labels = some final)
    (hadds : final.timers.history.adds < INDEX_WORD - 1) : final.timers.Spaced := by
  rcases exec_timerSteps hexec with ⟨timerLabels, -, hrun⟩
  exact TimerRun.spaced_of_adds hrun hadds

/-! ## Timers and registrations -/

/-- The timer is armed and was made for the descriptor, and the entry has its id. -/
structure Guards (s : EpollReactor) (fd timer : ℕ) : Prop where
  timerFd : s.timerFd timer = fd
  id : s.timers.history.ids timer = (s.fdStates fd).timeoutId
  armed : s.timers.history.Armed timer
  timeout : (s.timers.history.added timer).2.toInt ≤ (s.fdStates fd).timeoutInterval.toInt

/-- Every id in an entry is that of a timer made for the descriptor, and except for the
spared ones every registration with a timeout has its timer, or has failed to go. -/
structure TiedBut (spared failed : ℕ → Prop) (s : EpollReactor) : Prop where
  named : ∀ fd, (s.fdStates fd).timeoutId ≠ 0 → ∃ timer < s.timers.history.adds,
    s.timers.history.ids timer = (s.fdStates fd).timeoutId ∧ s.timerFd timer = fd
  guarded : ∀ fd, ¬ spared fd → s.Live fd →
    (∃ timer, s.Guards fd timer) ∨ (s.fdStates fd).timeoutId = 0 ∧ failed fd

/-- The timers that have been added are still known. -/
abbrev KeepsTimers (s next : EpollReactor) : Prop :=
  TimerRun.KeepsTimers s.timers next.timers s.timerFd next.timerFd

variable {spared spared' failed : ℕ → Prop}

theorem Guards.keep {timer : ℕ} (h : s.Guards fd timer) (hkeeps : KeepsTimers s next)
    (hfds : next.fdStates = s.fdStates) (harmed : next.timers.history.Armed timer) :
    next.Guards fd timer := by
  have hlt := h.armed.1.1
  constructor
  · rw [hkeeps.owner timer hlt]
    exact h.timerFd
  · rw [hkeeps.ids timer hlt, hfds]
    exact h.id
  · exact harmed
  · rw [hkeeps.added timer hlt, hfds]
    exact h.timeout

theorem TiedBut.keep (h : TiedBut spared failed s) (hkeeps : KeepsTimers s next)
    (hfds : next.fdStates = s.fdStates) (hspared : ∀ fd, spared fd → spared' fd)
    (harmed : ∀ fd timer, ¬ spared' fd → s.Guards fd timer →
      next.timers.history.Armed timer) : TiedBut spared' failed next := by
  constructor
  · intro fd hid
    rw [hfds] at hid ⊢
    rcases h.named fd hid with ⟨timer, hlt, hname, hmade⟩
    refine ⟨timer, hlt.trans_le hkeeps.adds, ?_, ?_⟩
    · rw [hkeeps.ids timer hlt, hname]
    · rw [hkeeps.owner timer hlt, hmade]
  · intro fd hnot hlive
    unfold Live at hlive
    rw [hfds] at hlive ⊢
    rcases h.guarded fd (fun hmem => hnot (hspared fd hmem)) hlive with ⟨timer, hguards⟩ | hfailed
    · exact .inl ⟨timer, hguards.keep hkeeps hfds (harmed fd timer hnot hguards)⟩
    · exact .inr hfailed

theorem TiedBut.congr (h : TiedBut spared failed s) (hfds : next.fdStates = s.fdStates)
    (htimers : next.timers = s.timers) (htimerFd : next.timerFd = s.timerFd) :
    TiedBut spared failed next := by
  have hkeeps : KeepsTimers s next := by
    constructor <;> simp [htimers, htimerFd]
  apply h.keep hkeeps hfds fun _ hmem => hmem
  intro other timer _ hguards
  rw [htimers]
  exact hguards.armed

/-- The entry of one descriptor is written. -/
theorem TiedBut.setFd (h : TiedBut spared failed s) {state : FdState}
    (hspared : ∀ other, other ≠ fd → spared other → spared' other)
    (hnamed : state.timeoutId ≠ 0 → ∃ timer < s.timers.history.adds,
      s.timers.history.ids timer = state.timeoutId ∧ s.timerFd timer = fd)
    (hguarded : ¬ spared' fd → state.callback = true ∧ state.hasTimeout = true →
      (∃ timer, (s.setFd fd state).Guards fd timer) ∨ state.timeoutId = 0 ∧ failed fd) :
    TiedBut spared' failed (s.setFd fd state) := by
  constructor
  · intro other hid
    by_cases heq : other = fd
    · subst heq
      simp only [EpollReactor.setFd, Function.update_self] at hid ⊢
      exact hnamed hid
    · simp only [EpollReactor.setFd, Function.update_of_ne heq] at hid ⊢
      exact h.named other hid
  · intro other hnot hlive
    by_cases heq : other = fd
    · subst heq
      simp only [Live, EpollReactor.setFd, Function.update_self] at hlive
      simpa [EpollReactor.setFd] using hguarded hnot hlive
    · have hsame : (s.setFd fd state).fdStates other = s.fdStates other := by
        simp [EpollReactor.setFd, heq]
      unfold Live at hlive
      rw [hsame] at hlive ⊢
      rcases h.guarded other (fun hmem => hnot (hspared other heq hmem)) hlive with
        ⟨timer, hguards⟩ | hfailed
      · left
        refine ⟨timer, hguards.timerFd, ?_, hguards.armed, ?_⟩
        · rw [hsame]
          exact hguards.id
        · rw [hsame]
          exact hguards.timeout
      · exact .inr hfailed

/-- A registration is taken out of the table. -/
theorem TiedBut.clear (h : TiedBut spared failed s) {state : FdState}
    (hspared : ∀ other, other ≠ fd → spared other → spared' other) (hid : state.timeoutId = 0)
    (hdead : state.callback = false ∨ state.hasTimeout = false) :
    TiedBut spared' failed (s.setFd fd state) := by
  apply h.setFd hspared
  · exact fun hne => absurd hid hne
  · intro _ hlive
    rcases hdead with hdead | hdead
    · rw [hdead] at hlive
      cases hlive.1
    · rw [hdead] at hlive
      cases hlive.2

/-! ## What the timer calls do -/

/-- What `wheel_timer_.add` does. -/
structure AddsTimer (s next : EpollReactor) (fd id : ℕ) (timeout : Int64) : Prop extends
    TimerRun.AddsTimer s.timers next.timers s.timerFd next.timerFd fd id timeout where
  fdStates : next.fdStates = s.fdStates

theorem addTimer_adds (hreliable : s.timers.Reliable) {timeout : Int64} {id : ℕ}
    (hadd : s.addTimer timeout fd = some (id, next)) : AddsTimer s next fd id timeout := by
  simp only [EpollReactor.addTimer, Option.map_eq_some_iff, Prod.mk.injEq] at hadd
  rcases hadd with ⟨timers, hstep, rfl, rfl⟩
  constructor
  · exact hreliable.addsTimer hstep
  · rfl

theorem AddsTimer.tied {id : ℕ} {timeout : Int64} (hadds : AddsTimer s next fd id timeout)
    (h : TiedBut spared failed s) :
    TiedBut spared failed next := by
  apply h.keep hadds.keeps hadds.fdStates fun _ hmem => hmem
  intro other timer _ hguards
  exact (hadds.armed timer).mpr (.inr hguards.armed)

/-- The new timer guards the descriptor if its id is written into the entry. -/
theorem AddsTimer.guards {id : ℕ} {timeout : Int64} (hadds : AddsTimer s next fd id timeout)
    {state : FdState} (hid : state.timeoutId = id)
    (hinterval : timeout.toInt ≤ state.timeoutInterval.toInt) :
    (next.setFd fd state).Guards fd s.timers.history.adds := by
  constructor
  · exact hadds.owner
  · simpa [EpollReactor.setFd, hid] using hadds.id
  · exact (hadds.armed _).mpr (.inl rfl)
  · simpa [EpollReactor.setFd, hadds.added] using hinterval

/-- The timer that was just added is tied to the descriptor. -/
theorem AddsTimer.setFd {id : ℕ} {timeout : Int64} (hadds : AddsTimer s next fd id timeout)
    (h : TiedBut spared failed s) {state : FdState} (hid : state.timeoutId = id)
    (hinterval : timeout.toInt ≤ state.timeoutInterval.toInt)
    (hspared : ∀ other, other ≠ fd → spared other → spared' other) :
    TiedBut spared' failed (next.setFd fd state) := by
  apply (hadds.tied h).setFd hspared
  · intro _
    refine ⟨s.timers.history.adds, ?_, ?_, hadds.owner⟩
    · rw [hadds.adds]
      exact Nat.lt_succ_self _
    · rw [hadds.id, hid]
  · intro _ _
    exact .inl ⟨_, hadds.guards hid hinterval⟩

/-- What `schedule_fd_timeout` does. -/
theorem scheduleFdTimeout_adds (hreliable : s.timers.Reliable) {now : ℕ} {state state' : FdState}
    (hschedule : s.scheduleFdTimeout fd state now = some (state', next)) :
    AddsTimer s next fd state'.timeoutId state'.timeoutInterval ∧
      state' = { state with
        timeoutInterval := fdTimeoutFor state, lastActivity := now,
        timeoutId := state'.timeoutId } := by
  simp only [EpollReactor.scheduleFdTimeout, Option.map_eq_some_iff, Prod.mk.injEq] at hschedule
  rcases hschedule with ⟨⟨id, added⟩, hadd, rfl, rfl⟩
  exact ⟨addTimer_adds hreliable hadd, rfl⟩

/-- What `cancel_fd_timeout` does with the id of a timer. -/
structure CancelsTimer (s next : EpollReactor) (id : ℕ) : Prop extends
    TimerRun.CancelsTimer s.timers next.timers s.timerFd id where
  timerFd : next.timerFd = s.timerFd
  fdStates : next.fdStates = s.fdStates
  handling : next.handling = s.handling

theorem cancelFdTimeout_cancels (hreliable : s.timers.Reliable) {state state' : FdState}
    (hnamed : state.timeoutId ≠ 0 → ∃ timer < s.timers.history.adds,
      s.timers.history.ids timer = state.timeoutId)
    (hcancel : s.cancelFdTimeout state = some (state', next)) :
    CancelsTimer s next state.timeoutId ∧ state' = { state with timeoutId := 0 } := by
  simp only [EpollReactor.cancelFdTimeout] at hcancel
  split at hcancel
  next hid =>
    rw [Option.map_eq_some_iff] at hcancel
    rcases hcancel with ⟨timers, hstep, hcancel⟩
    cases hcancel
    exact ⟨⟨hreliable.cancelsTimer (hnamed hid) hstep, rfl, rfl, rfl⟩, rfl⟩
  next hid =>
    cases hcancel
    simp only [ne_eq, not_not] at hid
    have hnone := hreliable.cancelsNone s.timerFd
    rw [← hid] at hnone
    refine ⟨⟨hnone, rfl, rfl, rfl⟩, ?_⟩
    rw [← hid]

theorem CancelsTimer.keepsTimers {id : ℕ} (h : CancelsTimer s next id) : KeepsTimers s next := by
  rw [KeepsTimers, h.timerFd]
  exact h.keeps

/-- Of the timers of the registrations, `cancel_fd_timeout` disarms that of its own only. -/
theorem CancelsTimer.tied (hcancels : CancelsTimer s next (s.fdStates fd).timeoutId)
    (hreliable : s.timers.Reliable) (h : TiedBut spared failed s) :
    TiedBut (fun other => spared other ∨ other = fd) failed next := by
  apply h.keep hcancels.keepsTimers hcancels.fdStates fun _ hmem => .inl hmem
  intro other timer hnot hguards
  rw [hcancels.armed]
  refine ⟨hguards.armed, fun hsame => ?_⟩
  have hne : (s.fdStates fd).timeoutId ≠ 0 := hsame ▸ hreliable.ids_ne_zero hguards.armed
  rcases h.named fd hne with ⟨own, hlt, hname, hmade⟩
  have heq : timer = own := by
    apply hreliable.identified.different timer hguards.armed.1.1 own hlt
    rw [hsame, hname]
  apply hnot
  right
  rw [← hguards.timerFd, heq, hmade]

/-! ## Steps -/

/-- A registration whose timer has gone off is spared while it is being handled. -/
def Tied (failed : ℕ → Prop) (s : EpollReactor) : Prop :=
  TiedBut (fun fd => s.handling = .entered fd) failed s

theorem TiedBut.mono {failed' : ℕ → Prop} (h : TiedBut spared failed s)
    (hspared : ∀ fd, spared fd → spared' fd) (hfailed : ∀ fd, failed fd → failed' fd) :
    TiedBut spared' failed' s := by
  constructor
  · exact h.named
  · intro fd hnot hlive
    rcases h.guarded fd (fun hmem => hnot (hspared fd hmem)) hlive with hguards | hzero
    · exact .inl hguards
    · exact .inr ⟨hzero.1, hfailed fd hzero.2⟩

theorem Tied.none (h : Tied failed s) (hhandling : ∀ fd, s.handling ≠ .entered fd) :
    TiedBut (fun _ => False) failed s :=
  TiedBut.mono h (fun fd hentered => hhandling fd hentered) fun _ hmem => hmem

theorem Tied.of_none (h : TiedBut (fun _ => False) failed s) : Tied failed s :=
  h.mono (fun _ hmem => hmem.elim) fun _ hmem => hmem

theorem not_entered_of_outside (houtside : s.outside = true) (fd : ℕ) :
    s.handling ≠ .entered fd := by
  intro hentered
  simp [EpollReactor.outside, hentered] at houtside

theorem TiedBut.registerFd (h : TiedBut spared failed s) (events : Events) (now : ℕ)
    (epollOk : Bool) : TiedBut spared failed (s.registerFd fd events now epollOk) := by
  unfold EpollReactor.registerFd
  split
  · have hset : TiedBut spared failed (s.setFd fd
        { callback := true, events := events, lastActivity := now }) :=
      h.clear (fun _ _ hmem => hmem) rfl (.inr rfl)
    exact hset.congr rfl rfl rfl
  · exact h

theorem TiedBut.registerFdWithTimeout (h : TiedBut spared failed s)
    (hreliable : s.timers.Reliable) (hspaced : next.timers.Spaced) {events : Events}
    {config : TimeoutConfig} {now : ℕ} {epollOk : Bool}
    (hregister : s.registerFdWithTimeout fd events config now epollOk = some next) :
    TiedBut spared failed next := by
  simp only [EpollReactor.registerFdWithTimeout] at hregister
  split at hregister
  next => cases hregister
  next state scheduled hschedule =>
    rcases scheduleFdTimeout_adds hreliable hschedule with ⟨hadds, -⟩
    split at hregister
    next =>
      cases hregister
      have hset : TiedBut spared failed (scheduled.setFd fd state) :=
        hadds.setFd h rfl le_rfl fun _ _ hmem => hmem
      exact hset.congr rfl rfl rfl
    next =>
      rw [Option.map_eq_some_iff] at hregister
      rcases hregister with ⟨⟨state', cancelled⟩, hcancel, rfl⟩
      have hspaced' := ((cancelFdTimeout_timerSteps hcancel).reliable hspaced).1
      have hscheduled := ((scheduleFdTimeout_timerSteps hschedule).reliable hspaced').2 hreliable
      have hnamed : state.timeoutId ≠ 0 → ∃ timer < scheduled.timers.history.adds,
          scheduled.timers.history.ids timer = state.timeoutId := by
        intro _
        refine ⟨s.timers.history.adds, ?_, hadds.id⟩
        rw [hadds.adds]
        exact Nat.lt_succ_self _
      rcases cancelFdTimeout_cancels hscheduled hnamed hcancel with ⟨hcancels, -⟩
      -- the timers that were there before are not the one that was just added
      apply h.keep (hadds.keeps.trans hcancels.keepsTimers) (hcancels.fdStates.trans hadds.fdStates)
        fun _ hmem => hmem
      intro other timer _ hguards
      have harmed := (hadds.armed timer).mpr (.inr hguards.armed)
      rw [hcancels.armed, ← hadds.id]
      refine ⟨harmed, fun hsame => ?_⟩
      have heq : timer = s.timers.history.adds := by
        apply hscheduled.identified.different timer harmed.1.1 _ _ hsame
        rw [hadds.adds]
        exact Nat.lt_succ_self _
      exact (heq ▸ hguards.armed.1.1).false

/-- The timer of an entry is cancelled; the entry is still the one with the id. -/
theorem TiedBut.cancelFdTimeout (h : TiedBut spared failed s) (hreliable : s.timers.Reliable)
    {state state' : FdState} (hcancel : s.cancelFdTimeout state = some (state', next))
    (hid : state.timeoutId = (s.fdStates fd).timeoutId) :
    TiedBut (fun other => spared other ∨ other = fd) failed next ∧
      next.fdStates = s.fdStates ∧ next.handling = s.handling ∧
        state' = { state with timeoutId := 0 } := by
  have hnamed : state.timeoutId ≠ 0 → ∃ timer < s.timers.history.adds,
      s.timers.history.ids timer = state.timeoutId := by
    intro hne
    rw [hid] at hne ⊢
    rcases h.named fd hne with ⟨timer, hlt, hname, -⟩
    exact ⟨timer, hlt, hname⟩
  rcases cancelFdTimeout_cancels hreliable hnamed hcancel with ⟨hcancels, hstate⟩
  rw [hid] at hcancels
  exact ⟨hcancels.tied hreliable h, hcancels.fdStates, hcancels.handling, hstate⟩

theorem TiedBut.modifyFd (h : TiedBut spared failed s) (hreliable : s.timers.Reliable)
    (hspaced : next.timers.Spaced) {events : Events} {now : ℕ} {epollOk : Bool}
    (hmodify : s.modifyFd fd events now epollOk = some next) : TiedBut spared failed next := by
  simp only [EpollReactor.modifyFd] at hmodify
  split at hmodify
  next =>
    cases hmodify
    exact h
  next =>
    split at hmodify
    next =>
      split at hmodify
      next => cases hmodify
      next state cancelled hcancel =>
        rw [Option.map_eq_some_iff] at hmodify
        rcases hmodify with ⟨⟨state', scheduled⟩, hschedule, rfl⟩
        have hspaced' := ((scheduleFdTimeout_timerSteps hschedule).reliable hspaced).1
        have hcancelled := ((cancelFdTimeout_timerSteps hcancel).reliable hspaced').2 hreliable
        have htied := (h.cancelFdTimeout hreliable hcancel rfl).1
        rcases scheduleFdTimeout_adds hcancelled hschedule with ⟨hadds, -⟩
        apply hadds.setFd htied rfl le_rfl
        intro other hne hmem
        exact hmem.resolve_right hne
    next hno =>
      cases hmodify
      apply h.setFd fun _ _ hmem => hmem
      · exact h.named fd
      · exact fun _ hlive => absurd hlive.2 hno

theorem TiedBut.unregisterFd (h : TiedBut spared failed s) (hreliable : s.timers.Reliable)
    {epollOk : Bool} (hunregister : s.unregisterFd fd epollOk = some next) :
    TiedBut spared (fun other => failed other ∨ other = fd ∧ epollOk = false) next := by
  have hmore : ∀ other, failed other → failed other ∨ other = fd ∧ epollOk = false :=
    fun _ hmem => .inl hmem
  simp only [EpollReactor.unregisterFd] at hunregister
  split at hunregister
  next =>
    cases hunregister
    exact h.mono (fun _ hmem => hmem) hmore
  next =>
    split at hunregister
    next => cases hunregister
    next state cancelled hcancel =>
      rcases h.cancelFdTimeout hreliable hcancel rfl with ⟨htied, -, -, hstate⟩
      split at hunregister
      next =>
        cases hunregister
        have hset : TiedBut spared failed (cancelled.setFd fd {}) := by
          apply htied.clear _ rfl (.inl rfl)
          exact fun other hne hmem => hmem.resolve_right hne
        exact (hset.mono (fun _ hmem => hmem) hmore).congr rfl rfl rfl
      next hfailed =>
        cases hunregister
        have hzero : state.timeoutId = 0 := by rw [hstate]
        apply (htied.mono (fun _ hmem => hmem) hmore).setFd
        · exact fun other hne hmem => hmem.resolve_right hne
        · exact fun hne => absurd hzero hne
        · exact fun _ _ => .inr ⟨hzero, .inr ⟨rfl, by simpa using hfailed⟩⟩

theorem TiedBut.refreshFdTimeout (h : TiedBut spared failed s) (fd now : ℕ) :
    TiedBut spared failed (s.refreshFdTimeout fd now) := by
  unfold EpollReactor.refreshFdTimeout
  split
  next htimeout =>
    apply h.setFd fun _ _ hmem => hmem
    · exact h.named fd
    · intro hnot hlive
      rcases h.guarded fd hnot hlive with ⟨timer, hguards⟩ | hzero
      · left
        refine ⟨timer, hguards.timerFd, ?_, hguards.armed, ?_⟩
        · simpa [EpollReactor.setFd] using hguards.id
        · simpa [EpollReactor.setFd] using hguards.timeout
      · exact .inr hzero
  next => exact h

theorem TiedBut.closeFdImmediate (h : TiedBut spared failed s) (fd : ℕ) :
    TiedBut spared failed (s.closeFdImmediate fd) := by
  have hset : TiedBut spared failed (s.setFd fd {}) :=
    h.clear (fun _ _ hmem => hmem) rfl (.inl rfl)
  exact hset.congr rfl rfl rfl

theorem TiedBut.queueFdClose (h : TiedBut spared failed s) (fd : ℕ) :
    TiedBut spared failed (s.queueFdClose fd) := by
  unfold EpollReactor.queueFdClose
  dsimp only
  split
  · apply TiedBut.closeFdImmediate
    exact h.congr rfl rfl rfl
  · split
    · exact h.congr rfl rfl rfl
    · apply TiedBut.closeFdImmediate
      exact h.congr rfl rfl rfl

theorem TiedBut.flushDeferredCloses (h : TiedBut spared failed s) :
    TiedBut spared failed s.flushDeferredCloses := by
  unfold EpollReactor.flushDeferredCloses
  generalize s.deferredCloses.take MAX_BATCH = closes
  have hstart : TiedBut spared failed
      { s with deferredCloses := s.deferredCloses.drop MAX_BATCH } := h.congr rfl rfl rfl
  generalize ({ s with deferredCloses := s.deferredCloses.drop MAX_BATCH } :
    EpollReactor) = start at hstart
  induction closes generalizing start with
  | nil => exact hstart
  | cons fd closes ih => exact ih _ (hstart.closeFdImmediate fd)

/-- The descriptor whose timer has gone off gets another timer or is not live any more. -/
theorem Tied.handleFdTimeout (h : s.Tied failed) (hsound : s.Sound)
    (hreliable : s.timers.Reliable) {now : ℕ} (hentered : s.handling = .entered fd)
    (hnow : s.clock ≤ now) (hhandle : s.handleFdTimeout fd now = some next) :
    TiedBut (fun _ => False) failed next := by
  have honly : ∀ other, other ≠ fd → s.handling = .entered other → False := by
    intro other hne hother
    rw [hentered] at hother
    cases hother
    exact hne rfl
  simp only [EpollReactor.handleFdTimeout] at hhandle
  split at hhandle
  next hdead =>
    cases hhandle
    simp only [Bool.or_eq_true, Bool.not_eq_true'] at hdead
    constructor
    · exact h.named
    · intro other _ hlive
      by_cases heq : other = fd
      · subst heq
        rcases hdead with hdead | hdead
        · rw [hlive.1] at hdead
          cases hdead
        · rw [hlive.2] at hdead
          cases hdead
      · have hrest := (TiedBut.congr h rfl rfl rfl : TiedBut _ failed
          { s with handling := .none }).guarded other (honly other heq) hlive
        exact hrest
  next =>
    split at hhandle
    next =>
      cases hhandle
      have hset : TiedBut (fun _ => False) failed (s.setFd fd
          { s.fdStates fd with callback := false, hasTimeout := false, timeoutId := 0 }) :=
        TiedBut.clear h honly rfl (.inl rfl)
      exact hset.congr rfl rfl rfl
    next hearly =>
      rw [Option.map_eq_some_iff] at hhandle
      rcases hhandle with ⟨⟨id, added⟩, hadd, rfl⟩
      have hadds := addTimer_adds hreliable hadd
      have hlast := hsound.clock fd
      have hword := (s.fdStates fd).timeoutInterval.toInt_lt
      have hset : TiedBut (fun _ => False) failed
          (added.setFd fd { s.fdStates fd with timeoutId := id }) := by
        apply hadds.setFd h rfl _ honly
        rw [Int64.toInt_ofInt_of_le (by omega) (by omega)]
        show _ ≤ (s.fdStates fd).timeoutInterval.toInt
        omega
      exact hset.congr rfl rfl rfl

/-- A timer that goes off is handled for the descriptor that it guards. -/
theorem Tied.proceed (h : TiedBut (fun _ => False) failed s) (hreliable : s.timers.Reliable)
    (hproceed : s.proceed = some next) : next.Tied failed := by
  simp only [EpollReactor.proceed, Option.map_eq_some_iff] at hproceed
  rcases hproceed with ⟨timers, hstep, rfl⟩
  rcases TimerRun.proceed_same hstep with ⟨hadds, hids, hadded⟩
  apply h.keep
  · exact TimerRun.keepsTimers_of_same hadds hids hadded
  · rfl
  · exact fun _ hmem => hmem.elim
  · intro fd timer hnot hguards
    rcases hreliable.armed_proceed hstep hguards.armed with harmed | ⟨⟨left, handles, compact,
      hcalling⟩, hlast⟩
    · exact harmed
    · apply absurd _ hnot
      simp only [hcalling, hlast, hguards.timerFd]

/-- What every step keeps. -/
theorem Tied.step (h : s.Tied failed) (hsound : s.Sound) (hreliable : s.timers.Reliable)
    {label : ReactorLabel} (hstep : s.step label = some next) (hspaced : next.timers.Spaced) :
    next.Tied fun fd => failed fd ∨ label = .unregisterFd fd false := by
  have hmore : ∀ fd, failed fd → failed fd ∨ label = .unregisterFd fd false :=
    fun _ hmem => .inl hmem
  cases label with
  | registerFd fd events now epollOk =>
      simp only [EpollReactor.step] at hstep
      split at hstep <;> cases hstep
      next hguard =>
        simp only [Bool.and_eq_true, decide_eq_true_eq] at hguard
        have hfree := h.none (not_entered_of_outside hguard.1)
        have hlater : TiedBut (fun _ => False) failed { s with clock := now } :=
          hfree.congr rfl rfl rfl
        exact .of_none ((hlater.registerFd events now epollOk).mono (fun _ hmem => hmem) hmore)
  | registerFdWithTimeout fd events config now epollOk =>
      simp only [EpollReactor.step] at hstep
      split at hstep
      next hguard =>
        simp only [Bool.and_eq_true, decide_eq_true_eq] at hguard
        have hfree := h.none (not_entered_of_outside hguard.1)
        have hlater : TiedBut (fun _ => False) failed { s with clock := now } :=
          hfree.congr rfl rfl rfl
        exact .of_none ((hlater.registerFdWithTimeout hreliable hspaced hstep).mono
          (fun _ hmem => hmem) hmore)
      next => cases hstep
  | modifyFd fd events now epollOk =>
      simp only [EpollReactor.step] at hstep
      split at hstep
      next hguard =>
        simp only [Bool.and_eq_true, decide_eq_true_eq] at hguard
        have hfree := h.none (not_entered_of_outside hguard.1)
        have hlater : TiedBut (fun _ => False) failed { s with clock := now } :=
          hfree.congr rfl rfl rfl
        exact .of_none ((hlater.modifyFd hreliable hspaced hstep).mono
          (fun _ hmem => hmem) hmore)
      next => cases hstep
  | unregisterFd fd epollOk =>
      simp only [EpollReactor.step] at hstep
      split at hstep
      next hguard =>
        have hfree := h.none (not_entered_of_outside hguard)
        apply Tied.of_none ((hfree.unregisterFd hreliable hstep).mono (fun _ hmem => hmem) _)
        intro other hmem
        rcases hmem with hmem | ⟨rfl, rfl⟩
        · exact .inl hmem
        · exact .inr rfl
      next => cases hstep
  | refreshFdTimeout fd now =>
      simp only [EpollReactor.step] at hstep
      split at hstep <;> cases hstep
      next hguard =>
        simp only [Bool.and_eq_true, decide_eq_true_eq] at hguard
        have hfree := h.none (not_entered_of_outside hguard.1)
        have hlater : TiedBut (fun _ => False) failed { s with clock := now } :=
          hfree.congr rfl rfl rfl
        exact .of_none ((hlater.refreshFdTimeout fd now).mono (fun _ hmem => hmem) hmore)
  | tick now =>
      simp only [EpollReactor.step] at hstep
      split at hstep
      next hguard =>
        simp only [Bool.and_eq_true, decide_eq_true_eq] at hguard
        rw [Option.map_eq_some_iff] at hstep
        rcases hstep with ⟨timers, htick, rfl⟩
        have hfree := h.none (by simp [hguard.1])
        simp only [TimerRun.step] at htick
        split at htick <;> cases htick
        apply Tied.of_none
        apply TiedBut.keep (hfree.mono (fun _ hmem => hmem) hmore)
        · exact ⟨le_rfl, fun _ _ => rfl, fun _ _ => rfl, fun _ _ => rfl⟩
        · rfl
        · exact fun _ hmem => hmem
        · exact fun _ _ _ hguards => hguards.armed
      next => cases hstep
  | proceed =>
      simp only [EpollReactor.step] at hstep
      split at hstep
      next hguard =>
        have hfree := h.none (by simp [hguard])
        exact TiedBut.mono (Tied.proceed hfree hreliable hstep) (fun _ hmem => hmem) hmore
      next => cases hstep
  | handleFdTimeout now =>
      simp only [EpollReactor.step] at hstep
      split at hstep
      next fd hentered =>
        split at hstep
        next hnow =>
          have hlater : Tied failed { s with clock := now } := TiedBut.congr h rfl rfl rfl
          exact .of_none ((hlater.handleFdTimeout (hsound.later hnow) hreliable hentered le_rfl
            hstep).mono (fun _ hmem => hmem) hmore)
        next => cases hstep
      next => cases hstep
  | callbackDone =>
      simp only [EpollReactor.step] at hstep
      split at hstep <;> cases hstep
      next fd hcallback =>
        have hfree := h.none (by simp [hcallback])
        have hdone : TiedBut (fun _ => False) failed { s with handling := .none } :=
          hfree.congr rfl rfl rfl
        exact .of_none ((hdone.queueFdClose fd).mono (fun _ hmem => hmem) hmore)
  | flushDeferredCloses =>
      simp only [EpollReactor.step] at hstep
      split at hstep <;> cases hstep
      next hhandling hidle =>
        have hfree := h.none (by simp [hhandling])
        exact .of_none (hfree.flushDeferredCloses.mono (fun _ hmem => hmem) hmore)

theorem tied_initial (now : ℕ) : (initial now).Tied fun _ => False := by
  constructor
  · intro fd hid
    exact absurd rfl hid
  · intro fd _ hlive
    cases hlive.1

/-! ## Runs -/

theorem exec_tied {labels : List ReactorLabel} (htied : s.timers.Spaced → s.Tied failed)
    (hsound : s.Sound) (hreliable : s.timers.Spaced → s.timers.Reliable)
    (hexec : exec step s labels = some next) (hspaced : next.timers.Spaced) :
    next.Tied fun fd => failed fd ∨ .unregisterFd fd false ∈ labels := by
  induction labels generalizing s failed with
  | nil =>
      cases hexec
      apply TiedBut.mono (htied hspaced) fun _ hmem => hmem
      exact fun _ hmem => .inl hmem
  | cons label rest ih =>
      rcases exec_cons.mp hexec with ⟨middle, hstep, hrest⟩
      have hsteps := step_timerSteps hstep
      have hmiddle : middle.timers.Spaced →
          middle.Tied fun fd => failed fd ∨ label = .unregisterFd fd false := by
        intro hspaced'
        have hbefore := (hsteps.reliable hspaced').1
        exact (htied hbefore).step hsound (hreliable hbefore) hstep hspaced'
      have hknown : middle.timers.Spaced → middle.timers.Reliable := by
        intro hspaced'
        have hbefore := hsteps.reliable hspaced'
        exact hbefore.2 (hreliable hbefore.1)
      apply TiedBut.mono (ih hmiddle (hsound.step hstep) hknown hrest) fun _ hmem => hmem
      intro fd hmem
      rcases hmem with (hmem | rfl) | hmem
      · exact .inl hmem
      · exact .inr List.mem_cons_self
      · exact .inr (List.mem_cons_of_mem _ hmem)

/-- In every run in which ids are not used up, every registration with a timeout is being
handled because its timer has gone off, or has an armed timer of its own, which goes off in a
call of `advance_slot` still to come, or has lost its timer to a failed `unregister_fd`. -/
theorem exec_armed {now : ℕ} {labels : List ReactorLabel} {final : EpollReactor}
    (hexec : exec step (initial now) labels = some final) (hspaced : final.timers.Spaced)
    {fd : ℕ} (hlive : final.Live fd) : final.handling = .entered fd ∨
      (∃ timer, final.Guards fd timer ∧
        final.timers.finished < final.timers.history.fires 2048 8 timer) ∨
      (final.fdStates fd).timeoutId = 0 ∧ .unregisterFd fd false ∈ labels := by
  have htied := exec_tied (fun _ => tied_initial now) (sound_initial now)
    (fun _ => TimerRun.reliable_initial (by decide) now) hexec hspaced
  have hreliable := exec_reliable hexec hspaced
  by_cases hentered : final.handling = .entered fd
  · exact .inl hentered
  · rcases htied.guarded fd hentered hlive with ⟨timer, hguards⟩ | hfailed
    · exact .inr (.inl ⟨timer, hguards, hreliable.finished_lt hguards.armed⟩)
    · exact .inr (.inr ⟨hfailed.1, hfailed.2.resolve_left id⟩)

/-- A connection whose timer is replaced by `modify_fd`, beside one that is refreshed. -/
def armedRun : List ReactorLabel :=
  [.registerFdWithTimeout 5 { readable := true } { readTimeout := 16 } 0 true,
    .registerFdWithTimeout 6 { readable := true } { readTimeout := 32 } 0 true,
    .modifyFd 5 { writable := true } 1000000 true, .refreshFdTimeout 6 2000000,
    .tick 16000000, .proceed, .proceed, .proceed, .proceed]

theorem exec_armed_armedRun : ∃ final, exec step (initial 0) armedRun = some final ∧
    ∃ timer, final.Guards 5 timer := by
  have hlast : ((exec step (initial 0) armedRun).any fun final =>
      (final.fdStates 5).callback && (final.fdStates 5).hasTimeout &&
        (final.handling ≠ .entered 5 && (final.fdStates 5).timeoutId ≠ 0 &&
          final.timers.history.adds < 10)) = true := by
    decide +kernel
  cases hexec : exec step (initial 0) armedRun with
  | none =>
      rw [hexec] at hlast
      cases hlast
  | some final =>
      rw [hexec] at hlast
      simp only [Option.any_some, Bool.and_eq_true, decide_eq_true_eq] at hlast
      have hspaced : final.timers.Spaced :=
        spaced_of_adds hexec (hlast.2.2.trans (by decide))
      refine ⟨final, rfl, ?_⟩
      rcases exec_armed hexec hspaced hlast.1 with hentered | ⟨timer, hguards, -⟩ | hfailed
      · exact absurd hentered hlast.2.1.1
      · exact ⟨timer, hguards⟩
      · exact absurd hfailed.1 hlast.2.1.2

end EpollReactor

end Reactor
end Katana
