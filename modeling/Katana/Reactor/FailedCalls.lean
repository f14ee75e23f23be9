import Katana.Reactor.ArmedTimeouts

/-!
# Calls that fail

What `register_fd`, `register_fd_with_timeout`, `modify_fd` and `unregister_fd` leave behind
when they return an error.  The timer that a failed registration has added is cancelled
again.  A failed `unregister_fd` has cancelled the timer of the registration already.
-/

namespace Katana
namespace Reactor

open Library Timer

namespace EpollReactor

variable {s next : EpollReactor} {fd : ℕ}

/-- The call returns an error: there is no registration, or `epoll_ctl` has failed. -/
def fails (s : EpollReactor) : ReactorLabel → Bool
  | .registerFd _ _ _ epollOk | .registerFdWithTimeout _ _ _ _ epollOk => !epollOk
  | .modifyFd fd _ _ epollOk | .unregisterFd fd epollOk =>
      !(s.fdStates fd).callback || !epollOk
  | _ => false

/-- Registrations, their number and the armed timers are what they were. -/
structure NoTrace (s next : EpollReactor) : Prop where
  fdStates : next.fdStates = s.fdStates
  activeFds : next.activeFds = s.activeFds
  armed : ∀ timer, next.timers.history.Armed timer ↔ s.timers.history.Armed timer

/-- The registration that the call should have ended, if it had a timer. -/
def abandons (s : EpollReactor) : ReactorLabel → Option ℕ
  | .unregisterFd fd _ =>
      if (s.fdStates fd).callback && (s.fdStates fd).timeoutId ≠ 0 then some fd else none
  | _ => none

/-- The timer of a registration is gone, and nothing else. -/
structure LosesTimer (s next : EpollReactor) (fd : ℕ) : Prop where
  fdStates : next.fdStates =
    Function.update s.fdStates fd { s.fdStates fd with timeoutId := 0 }
  activeFds : next.activeFds = s.activeFds
  armed : ∀ timer, next.timers.history.Armed timer ↔
    s.timers.history.Armed timer ∧ s.timers.history.ids timer ≠ (s.fdStates fd).timeoutId

theorem NoTrace.refl (hfds : next.fdStates = s.fdStates) (hactive : next.activeFds = s.activeFds)
    (htimers : next.timers = s.timers) : NoTrace s next := by
  constructor
  · exact hfds
  · exact hactive
  · intro timer
    rw [htimers]

theorem activeFds_addTimer {timeout : Int64} {id : ℕ}
    (hadd : s.addTimer timeout fd = some (id, next)) : next.activeFds = s.activeFds := by
  simp only [EpollReactor.addTimer, Option.map_eq_some_iff, Prod.mk.injEq] at hadd
  rcases hadd with ⟨timers, -, -, rfl⟩
  rfl

theorem activeFds_scheduleFdTimeout {now : ℕ} {state state' : FdState}
    (hschedule : s.scheduleFdTimeout fd state now = some (state', next)) :
    next.activeFds = s.activeFds := by
  simp only [EpollReactor.scheduleFdTimeout, Option.map_eq_some_iff, Prod.mk.injEq] at hschedule
  rcases hschedule with ⟨result, hadd, -, rfl⟩
  exact activeFds_addTimer hadd

theorem activeFds_cancelFdTimeout {state state' : FdState}
    (hcancel : s.cancelFdTimeout state = some (state', next)) : next.activeFds = s.activeFds := by
  simp only [EpollReactor.cancelFdTimeout] at hcancel
  split at hcancel
  · simp only [Option.map_eq_some_iff, Prod.mk.injEq] at hcancel
    rcases hcancel with ⟨timers, -, -, rfl⟩
    rfl
  · cases hcancel
    rfl

/-- The timer that a failed registration has added is not armed any more. -/
theorem registerFdWithTimeout_failed (hreliable : s.timers.Reliable)
    (hspaced : next.timers.Spaced) {events : Events} {config : TimeoutConfig} {now : ℕ}
    (hregister : s.registerFdWithTimeout fd events config now false = some next) :
    NoTrace s next := by
  simp only [EpollReactor.registerFdWithTimeout] at hregister
  split at hregister
  next => cases hregister
  next state scheduled hschedule =>
    rcases scheduleFdTimeout_adds hreliable hschedule with ⟨hadds, -⟩
    rw [if_neg Bool.false_ne_true, Option.map_eq_some_iff] at hregister
    rcases hregister with ⟨⟨state', cancelled⟩, hcancel, rfl⟩
    have hspaced' := ((cancelFdTimeout_timerSteps hcancel).reliable hspaced).1
    have hscheduled := ((scheduleFdTimeout_timerSteps hschedule).reliable hspaced').2 hreliable
    have hlt : s.timers.history.adds < scheduled.timers.history.adds := by
      rw [hadds.adds]
      exact Nat.lt_succ_self _
    have hcancels := (cancelFdTimeout_cancels hscheduled (fun _ => ⟨_, hlt, hadds.id⟩) hcancel).1
    constructor
    · exact hcancels.fdStates.trans hadds.fdStates
    · exact (activeFds_cancelFdTimeout hcancel).trans (activeFds_scheduleFdTimeout hschedule)
    · intro timer
      rw [hcancels.armed, hadds.armed, ← hadds.id]
      constructor
      · intro harmed
        rcases harmed.1 with rfl | hold
        · exact absurd rfl harmed.2
        · exact hold
      · intro harmed
        refine ⟨.inr harmed, fun hsame => ?_⟩
        have hold := harmed.1.1
        exact hold.ne (hscheduled.identified.different timer (hold.trans hlt) _ hlt hsame)

/-- A failed `unregister_fd` leaves the registration without its timer. -/
theorem unregisterFd_failed (hreliable : s.timers.Reliable) {failed : ℕ → Prop}
    (htied : s.Tied failed) (hcallback : (s.fdStates fd).callback = true)
    (hunregister : s.unregisterFd fd false = some next) : LosesTimer s next fd := by
  simp only [EpollReactor.unregisterFd, hcallback, Bool.not_true, Bool.false_eq_true,
    if_false] at hunregister
  split at hunregister
  next => cases hunregister
  next state cancelled hcancel =>
    cases hunregister
    have hnamed : (s.fdStates fd).timeoutId ≠ 0 → ∃ timer < s.timers.history.adds,
        s.timers.history.ids timer = (s.fdStates fd).timeoutId := by
      intro hne
      rcases htied.named fd hne with ⟨timer, hlt, hname, -⟩
      exact ⟨timer, hlt, hname⟩
    rcases cancelFdTimeout_cancels hreliable hnamed hcancel with ⟨hcancels, rfl⟩
    constructor
    · simp only [EpollReactor.setFd, hcancels.fdStates]
    · have hactive := activeFds_cancelFdTimeout hcancel
      exact hactive
    · exact hcancels.armed

theorem LosesTimer.noTrace (h : LosesTimer s next fd) (hreliable : s.timers.Reliable)
    (hzero : (s.fdStates fd).timeoutId = 0) : NoTrace s next := by
  constructor
  · rw [h.fdStates, ← hzero]
    exact Function.update_eq_self ..
  · exact h.activeFds
  · intro timer
    rw [h.armed, hzero]
    constructor
    · exact fun harmed => harmed.1
    · exact fun harmed => ⟨harmed, hreliable.ids_ne_zero harmed⟩

/-- In every run, a call that returns an error leaves no trace, except for `unregister_fd` of
a registration with a timer, which loses its timer and nothing else. -/
theorem failed_leaves {now : ℕ} {labels : List ReactorLabel} {label : ReactorLabel}
    (hexec : exec step (initial now) labels = some s) (hfails : s.fails label = true)
    (hstep : s.step label = some next) (hspaced : next.timers.Spaced) :
    match s.abandons label with
    | none => NoTrace s next
    | some fd => LosesTimer s next fd ∧ ¬ NoTrace s next := by
  have hspaced' := ((step_timerSteps hstep).reliable hspaced).1
  have hreliable := exec_reliable hexec hspaced'
  have htied := exec_tied (fun _ => tied_initial now) (sound_initial now)
    (fun _ => TimerRun.reliable_initial (by decide) now) hexec hspaced'
  cases label with
  | registerFd fd events now epollOk =>
      simp only [fails, Bool.not_eq_true'] at hfails
      subst hfails
      simp only [EpollReactor.step] at hstep
      split at hstep <;> cases hstep
      exact .refl rfl rfl rfl
  | registerFdWithTimeout fd events config now epollOk =>
      simp only [fails, Bool.not_eq_true'] at hfails
      subst hfails
      simp only [EpollReactor.step] at hstep
      split at hstep
      next =>
        have hlater : ({ s with clock := now } : EpollReactor).timers.Reliable := hreliable
        have hleft := registerFdWithTimeout_failed hlater hspaced hstep
        exact ⟨hleft.fdStates, hleft.activeFds, hleft.armed⟩
      next => cases hstep
  | modifyFd fd events now epollOk =>
      simp only [fails] at hfails
      simp only [EpollReactor.step, EpollReactor.modifyFd, if_pos hfails] at hstep
      split at hstep <;> cases hstep
      exact .refl rfl rfl rfl
  | unregisterFd fd epollOk =>
      simp only [fails] at hfails
      simp only [EpollReactor.step] at hstep
      split at hstep
      next =>
        by_cases hcallback : (s.fdStates fd).callback = true
        · have hfailed : epollOk = false := by simpa [hcallback] using hfails
          subst hfailed
          have hloses := unregisterFd_failed hreliable htied hcallback hstep
          simp only [abandons, hcallback, Bool.true_and, decide_eq_true_eq]
          by_cases hzero : (s.fdStates fd).timeoutId = 0
          · rw [if_neg (by simpa using hzero)]
            exact hloses.noTrace hreliable hzero
          · rw [if_pos (by simpa using hzero)]
            refine ⟨hloses, fun hnone => hzero ?_⟩
            have hsame := congrFun (hloses.fdStates.symm.trans hnone.fdStates) fd
            rw [Function.update_self] at hsame
            rw [← hsame]
        · simp only [EpollReactor.unregisterFd, hcallback, Bool.not_false, if_true] at hstep
          cases hstep
          simp only [abandons, hcallback, Bool.false_and, Bool.false_eq_true, if_false]
          exact .refl rfl rfl rfl
      next => cases hstep
  | refreshFdTimeout fd now => cases hfails
  | tick now => cases hfails
  | proceed => cases hfails
  | handleFdTimeout now => cases hfails
  | callbackDone => cases hfails
  | flushDeferredCloses => cases hfails

/-- Two connections with timeouts; `epoll_ctl` has refused a third. -/
def refusedRun : List ReactorLabel :=
  [.registerFdWithTimeout 5 { readable := true } { readTimeout := 16 } 0 true,
    .registerFdWithTimeout 6 { readable := true } { readTimeout := 32 } 0 true,
    .registerFdWithTimeout 7 { readable := true } { readTimeout := 48 } 0 false]

theorem failed_leaves_refusedRun : ∃ s next, exec step (initial 0) refusedRun = some s ∧
    s.step (.unregisterFd 5 false) = some next ∧ LosesTimer s next 5 := by
  have hlast : ((exec step (initial 0) (refusedRun ++ [.unregisterFd 5 false])).any fun next =>
      next.timers.history.adds < 10) = true := by
    decide +kernel
  have habandons : ((exec step (initial 0) refusedRun).any fun s =>
      s.abandons (.unregisterFd 5 false) = some 5) = true := by
    decide +kernel
  cases hexec : exec step (initial 0) (refusedRun ++ [.unregisterFd 5 false]) with
  | none =>
      rw [hexec] at hlast
      cases hlast
  | some next =>
      rw [hexec] at hlast
      simp only [Option.any_some, decide_eq_true_eq] at hlast
      have hspaced := spaced_of_adds hexec (hlast.trans (by decide))
      rcases exec_append.mp hexec with ⟨s, hfirst, hrest⟩
      rcases exec_cons.mp hrest with ⟨last, hstep, hend⟩
      cases hend
      rw [hfirst] at habandons
      simp only [Option.any_some, decide_eq_true_eq] at habandons
      have hleaves := failed_leaves hfirst (by simp [fails]) hstep hspaced
      rw [habandons] at hleaves
      exact ⟨s, next, hfirst, hstep, hleaves.1⟩

end EpollReactor

end Reactor
end Katana
