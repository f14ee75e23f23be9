import Katana.Reactor.IoUringTimers

/-!
# Whose timeout it is

A timer of the io_uring reactor ends whatever registration its descriptor has when it goes
off.  It is the registration that set it up, and it goes off the right number of ticks after
that, exactly if no entry with a timer is ever overwritten: `register_fd` over a registration
that was not taken out, the end of a timeout callback that has set up its timeout again, and
a forced shutdown leave the timer of the old entry behind.  Whatever is overwritten, a
registration with a timeout always has a timer.
-/

namespace Katana
namespace Reactor

open Library Timer

namespace IoUringReactor

variable {s next : IoUringReactor} {fd : ℕ}

/-- Where a registration is timed out, its timer is the one that goes off, and so many ticks
have passed since its timeout was last set up as the timeout has. -/
def TimesOutOnTime (s : IoUringReactor) (label : IoLabel) : Prop :=
  ∀ next fd, label = .proceed → s.step label = some next → next.timingOut = some fd →
    (∃ timer, s.Names fd timer ∧ fired next.timers = some timer) ∧
      let ticks := dueTicks 8 (fdTimeoutFor (s.fdStates fd))
      next.timers.history.advances = s.setUp fd + ticks + if 2048 ∣ ticks then 2048 else 0

/-- A registration that times out does so because its own timer goes off. -/
theorem timesOutOnTime_step (htied : s.Tied) (howned : s.Owned) (hreliable : s.timers.Reliable)
    {label : IoLabel} (hreliable' : ∀ next, s.step label = some next → next.timers.Reliable) :
    s.TimesOutOnTime label := by
  intro next fd hlabel hstep hout
  have htimely := (hreliable' next hstep).timely
  subst hlabel
  simp only [IoUringReactor.step] at hstep
  split at hstep
  next hnone =>
    simp only [IoUringReactor.proceed, Option.map_eq_some_iff] at hstep
    rcases hstep with ⟨timers, hproceed, rfl⟩
    cases hfired : fired timers with
    | none =>
        rw [hfired] at hout
        rw [hnone] at hout
        cases hout
    | some timer =>
        rw [hfired] at hout htimely
        simp only [timeOut] at hout
        split at hout <;> cases hout
        rcases fired_some hreliable hproceed hfired with ⟨harmed, hadvances, hinvoked, -⟩
        have hid := howned timer harmed
        rcases htied.named (s.timerFd timer) (hid ▸ hreliable.ids_ne_zero harmed) with
          ⟨own, hnames⟩
        have heq := hreliable.identified.different timer harmed.1.1 own hnames.armed.1.1
          (hid.trans hnames.id.symm)
        subst heq
        refine ⟨⟨timer, hnames, ?_⟩, ?_⟩
        · simpa [timeOut, setFd] using hfired
        · have hdue := (htimely.invoked _ hinvoked).1
          have hadded := (TimerRun.proceed_same hproceed).2.2
          calc timers.history.advances
              = s.timers.history.advances := hadvances
            _ = timers.history.fires 2048 8 timer := hdue
            _ = _ := by rw [TimerHistory.fires, TimerHistory.due, hadded, hnames.added]
  next => cases hstep

theorem owned_run {labels : List IoLabel} (htied : s.Tied) (howned : s.Owned)
    (hreliable : s.timers.Reliable) (hexec : exec step s labels = some next)
    (hspaced : next.timers.Spaced) :
    (Always step Owned s labels ↔ Along step Undisturbed s labels) ∧
      (Along step Undisturbed s labels → Along step TimesOutOnTime s labels) := by
  induction labels generalizing s with
  | nil => exact ⟨iff_of_true howned trivial, fun _ => trivial⟩
  | cons label rest ih =>
      rcases exec_cons.mp hexec with ⟨middle, hstep, hrest⟩
      have hmiddle := (runs_reliable (exec_runs hrest) hspaced).1
      have hreliable' := (runs_reliable (step_runs hstep) hmiddle).2 hreliable
      have honly : ∀ other, s.step label = some other → other = middle := by
        intro other hother
        rw [hstep] at hother
        exact (Option.some.inj hother).symm
      have hiff := owned_step_iff htied howned hreliable hreliable' hmiddle hstep
      have hlater : middle.Owned → _ := fun howned' =>
        ih (htied.step hreliable hmiddle hstep) howned' hreliable' hrest
      constructor
      · constructor
        · intro halways
          have hend := halways.2 middle hstep
          refine ⟨hiff.mp hend.start, fun other hother => ?_⟩
          rw [honly other hother]
          exact (hlater hend.start).1.mp hend
        · intro halong
          refine ⟨howned, fun other hother => ?_⟩
          rw [honly other hother]
          exact (hlater (hiff.mpr halong.1)).1.mpr (halong.2 middle hstep)
      · intro halong
        constructor
        · apply timesOutOnTime_step htied howned hreliable
          intro other hother
          rw [honly other hother]
          exact hreliable'
        · intro other hother
          rw [honly other hother]
          exact (hlater (hiff.mpr halong.1)).2 (halong.2 middle hstep)

/-- In a run in which ids are not used up, every armed timer always is the one of the entry of
its descriptor exactly if no entry with a timer is ever overwritten. -/
theorem exec_owned_iff {now : ℕ} {labels : List IoLabel} {final : IoUringReactor}
    (hexec : exec step (initial now) labels = some final) (hspaced : final.timers.Spaced) :
    Always step Owned (initial now) labels ↔ Along step Undisturbed (initial now) labels :=
  (owned_run (tied_initial now) (owned_initial now) (TimerRun.reliable_initial (by decide) now)
    hexec hspaced).1

/-- A connection is registered over one that was not taken out. -/
def staleRun : List IoLabel :=
  [.registerFdWithTimeout 5 { readable := true } { readTimeout := 16 } true,
    .registerFd 5 { readable := true } true]

theorem exec_owned_iff_staleRun : ¬ Always step Owned (initial 0) staleRun := by
  have hlast : ((exec step (initial 0) staleRun).any fun final =>
      final.timers.history.adds < 10) = true := by
    decide +kernel
  have hdisturbed : ¬ Along step Undisturbed (initial 0) staleRun := by
    decide +kernel
  cases hexec : exec step (initial 0) staleRun with
  | none =>
      rw [hexec] at hlast
      cases hlast
  | some final =>
      rw [hexec] at hlast
      simp only [Option.any_some, decide_eq_true_eq] at hlast
      rw [exec_owned_iff hexec (spaced_of_adds hexec (hlast.trans (by decide)))]
      exact hdisturbed

/-- In such a run every registration that is timed out has its own timer going off, as many
ticks after its timeout was last set up as the timeout has. -/
theorem exec_timesOutOnTime {now : ℕ} {labels : List IoLabel} {final : IoUringReactor}
    (hexec : exec step (initial now) labels = some final) (hspaced : final.timers.Spaced)
    (hundisturbed : Along step Undisturbed (initial now) labels) :
    Along step TimesOutOnTime (initial now) labels :=
  (owned_run (tied_initial now) (owned_initial now) (TimerRun.reliable_initial (by decide) now)
    hexec hspaced).2 hundisturbed

/-- A connection that times out beside one that is refreshed. -/
def timedOutRun : List IoLabel :=
  [.registerFdWithTimeout 5 { readable := true } { readTimeout := 16 } true,
    .registerFdWithTimeout 6 { readable := true } { readTimeout := 32 } true,
    .refreshFdTimeout 6, .tick 16000000, .proceed, .proceed, .proceed]

theorem exec_timesOutOnTime_timedOutRun : ∃ final, exec step (initial 0) timedOutRun = some final ∧
    final.timingOut = some 5 ∧ Along step TimesOutOnTime (initial 0) timedOutRun := by
  have hlast : ((exec step (initial 0) timedOutRun).any fun final =>
      final.timingOut = some 5 && final.timers.history.adds < 10) = true := by
    decide +kernel
  have hundisturbed : Along step Undisturbed (initial 0) timedOutRun := by
    decide +kernel
  cases hexec : exec step (initial 0) timedOutRun with
  | none =>
      rw [hexec] at hlast
      cases hlast
  | some final =>
      rw [hexec] at hlast
      simp only [Option.any_some, Bool.and_eq_true, decide_eq_true_eq] at hlast
      have hspaced := spaced_of_adds hexec (hlast.2.trans (by decide))
      exact ⟨final, rfl, hlast.1, exec_timesOutOnTime hexec hspaced hundisturbed⟩

/-! ## Registrations that wait -/

/-- Every registration with a timeout has the id of a timer, or is being timed out, or has
failed to go. -/
def Guarded (failed : ℕ → Prop) (s : IoUringReactor) : Prop :=
  ∀ fd, s.Live fd → (s.fdStates fd).timeoutId ≠ 0 ∨ s.timingOut = some fd ∨ failed fd

variable {failed : ℕ → Prop}

/-- One entry is written. -/
theorem Guarded.write (h : s.Guarded failed) (fd : ℕ) {failed' : ℕ → Prop}
    (hmore : ∀ other, failed other → failed' other)
    (hothers : ∀ other, other ≠ fd → next.fdStates other = s.fdStates other)
    (hout : ∀ other, other ≠ fd → s.timingOut = some other → next.timingOut = some other)
    (hfd : next.Live fd →
      (next.fdStates fd).timeoutId ≠ 0 ∨ next.timingOut = some fd ∨ failed' fd) :
    next.Guarded failed' := by
  intro other hlive
  by_cases heq : other = fd
  · subst heq
    exact hfd hlive
  · unfold Live at hlive
    rw [hothers other heq] at hlive ⊢
    rcases h other hlive with hid | htimingOut | hfailed
    · exact .inl hid
    · exact .inr (.inl (hout other heq htimingOut))
    · exact .inr (.inr (hmore other hfailed))

theorem setupFdTimeout_timingOut {state : IoFdState} {result : IoFdState × IoUringReactor}
    (hsetup : s.setupFdTimeout fd state = some result) : result.2.timingOut = s.timingOut := by
  simp only [setupFdTimeout, Option.map_eq_some_iff] at hsetup
  rcases hsetup with ⟨timers, -, rfl⟩
  rfl

theorem cancelFdTimeout_timingOut {state : IoFdState} {result : IoFdState × IoUringReactor}
    (hcancel : s.cancelFdTimeout state = some result) : result.2.timingOut = s.timingOut := by
  simp only [cancelFdTimeout] at hcancel
  split at hcancel
  · rw [Option.map_eq_some_iff] at hcancel
    rcases hcancel with ⟨timers, -, rfl⟩
    rfl
  · cases hcancel
    rfl

theorem registerFdWithTimeout_timingOut {events : Events} {config : TimeoutConfig} {addOk : Bool}
    (hregister : s.registerFdWithTimeout fd events config addOk = some next) :
    next.timingOut = s.timingOut := by
  simp only [registerFdWithTimeout] at hregister
  split at hregister
  next => cases hregister
  next state added hsetup =>
    have hsame := setupFdTimeout_timingOut hsetup
    split at hregister
    · cases hregister
      exact hsame
    · rw [Option.map_eq_some_iff] at hregister
      rcases hregister with ⟨result, hcancel, rfl⟩
      exact (cancelFdTimeout_timingOut hcancel).trans hsame

theorem resetTimeout_timingOut {state : IoFdState} (hreset : s.resetTimeout fd state = some next) :
    next.timingOut = s.timingOut := by
  simp only [resetTimeout] at hreset
  split at hreset
  next => cases hreset
  next state' middle hcancel =>
    rw [Option.map_eq_some_iff] at hreset
    rcases hreset with ⟨result, hsetup, rfl⟩
    exact (setupFdTimeout_timingOut hsetup).trans (cancelFdTimeout_timingOut hcancel)

/-- The timer that the entry names is an armed one. -/
theorem Changes.timeoutId_ne_zero {dropped new : ℕ} (h : Changes s next fd dropped (· = new))
    (hreliable' : next.timers.Reliable) : (next.fdStates fd).timeoutId ≠ 0 := by
  rcases h.fresh new rfl with ⟨-, hnames⟩
  rw [← hnames.id]
  exact hreliable'.ids_ne_zero hnames.armed

theorem Guarded.reset (h : s.Guarded failed) (hreliable : s.timers.Reliable)
    (hreliable' : next.timers.Reliable) (htied : s.Tied) (hspaced : next.timers.Spaced)
    {state : IoFdState} (hreset : s.resetTimeout fd state = some next)
    (hstate : state.hasTimeout = true) (hid : state.timeoutId = (s.fdStates fd).timeoutId) :
    next.Guarded failed := by
  rcases resetTimeout_changes hreliable htied hspaced hreset hstate hid with ⟨new, hchanges⟩
  apply h.write fd (fun _ => id) hchanges.others
  · intro other _ hother
    rw [resetTimeout_timingOut hreset, hother]
  · exact fun _ => .inl (hchanges.timeoutId_ne_zero hreliable')

theorem Guarded.mono (h : s.Guarded failed) {failed' : ℕ → Prop}
    (hmore : ∀ fd, failed fd → failed' fd) : s.Guarded failed' :=
  fun fd hlive => (h fd hlive).imp_right (Or.imp_right (hmore fd))

/-- An entry without a callback is written. -/
theorem Guarded.clear (h : s.Guarded failed) {state : IoFdState}
    (hdead : state.callback = false ∨ state.hasTimeout = false) :
    (s.setFd fd state).Guarded failed := by
  apply h.write fd (fun _ => id)
  · intro other hne
    simp [setFd, hne]
  · exact fun _ _ hother => hother
  · intro hlive
    simp only [Live, setFd, Function.update_self] at hlive
    rcases hdead with hdead | hdead
    · rw [hdead] at hlive
      cases hlive.1
    · rw [hdead] at hlive
      cases hlive.2

/-- What every step keeps. -/
theorem Guarded.step (h : s.Guarded failed) (htied : s.Tied) (hreliable : s.timers.Reliable)
    (hreliable' : next.timers.Reliable) (hspaced : next.timers.Spaced) {label : IoLabel}
    (hstep : s.step label = some next) :
    next.Guarded fun fd => failed fd ∨ label = .unregisterFd fd false := by
  have hmore : ∀ fd, failed fd → failed fd ∨ label = .unregisterFd fd false := fun _ => .inl
  cases label with
  | registerFd fd events addOk =>
      simp only [IoUringReactor.step] at hstep
      split at hstep <;> cases hstep
      have hset : (s.setFd fd { callback := true, events := events }).Guarded failed :=
        h.clear (.inr rfl)
      exact hset.mono hmore
  | registerFdWithTimeout fd events config addOk =>
      simp only [IoUringReactor.step] at hstep
      split at hstep
      next =>
        have hout := registerFdWithTimeout_timingOut hstep
        cases addOk with
        | true =>
            have hchanges := registerFdWithTimeout_changes hreliable hstep
            apply h.write fd hmore hchanges.others
            · intro other _ hother
              rw [hout, hother]
            · exact fun _ => .inl (hchanges.timeoutId_ne_zero hreliable')
        | false =>
            have hsame := registerFdWithTimeout_failed hreliable hspaced hstep
            intro other hlive
            unfold Live at hlive
            rw [hsame.fdStates] at hlive ⊢
            rw [hout]
            exact h.mono hmore other hlive
      next => cases hstep
  | modifyFd fd events removeOk addOk =>
      simp only [IoUringReactor.step, IoUringReactor.modifyFd] at hstep
      split at hstep
      next =>
        split at hstep
        next =>
          cases hstep
          exact h.mono hmore
        next =>
          split at hstep
          next htimeout =>
            exact (h.reset hreliable hreliable' htied hspaced hstep htimeout rfl).mono hmore
          next hbare =>
            cases hstep
            have hset : (s.setFd fd { s.fdStates fd with events := events }).Guarded failed :=
              h.clear (.inr (by simpa using hbare))
            exact hset.mono hmore
      next => cases hstep
  | unregisterFd fd removeOk =>
      simp only [IoUringReactor.step] at hstep
      split at hstep
      next =>
        by_cases hcallback : (s.fdStates fd).callback = true
        · have hchanges := unregisterFd_changes hreliable htied hspaced hcallback hstep
          simp only [IoUringReactor.unregisterFd, hcallback, Bool.not_true, Bool.false_eq_true,
            if_false] at hstep
          split at hstep
          next => cases hstep
          next state middle hcancel =>
            have hout := cancelFdTimeout_timingOut hcancel
            apply h.write fd hmore hchanges.others
            · intro other _ hother
              rw [← hother, ← hout]
              split at hstep <;> cases hstep <;> rfl
            · intro hlive
              split at hstep <;> cases hstep
              · simp [Live, setFd] at hlive
              · exact .inr (.inr (.inr (by simp_all)))
        · simp only [IoUringReactor.unregisterFd, hcallback, Bool.not_false, if_true] at hstep
          cases hstep
          exact h.mono hmore
      next => cases hstep
  | refreshFdTimeout fd =>
      simp only [IoUringReactor.step, IoUringReactor.refreshFdTimeout] at hstep
      split at hstep
      next =>
        split at hstep
        next htimeout =>
          exact (h.reset hreliable hreliable' htied hspaced hstep htimeout rfl).mono hmore
        next =>
          cases hstep
          exact h.mono hmore
      next => cases hstep
  | tick now =>
      simp only [IoUringReactor.step] at hstep
      split at hstep
      next =>
        rw [Option.map_eq_some_iff] at hstep
        rcases hstep with ⟨timers, -, rfl⟩
        exact h.mono hmore
      next => cases hstep
  | proceed =>
      simp only [IoUringReactor.step] at hstep
      split at hstep
      next hnone =>
        simp only [IoUringReactor.proceed, Option.map_eq_some_iff] at hstep
        rcases hstep with ⟨timers, hproceed, rfl⟩
        cases hfired : fired timers with
        | none => exact h.mono hmore
        | some timer =>
            have hchanges := proceed_changes hreliable hproceed hfired
            apply h.write _ hmore hchanges.others
            · intro other _ hother
              rw [hnone] at hother
              cases hother
            · intro hlive
              simp only [Live, timeOut, setFd, Function.update_self] at hlive
              right
              left
              simp [timeOut, hlive.1]
      next => cases hstep
  | callbackDone =>
      simp only [IoUringReactor.step] at hstep
      split at hstep
      next fd htimingOut =>
        cases hstep
        apply h.write fd hmore
        · intro other hne
          simp [setFd, hne]
        · intro other hne hother
          rw [htimingOut] at hother
          cases hother
          exact absurd rfl hne
        · intro hlive
          simp [Live, setFd] at hlive
      next => cases hstep
  | forceShutdown fd =>
      simp only [IoUringReactor.step] at hstep
      split at hstep
      next =>
        split at hstep <;> cases hstep
        · have hset : (s.setFd fd {}).Guarded failed := h.clear (.inl rfl)
          exact hset.mono hmore
        · exact h.mono hmore
      next => cases hstep

theorem guarded_run {labels : List IoLabel} (h : s.Guarded failed) (htied : s.Tied)
    (hreliable : s.timers.Reliable) (hexec : exec step s labels = some next)
    (hspaced : next.timers.Spaced) : next.Tied ∧ next.timers.Reliable ∧
      next.Guarded fun fd => failed fd ∨ .unregisterFd fd false ∈ labels := by
  induction labels generalizing s failed with
  | nil =>
      cases hexec
      exact ⟨htied, hreliable, h.mono fun _ => .inl⟩
  | cons label rest ih =>
      rcases exec_cons.mp hexec with ⟨middle, hstep, hrest⟩
      have hmiddle := (runs_reliable (exec_runs hrest) hspaced).1
      have hreliable' := (runs_reliable (step_runs hstep) hmiddle).2 hreliable
      have hguarded := h.step htied hreliable hreliable' hmiddle hstep
      rcases ih hguarded (htied.step hreliable hmiddle hstep) hreliable' hrest with
        ⟨htied', hreliable'', hguarded'⟩
      refine ⟨htied', hreliable'', hguarded'.mono fun fd hmem => ?_⟩
      rcases hmem with (hmem | rfl) | hmem
      · exact .inl hmem
      · exact .inr List.mem_cons_self
      · exact .inr (List.mem_cons_of_mem _ hmem)

/-- In every run in which ids are not used up, every registration with a timeout is being
timed out, or has an armed timer, set up when its timeout was last set up and still to go off,
or has lost its timer to a failed `unregister_fd`. -/
theorem exec_guarded {now : ℕ} {labels : List IoLabel} {final : IoUringReactor}
    (hexec : exec step (initial now) labels = some final) (hspaced : final.timers.Spaced)
    {fd : ℕ} (hlive : final.Live fd) : final.timingOut = some fd ∨
      (∃ timer, final.Names fd timer ∧
        final.timers.finished < final.timers.history.fires 2048 8 timer) ∨
      (final.fdStates fd).timeoutId = 0 ∧ .unregisterFd fd false ∈ labels := by
  have hstart : (initial now).Guarded fun _ => False := by
    intro fd hlive
    cases hlive.1
  rcases guarded_run hstart (tied_initial now) (TimerRun.reliable_initial (by decide) now)
    hexec hspaced with ⟨htied, hreliable, hguarded⟩
  by_cases hid : (final.fdStates fd).timeoutId = 0
  · rcases hguarded fd hlive with hne | hout | hfailed
    · exact absurd hid hne
    · exact .inl hout
    · exact .inr (.inr ⟨hid, hfailed.resolve_left id⟩)
  · rcases htied.named fd hid with ⟨timer, hnames⟩
    exact .inr (.inl ⟨timer, hnames, hreliable.finished_lt hnames.armed⟩)

theorem exec_guarded_timedOutRun : ∃ final, exec step (initial 0) timedOutRun = some final ∧
    ∃ timer, final.Names 6 timer := by
  have hlast : ((exec step (initial 0) timedOutRun).any fun final =>
      (final.fdStates 6).callback && (final.fdStates 6).hasTimeout &&
        (final.timingOut ≠ some 6 && (final.fdStates 6).timeoutId ≠ 0 &&
          final.timers.history.adds < 10)) = true := by
    decide +kernel
  cases hexec : exec step (initial 0) timedOutRun with
  | none =>
      rw [hexec] at hlast
      cases hlast
  | some final =>
      rw [hexec] at hlast
      simp only [Option.any_some, Bool.and_eq_true, decide_eq_true_eq] at hlast
      have hspaced := spaced_of_adds hexec (hlast.2.2.trans (by decide))
      refine ⟨final, rfl, ?_⟩
      rcases exec_guarded hexec hspaced hlast.1 with hout | ⟨timer, hnames, -⟩ | hfailed
      · exact absurd hout hlast.2.1.1
      · exact ⟨timer, hnames⟩
      · exact absurd hfailed.1 hlast.2.1.2
end IoUringReactor

end Reactor
end Katana
