import Katana.Reactor.IoUring
import Katana.Timer.ArmedTimers

/-!
# Entries and timers of the io_uring reactor

What the steps of the reactor do to its entries and timers.  Every step leaves both as they
are, or writes one entry; it may disarm a timer of the descriptor then, and arm another one,
which is the one that the entry names.
-/

namespace Katana
namespace Reactor

open Library Timer

namespace IoUringReactor

variable {s next : IoUringReactor} {fd : ℕ}

def Live (s : IoUringReactor) (fd : ℕ) : Prop :=
  (s.fdStates fd).callback = true ∧ (s.fdStates fd).hasTimeout = true

/-- The entry of the descriptor has the id of an armed timer, which was made for it when its
timeout was last set up. -/
structure Names (s : IoUringReactor) (fd timer : ℕ) : Prop where
  armed : s.timers.history.Armed timer
  timerFd : s.timerFd timer = fd
  id : s.timers.history.ids timer = (s.fdStates fd).timeoutId
  added : s.timers.history.added timer = (s.setUp fd, fdTimeoutFor (s.fdStates fd))

/-- What holds in every run: ids in entries are those of armed timers. -/
structure Tied (s : IoUringReactor) : Prop where
  named : ∀ fd, (s.fdStates fd).timeoutId ≠ 0 → ∃ timer, s.Names fd timer
  bare : ∀ fd, (s.fdStates fd).hasTimeout = false → (s.fdStates fd).timeoutId = 0

/-- Every armed timer is the one of the entry of its descriptor. -/
def Owned (s : IoUringReactor) : Prop :=
  ∀ timer, s.timers.history.Armed timer →
    s.timers.history.ids timer = (s.fdStates (s.timerFd timer)).timeoutId

/-- The descriptor whose entry the call overwrites without a look at its timer. -/
def overwrites (s : IoUringReactor) : IoLabel → Option ℕ
  | .registerFd fd _ _ => some fd
  | .registerFdWithTimeout fd _ _ addOk => if addOk then some fd else none
  | .callbackDone => s.timingOut
  | .forceShutdown fd => if (s.fdStates fd).callback then some fd else none
  | _ => none

/-- No entry with a timer is overwritten. -/
def Undisturbed (s : IoUringReactor) (label : IoLabel) : Prop :=
  ∀ fd, s.overwrites label = some fd → (s.fdStates fd).timeoutId = 0

instance (s : IoUringReactor) (label : IoLabel) : Decidable (s.Undisturbed label) :=
  decidable_of_iff ((s.overwrites label).all fun fd => (s.fdStates fd).timeoutId = 0) <| by
    unfold Undisturbed
    cases s.overwrites label <;> simp

theorem tied_initial (now : ℕ) : (initial now).Tied := by
  constructor
  · exact fun fd hid => absurd rfl hid
  · exact fun fd _ => rfl

theorem owned_initial (now : ℕ) : (initial now).Owned :=
  fun _ harmed => absurd harmed.1.1 (Nat.not_lt_zero _)

/-! ## What calls change -/

theorem names_eq (hreliable : s.timers.Reliable) {other timer timer' : ℕ}
    (h : s.Names fd timer) (h' : s.Names other timer')
    (hid : s.timers.history.ids timer = s.timers.history.ids timer') : fd = other := by
  have heq := hreliable.identified.different timer h.armed.1.1 timer' h'.armed.1.1 hid
  rw [← h.timerFd, ← h'.timerFd, heq]

theorem Names.keep {timer : ℕ} (h : s.Names fd timer)
    (hkeeps : TimerRun.KeepsTimers s.timers next.timers s.timerFd next.timerFd)
    (hfds : next.fdStates fd = s.fdStates fd) (hsetUp : next.setUp fd = s.setUp fd)
    (harmed : next.timers.history.Armed timer) : next.Names fd timer := by
  have hlt := h.armed.1.1
  constructor
  · exact harmed
  · rw [hkeeps.owner timer hlt, h.timerFd]
  · rw [hkeeps.ids timer hlt, hfds, h.id]
  · rw [hkeeps.added timer hlt, hfds, hsetUp, h.added]

/-- Entries and armed timers are what they were. -/
structure Same (s next : IoUringReactor) : Prop where
  keeps : TimerRun.KeepsTimers s.timers next.timers s.timerFd next.timerFd
  fdStates : next.fdStates = s.fdStates
  setUp : next.setUp = s.setUp
  armed : ∀ timer, next.timers.history.Armed timer ↔ s.timers.history.Armed timer

/-- One entry is written.  A timer of the descriptor is disarmed that has one id, and the
extra timers, if there are any, are armed, and are then the ones that the entry names. -/
structure Changes (s next : IoUringReactor) (fd dropped : ℕ) (extra : ℕ → Prop) : Prop where
  keeps : TimerRun.KeepsTimers s.timers next.timers s.timerFd next.timerFd
  others : ∀ other, other ≠ fd → next.fdStates other = s.fdStates other
  setUp : ∀ other, other ≠ fd → next.setUp other = s.setUp other
  armed : ∀ timer, next.timers.history.Armed timer ↔
    extra timer ∨ s.timers.history.Armed timer ∧ s.timers.history.ids timer ≠ dropped
  dropped : ∀ timer, s.timers.history.Armed timer → s.timers.history.ids timer = dropped →
    s.timerFd timer = fd
  fresh : ∀ timer, extra timer → s.timers.history.adds ≤ timer ∧ next.Names fd timer
  named : (next.fdStates fd).timeoutId ≠ 0 → ∃ timer, extra timer
  bare : (next.fdStates fd).hasTimeout = false → (next.fdStates fd).timeoutId = 0

theorem Same.tied (h : Same s next) (htied : s.Tied) : next.Tied := by
  constructor
  · intro fd hid
    rw [h.fdStates] at hid
    rcases htied.named fd hid with ⟨timer, hnames⟩
    refine ⟨timer, hnames.keep h.keeps ?_ ?_ ?_⟩
    · rw [h.fdStates]
    · rw [h.setUp]
    · exact (h.armed timer).mpr hnames.armed
  · intro fd
    rw [h.fdStates]
    exact htied.bare fd

theorem Same.owned (h : Same s next) (howned : s.Owned) : next.Owned := by
  intro timer harmed
  rw [h.armed] at harmed
  rw [h.keeps.ids timer harmed.1.1, h.keeps.owner timer harmed.1.1, h.fdStates]
  exact howned timer harmed

section Changes

variable {dropped : ℕ} {extra : ℕ → Prop}

theorem Changes.tied (h : Changes s next fd dropped extra) (htied : s.Tied) : next.Tied := by
  constructor
  · intro other hid
    by_cases heq : other = fd
    · subst heq
      rcases h.named hid with ⟨timer, hextra⟩
      exact ⟨timer, (h.fresh timer hextra).2⟩
    · rw [h.others other heq] at hid
      rcases htied.named other hid with ⟨timer, hnames⟩
      refine ⟨timer, hnames.keep h.keeps (h.others other heq) (h.setUp other heq) ?_⟩
      rw [h.armed]
      right
      refine ⟨hnames.armed, fun hdropped => heq ?_⟩
      rw [← hnames.timerFd, h.dropped timer hnames.armed hdropped]
  · intro other hbare
    by_cases heq : other = fd
    · subst heq
      exact h.bare hbare
    · rw [h.others other heq] at hbare ⊢
      exact htied.bare other hbare

/-- Where timers are owned, they still are if the entry that is written had no timer, or its
timer is the one that is disarmed. -/
theorem Changes.owned_iff (h : Changes s next fd dropped extra) (htied : s.Tied)
    (howned : s.Owned) (hreliable : s.timers.Reliable) (hreliable' : next.timers.Reliable) :
    next.Owned ↔ (s.fdStates fd).timeoutId = 0 ∨ dropped = (s.fdStates fd).timeoutId := by
  constructor
  · intro howned'
    by_contra hleft
    rw [not_or] at hleft
    rcases htied.named fd hleft.1 with ⟨timer, hnames⟩
    have hlt := hnames.armed.1.1
    have harmed : next.timers.history.Armed timer := by
      rw [h.armed, hnames.id]
      exact .inr ⟨hnames.armed, fun heq => hleft.2 heq.symm⟩
    -- the timer would have to be the one that the entry has now
    have hid := howned' timer harmed
    rw [h.keeps.owner timer hlt, hnames.timerFd] at hid
    have hne : (next.fdStates fd).timeoutId ≠ 0 := hid ▸ hreliable'.ids_ne_zero harmed
    rcases h.named hne with ⟨new, hextra⟩
    rcases h.fresh new hextra with ⟨hle, hnew⟩
    have heq := hreliable'.identified.different timer harmed.1.1 new hnew.armed.1.1
      (hid.trans hnew.id.symm)
    omega
  · intro hdone timer harmed
    rcases (h.armed timer).mp harmed with hextra | ⟨hbefore, hkept⟩
    · have hnames := (h.fresh timer hextra).2
      rw [hnames.timerFd, hnames.id]
    · have hlt := hbefore.1.1
      have hid := howned timer hbefore
      rw [h.keeps.ids timer hlt, h.keeps.owner timer hlt]
      by_cases heq : s.timerFd timer = fd
      · rw [heq] at hid
        rcases hdone with hzero | hdropped
        · exact absurd (hid.trans hzero) (hreliable.ids_ne_zero hbefore)
        · exact absurd (hid.trans hdropped.symm) hkept
      · rw [h.others _ heq]
        exact hid

/-- The number of descriptors and the callback under way are not looked at. -/
theorem Changes.congr {middle : IoUringReactor} (h : Changes s middle fd dropped extra)
    (hfds : next.fdStates = middle.fdStates) (htimers : next.timers = middle.timers)
    (htimerFd : next.timerFd = middle.timerFd) (hsetUp : next.setUp = middle.setUp) :
    Changes s next fd dropped extra := by
  constructor
  · rw [htimers, htimerFd]
    exact h.keeps
  · rw [hfds]
    exact h.others
  · rw [hsetUp]
    exact h.setUp
  · rw [htimers]
    exact h.armed
  · exact h.dropped
  · intro timer hextra
    rcases h.fresh timer hextra with ⟨hle, hnames⟩
    refine ⟨hle, ?_, ?_, ?_, ?_⟩
    · rw [htimers]
      exact hnames.armed
    · rw [htimerFd]
      exact hnames.timerFd
    · rw [htimers, hfds]
      exact hnames.id
    · rw [htimers, hfds, hsetUp]
      exact hnames.added
  · rw [hfds]
    exact h.named
  · rw [hfds]
    exact h.bare

/-! ## Operations -/

/-- An entry without a timer is written. -/
theorem setFd_changes (hreliable : s.timers.Reliable) {state : IoFdState}
    (hid : state.timeoutId = 0) : Changes s (s.setFd fd state) fd 0 fun _ => False := by
  constructor
  · exact TimerRun.keepsTimers_of_same rfl rfl rfl
  · intro other hne
    simp [setFd, hne]
  · exact fun _ _ => rfl
  · intro timer
    constructor
    · exact fun harmed => .inr ⟨harmed, hreliable.ids_ne_zero harmed⟩
    · exact fun harmed => (harmed.resolve_left id).1
  · exact fun _ harmed hzero => absurd hzero (hreliable.ids_ne_zero harmed)
  · exact fun _ hextra => hextra.elim
  · simp [setFd, hid]
  · simp [setFd, hid]

/-- A timer is added for an entry, which is then written. -/
theorem setupFdTimeout_changes (hreliable : s.timers.Reliable) {state : IoFdState}
    (hstate : state.hasTimeout = true) {result : IoFdState × IoUringReactor}
    (hsetup : s.setupFdTimeout fd state = some result) :
    Changes s (result.2.store fd result.1) fd 0 (· = s.timers.history.adds) := by
  simp only [setupFdTimeout, Option.map_eq_some_iff] at hsetup
  rcases hsetup with ⟨timers, hstep, rfl⟩
  have hadds : TimerRun.AddsTimer s.timers timers s.timerFd
      (Function.update s.timerFd s.timers.history.adds fd) fd
      (timers.history.ids s.timers.history.adds) (fdTimeoutFor state) :=
    hreliable.addsTimer hstep
  constructor
  · exact hadds.keeps
  · intro other hne
    simp [store, setFd, hne]
  · intro other hne
    simp [store, setFd, hne]
  · intro timer
    have harmed := hadds.armed timer
    constructor
    · intro hafter
      exact (harmed.mp hafter).imp_right fun h => ⟨h, hreliable.ids_ne_zero h⟩
    · exact fun hbefore => harmed.mpr (hbefore.imp_right And.left)
  · exact fun _ harmed hzero => absurd hzero (hreliable.ids_ne_zero harmed)
  · intro timer hextra
    subst hextra
    refine ⟨le_rfl, ?_, ?_, ?_, ?_⟩
    · exact (hadds.armed _).mpr (.inl rfl)
    · exact hadds.owner
    · simp [store, setFd]
    · have hadded := hadds.added
      rw [← hadds.advances] at hadded
      simpa [store, setFd, fdTimeoutFor] using hadded
  · exact fun _ => ⟨_, rfl⟩
  · simp [store, setFd, hstate]

/-- What `cancel_fd_timeout` does for the entry of a descriptor. -/
theorem cancelFdTimeout_cancels (hreliable : s.timers.Reliable) (htied : s.Tied)
    {state : IoFdState} (hid : state.timeoutId = (s.fdStates fd).timeoutId)
    {result : IoFdState × IoUringReactor} (hcancel : s.cancelFdTimeout state = some result) :
    ∃ timers, result = ({ state with timeoutId := 0 }, { s with timers := timers }) ∧
      TimerRun.CancelsTimer s.timers timers s.timerFd (s.fdStates fd).timeoutId := by
  simp only [cancelFdTimeout] at hcancel
  split at hcancel
  next hne =>
    rw [Option.map_eq_some_iff] at hcancel
    rcases hcancel with ⟨timers, hstep, rfl⟩
    rw [hid] at hne hstep
    rcases htied.named fd hne with ⟨timer, hnames⟩
    exact ⟨timers, rfl, hreliable.cancelsTimer ⟨timer, hnames.armed.1.1, hnames.id⟩ hstep⟩
  next hzero =>
    cases hcancel
    simp only [ne_eq, not_not] at hzero
    refine ⟨s.timers, ?_, ?_⟩
    · rw [← hzero]
    · rw [← hid, hzero]
      exact hreliable.cancelsNone s.timerFd

/-- The timer of the entry was disarmed before the entry is written. -/
theorem Changes.cancelled {timers : TimerRun 2048 8} (hreliable : s.timers.Reliable)
    (htied : s.Tied)
    (hcancels : TimerRun.CancelsTimer s.timers timers s.timerFd (s.fdStates fd).timeoutId)
    (h : Changes { s with timers := timers } next fd 0 extra) :
    Changes s next fd (s.fdStates fd).timeoutId extra := by
  constructor
  · exact hcancels.keeps.trans h.keeps
  · exact h.others
  · exact h.setUp
  · intro timer
    rw [h.armed]
    apply or_congr_right
    rw [hcancels.armed]
    constructor
    · exact fun harmed => harmed.1
    · intro harmed
      refine ⟨harmed, ?_⟩
      rw [hcancels.keeps.ids timer harmed.1.1.1]
      exact hreliable.ids_ne_zero harmed.1
  · intro timer harmed hid
    have hne : (s.fdStates fd).timeoutId ≠ 0 := hid ▸ hreliable.ids_ne_zero harmed
    rcases htied.named fd hne with ⟨own, hnames⟩
    have heq := hreliable.identified.different timer harmed.1.1 own hnames.armed.1.1
      (hid.trans hnames.id.symm)
    rw [heq, hnames.timerFd]
  · intro timer hextra
    rcases h.fresh timer hextra with ⟨hle, hnames⟩
    have hadds : timers.history.adds = s.timers.history.adds := hcancels.adds
    exact ⟨hadds ▸ hle, hnames⟩
  · exact h.named
  · exact h.bare

theorem registerFdWithTimeout_changes (hreliable : s.timers.Reliable) {events : Events}
    {config : TimeoutConfig}
    (hregister : s.registerFdWithTimeout fd events config true = some next) :
    Changes s next fd 0 (· = s.timers.history.adds) := by
  simp only [registerFdWithTimeout] at hregister
  split at hregister
  next => cases hregister
  next state added hsetup =>
    simp only [if_true, Option.some.injEq] at hregister
    subst hregister
    have hchanges := setupFdTimeout_changes hreliable rfl hsetup
    apply hchanges.congr <;> rfl

theorem setupFdTimeout_runs {state : IoFdState} {result : IoFdState × IoUringReactor}
    (hsetup : s.setupFdTimeout fd state = some result) : s.timers.Runs result.2.timers := by
  simp only [setupFdTimeout, Option.map_eq_some_iff] at hsetup
  rcases hsetup with ⟨timers, hstep, rfl⟩
  have hlabel : TimerLabel.add (fdTimeoutFor state) ≠ .throw := by simp
  exact .single hlabel hstep

theorem cancelFdTimeout_runs {state : IoFdState} {result : IoFdState × IoUringReactor}
    (hcancel : s.cancelFdTimeout state = some result) : s.timers.Runs result.2.timers := by
  simp only [cancelFdTimeout] at hcancel
  split at hcancel
  · rw [Option.map_eq_some_iff] at hcancel
    rcases hcancel with ⟨timers, hstep, rfl⟩
    have hlabel : TimerLabel.cancel state.timeoutId ≠ .throw := by simp
    exact .single hlabel hstep
  · cases hcancel
    exact .refl _

theorem runs_reliable (h : s.timers.Runs next.timers) (hspaced : next.timers.Spaced) :
    s.timers.Spaced ∧ (s.timers.Reliable → next.timers.Reliable) :=
  TimerRun.Runs.reliable h (by decide) (by decide) hspaced

/-- A failed registration cancels the timer that it has added. -/
theorem registerFdWithTimeout_failed (hreliable : s.timers.Reliable)
    (hspaced : next.timers.Spaced) {events : Events} {config : TimeoutConfig}
    (hregister : s.registerFdWithTimeout fd events config false = some next) : Same s next := by
  simp only [registerFdWithTimeout] at hregister
  split at hregister
  next => cases hregister
  next state added hsetup =>
    rw [if_neg Bool.false_ne_true, Option.map_eq_some_iff] at hregister
    rcases hregister with ⟨result, hcancel, rfl⟩
    have hadded := ((runs_reliable (cancelFdTimeout_runs hcancel) hspaced).1)
    have hreliable' := (runs_reliable (setupFdTimeout_runs hsetup) hadded).2 hreliable
    simp only [setupFdTimeout, Option.map_eq_some_iff, Prod.mk.injEq] at hsetup
    rcases hsetup with ⟨timers, hstep, rfl, rfl⟩
    have hadds : TimerRun.AddsTimer s.timers timers s.timerFd
        (Function.update s.timerFd s.timers.history.adds fd) fd
        (timers.history.ids s.timers.history.adds) _ := hreliable.addsTimer hstep
    have hnew : timers.history.Armed s.timers.history.adds := (hadds.armed _).mpr (.inl rfl)
    simp only [cancelFdTimeout] at hcancel
    rw [if_pos (hreliable'.ids_ne_zero hnew), Option.map_eq_some_iff] at hcancel
    rcases hcancel with ⟨cancelled, hstep', rfl⟩
    have hcancels : TimerRun.CancelsTimer timers cancelled
        (Function.update s.timerFd s.timers.history.adds fd)
        (timers.history.ids s.timers.history.adds) :=
      hreliable'.cancelsTimer ⟨_, hnew.1.1, rfl⟩ hstep'
    constructor
    · exact hadds.keeps.trans hcancels.keeps
    · rfl
    · rfl
    · intro timer
      show cancelled.history.Armed timer ↔ _
      rw [hcancels.armed, hadds.armed]
      constructor
      · intro harmed
        rcases harmed.1 with rfl | hold
        · exact absurd rfl harmed.2
        · exact hold
      · intro hold
        refine ⟨.inr hold, fun hsame => ?_⟩
        have hlt := (hadds.armed timer).mpr (.inr hold)
        have heq := hreliable'.identified.different timer hlt.1.1 _ hnew.1.1 hsame
        exact (heq ▸ hold.1.1).false

theorem resetTimeout_changes (hreliable : s.timers.Reliable) (htied : s.Tied)
    (hspaced : next.timers.Spaced) {state : IoFdState}
    (hreset : s.resetTimeout fd state = some next) (hstate : state.hasTimeout = true)
    (hid : state.timeoutId = (s.fdStates fd).timeoutId) :
    ∃ new, Changes s next fd (s.fdStates fd).timeoutId (· = new) := by
  simp only [resetTimeout] at hreset
  split at hreset
  next => cases hreset
  next state' middle hcancel =>
    rw [Option.map_eq_some_iff] at hreset
    rcases hreset with ⟨result, hsetup, rfl⟩
    have hmiddle := (runs_reliable (setupFdTimeout_runs hsetup) hspaced).1
    have hreliable' := (runs_reliable (cancelFdTimeout_runs hcancel) hmiddle).2 hreliable
    rcases cancelFdTimeout_cancels hreliable htied hid hcancel with ⟨timers, heq, hcancels⟩
    cases heq
    have hchanges := setupFdTimeout_changes hreliable' hstate hsetup
    exact ⟨_, hchanges.cancelled hreliable htied hcancels⟩

theorem unregisterFd_changes (hreliable : s.timers.Reliable) (htied : s.Tied)
    (hspaced : next.timers.Spaced) {removeOk : Bool} (hcallback : (s.fdStates fd).callback = true)
    (hunregister : s.unregisterFd fd removeOk = some next) :
    Changes s next fd (s.fdStates fd).timeoutId fun _ => False := by
  simp only [unregisterFd, hcallback, Bool.not_true, Bool.false_eq_true, if_false] at hunregister
  split at hunregister
  next => cases hunregister
  next state middle hcancel =>
    have hruns := cancelFdTimeout_runs hcancel
    rcases cancelFdTimeout_cancels hreliable htied rfl hcancel with ⟨timers, heq, hcancels⟩
    cases heq
    have hwritten : ∀ state : IoFdState, state.timeoutId = 0 →
        timers.Spaced → Changes s ({ s with timers := timers }.setFd fd state) fd
          (s.fdStates fd).timeoutId fun _ => False := by
      intro state hzero hspaced'
      have hreliable' := (runs_reliable hruns hspaced').2 hreliable
      exact (setFd_changes hreliable' hzero).cancelled hreliable htied hcancels
    split at hunregister <;> cases hunregister
    · apply (hwritten {} rfl hspaced).congr <;> rfl
    · exact hwritten _ rfl hspaced

/-- What goes off in a step of `tick`. -/
theorem fired_some (hreliable : s.timers.Reliable) {timers : TimerRun 2048 8}
    (hstep : s.timers.step .proceed = some timers) {timer : ℕ}
    (hfired : fired timers = some timer) :
    s.timers.history.Armed timer ∧ timers.history.advances = s.timers.history.advances ∧
      (timer, s.timers.history.advances) ∈ timers.history.invoked ∧
        ∀ other, timers.history.Armed other ↔ s.timers.history.Armed other ∧ other ≠ timer := by
  unfold fired at hfired
  split at hfired
  next hcalling hlast =>
    cases hfired
    rcases hreliable.proceed_calling hstep hcalling with ⟨called, hinvoked, hrest⟩
    rw [hinvoked, List.getLast?_concat] at hlast
    cases hlast
    rw [hinvoked]
    exact ⟨hrest.1, hrest.2.1, List.mem_append_right _ List.mem_cons_self, hrest.2.2⟩
  next => cases hfired

theorem fired_none (hreliable : s.timers.Reliable) {timers : TimerRun 2048 8}
    (hstep : s.timers.step .proceed = some timers) (hfired : fired timers = none) (timer : ℕ) :
    timers.history.Armed timer ↔ s.timers.history.Armed timer := by
  apply hreliable.proceed_quiet hstep
  intro left handles compact hcalling
  rcases hreliable.proceed_calling hstep hcalling with ⟨called, hinvoked, -⟩
  simp [fired, hcalling, hinvoked] at hfired

theorem proceed_changes (hreliable : s.timers.Reliable) {timers : TimerRun 2048 8}
    (hstep : s.timers.step .proceed = some timers) {timer : ℕ}
    (hfired : fired timers = some timer) :
    Changes s ({ s with timers := timers }.timeOut (s.timerFd timer)) (s.timerFd timer)
      (s.timers.history.ids timer) fun _ => False := by
  rcases fired_some hreliable hstep hfired with ⟨harmed, -, -, hothers⟩
  rcases TimerRun.proceed_same hstep with ⟨hadds, hids, hadded⟩
  have hsame : ∀ other, s.timers.history.Armed other →
      s.timers.history.ids other = s.timers.history.ids timer → other = timer :=
    fun other hother => hreliable.identified.different other hother.1.1 timer harmed.1.1
  constructor
  · exact TimerRun.keepsTimers_of_same hadds hids hadded
  · intro other hne
    simp [timeOut, setFd, hne]
  · exact fun _ _ => rfl
  · intro other
    have hother := hothers other
    constructor
    · intro hafter
      have hbefore := hother.mp hafter
      exact .inr ⟨hbefore.1, fun hid => hbefore.2 (hsame other hbefore.1 hid)⟩
    · intro hbefore
      have hkept := hbefore.resolve_left id
      apply hother.mpr
      exact ⟨hkept.1, fun heq => hkept.2 (heq ▸ rfl)⟩
  · intro other hother hid
    rw [hsame other hother hid]
  · exact fun _ hextra => hextra.elim
  · simp [timeOut, setFd]
  · simp [timeOut, setFd]

end Changes

/-! ## Steps -/

theorem undisturbed_of_none {label : IoLabel} (h : s.overwrites label = none) :
    s.Undisturbed label := by
  intro fd hfd
  rw [h] at hfd
  cases hfd

theorem undisturbed_iff {label : IoLabel} (h : s.overwrites label = some fd) :
    s.Undisturbed label ↔ (s.fdStates fd).timeoutId = 0 ∨ 0 = (s.fdStates fd).timeoutId := by
  unfold Undisturbed
  simp [h, eq_comm]

theorem Same.refl (s : IoUringReactor) : Same s s := by
  constructor
  · exact TimerRun.keepsTimers_of_same rfl rfl rfl
  · rfl
  · rfl
  · exact fun _ => Iff.rfl

/-- Every step leaves entries and armed timers as they are, or writes one entry. -/
theorem step_changes (htied : s.Tied) (hreliable : s.timers.Reliable)
    (hspaced : next.timers.Spaced) {label : IoLabel} (hstep : s.step label = some next) :
    (Same s next ∧ s.Undisturbed label) ∨ ∃ fd dropped extra, Changes s next fd dropped extra ∧
      (s.Owned → (s.Undisturbed label ↔
        (s.fdStates fd).timeoutId = 0 ∨ dropped = (s.fdStates fd).timeoutId)) := by
  cases label with
  | registerFd fd events addOk =>
      simp only [IoUringReactor.step] at hstep
      split at hstep <;> cases hstep
      right
      have hchanges : Changes s (s.setFd fd { callback := true, events := events }) fd 0
          fun _ => False := setFd_changes hreliable rfl
      refine ⟨fd, 0, fun _ => False, ?_, fun _ => undisturbed_iff rfl⟩
      apply hchanges.congr <;> rfl
  | registerFdWithTimeout fd events config addOk =>
      simp only [IoUringReactor.step] at hstep
      split at hstep
      next =>
        cases addOk with
        | true =>
            right
            exact ⟨fd, 0, _, registerFdWithTimeout_changes hreliable hstep,
              fun _ => undisturbed_iff rfl⟩
        | false =>
            left
            exact ⟨registerFdWithTimeout_failed hreliable hspaced hstep, undisturbed_of_none rfl⟩
      next => cases hstep
  | modifyFd fd events removeOk addOk =>
      simp only [IoUringReactor.step, IoUringReactor.modifyFd] at hstep
      split at hstep
      next =>
        split at hstep
        next =>
          cases hstep
          exact .inl ⟨.refl s, undisturbed_of_none rfl⟩
        next =>
          right
          split at hstep
          next htimeout =>
            rcases resetTimeout_changes hreliable htied hspaced hstep htimeout rfl with
              ⟨new, hchanges⟩
            exact ⟨fd, _, _, hchanges,
              fun _ => iff_of_true (undisturbed_of_none rfl) (.inr rfl)⟩
          next hbare =>
            cases hstep
            have hzero := htied.bare fd (by simpa using hbare)
            refine ⟨fd, 0, _, setFd_changes hreliable ?_, fun _ => ?_⟩
            · exact hzero
            · exact iff_of_true (undisturbed_of_none rfl) (.inl hzero)
      next => cases hstep
  | unregisterFd fd removeOk =>
      simp only [IoUringReactor.step] at hstep
      split at hstep
      next =>
        by_cases hcallback : (s.fdStates fd).callback = true
        · right
          exact ⟨fd, _, _, unregisterFd_changes hreliable htied hspaced hcallback hstep,
            fun _ => iff_of_true (undisturbed_of_none rfl) (.inr rfl)⟩
        · simp only [IoUringReactor.unregisterFd, hcallback, Bool.not_false, if_true] at hstep
          cases hstep
          exact .inl ⟨.refl s, undisturbed_of_none rfl⟩
      next => cases hstep
  | refreshFdTimeout fd =>
      simp only [IoUringReactor.step, IoUringReactor.refreshFdTimeout] at hstep
      split at hstep
      next =>
        split at hstep
        next htimeout =>
          right
          rcases resetTimeout_changes hreliable htied hspaced hstep htimeout rfl with
            ⟨new, hchanges⟩
          exact ⟨fd, _, _, hchanges,
            fun _ => iff_of_true (undisturbed_of_none rfl) (.inr rfl)⟩
        next =>
          cases hstep
          exact .inl ⟨.refl s, undisturbed_of_none rfl⟩
      next => cases hstep
  | tick now =>
      simp only [IoUringReactor.step] at hstep
      split at hstep
      next =>
        rw [Option.map_eq_some_iff] at hstep
        rcases hstep with ⟨timers, htick, rfl⟩
        simp only [TimerRun.step] at htick
        split at htick <;> cases htick
        left
        refine ⟨⟨?_, rfl, rfl, fun _ => Iff.rfl⟩, undisturbed_of_none rfl⟩
        exact TimerRun.keepsTimers_of_same rfl rfl rfl
      next => cases hstep
  | proceed =>
      simp only [IoUringReactor.step] at hstep
      split at hstep
      next =>
        simp only [IoUringReactor.proceed, Option.map_eq_some_iff] at hstep
        rcases hstep with ⟨timers, hproceed, rfl⟩
        cases hfired : fired timers with
        | none =>
            rcases TimerRun.proceed_same hproceed with ⟨hadds, hids, hadded⟩
            left
            refine ⟨⟨?_, rfl, rfl, ?_⟩, undisturbed_of_none rfl⟩
            · exact TimerRun.keepsTimers_of_same hadds hids hadded
            · exact fired_none hreliable hproceed hfired
        | some timer =>
            right
            refine ⟨_, _, _, proceed_changes hreliable hproceed hfired, fun howned => ?_⟩
            apply iff_of_true (undisturbed_of_none rfl)
            exact .inr (howned timer (fired_some hreliable hproceed hfired).1)
      next => cases hstep
  | callbackDone =>
      simp only [IoUringReactor.step] at hstep
      split at hstep
      next fd htimingOut =>
        cases hstep
        right
        have hchanges : Changes s (s.setFd fd {}) fd 0 fun _ => False :=
          setFd_changes hreliable rfl
        refine ⟨fd, 0, fun _ => False, ?_, fun _ => undisturbed_iff htimingOut⟩
        apply hchanges.congr <;> rfl
      next => cases hstep
  | forceShutdown fd =>
      simp only [IoUringReactor.step] at hstep
      split at hstep
      next =>
        split at hstep
        next hcallback =>
          cases hstep
          right
          have hover : s.overwrites (.forceShutdown fd) = some fd := by
            simp [overwrites, hcallback]
          exact ⟨fd, 0, _, setFd_changes hreliable rfl, fun _ => undisturbed_iff hover⟩
        next hcallback =>
          cases hstep
          left
          refine ⟨.refl s, undisturbed_of_none ?_⟩
          simp [overwrites, hcallback]
      next => cases hstep

theorem Tied.step (htied : s.Tied) (hreliable : s.timers.Reliable)
    (hspaced : next.timers.Spaced) {label : IoLabel} (hstep : s.step label = some next) :
    next.Tied := by
  rcases step_changes htied hreliable hspaced hstep with ⟨hsame, -⟩ | ⟨_, _, _, hchanges, -⟩
  · exact hsame.tied htied
  · exact hchanges.tied htied

/-- Timers that are owned stay so exactly if no entry with a timer is overwritten. -/
theorem owned_step_iff (htied : s.Tied) (howned : s.Owned) (hreliable : s.timers.Reliable)
    (hreliable' : next.timers.Reliable) (hspaced : next.timers.Spaced) {label : IoLabel}
    (hstep : s.step label = some next) : next.Owned ↔ s.Undisturbed label := by
  rcases step_changes htied hreliable hspaced hstep with
    ⟨hsame, hundisturbed⟩ | ⟨fd, dropped, extra, hchanges, hiff⟩
  · exact iff_of_true (hsame.owned howned) hundisturbed
  · rw [hiff howned]
    exact hchanges.owned_iff htied howned hreliable hreliable'

/-- Every step of the reactor is some steps of its wheel timer. -/
theorem step_runs {label : IoLabel} (hstep : s.step label = some next) :
    s.timers.Runs next.timers := by
  have hreset : ∀ {fd : ℕ} {state : IoFdState}, s.resetTimeout fd state = some next →
      s.timers.Runs next.timers := by
    intro fd state hreset
    simp only [resetTimeout] at hreset
    split at hreset
    next => cases hreset
    next state' middle hcancel =>
      rw [Option.map_eq_some_iff] at hreset
      rcases hreset with ⟨result, hsetup, rfl⟩
      exact (cancelFdTimeout_runs hcancel).trans (setupFdTimeout_runs hsetup)
  cases label with
  | registerFd fd events addOk =>
      simp only [IoUringReactor.step] at hstep
      split at hstep <;> cases hstep
      exact .refl _
  | registerFdWithTimeout fd events config addOk =>
      simp only [IoUringReactor.step, IoUringReactor.registerFdWithTimeout] at hstep
      split at hstep
      next =>
        split at hstep
        next => cases hstep
        next state added hsetup =>
          split at hstep
          · cases hstep
            exact setupFdTimeout_runs hsetup
          · rw [Option.map_eq_some_iff] at hstep
            rcases hstep with ⟨result, hcancel, rfl⟩
            exact (setupFdTimeout_runs hsetup).trans (cancelFdTimeout_runs hcancel)
      next => cases hstep
  | modifyFd fd events removeOk addOk =>
      simp only [IoUringReactor.step, IoUringReactor.modifyFd] at hstep
      split at hstep
      next =>
        split at hstep
        next =>
          cases hstep
          exact .refl _
        next =>
          split at hstep
          · exact hreset hstep
          · cases hstep
            exact .refl _
      next => cases hstep
  | unregisterFd fd removeOk =>
      simp only [IoUringReactor.step, IoUringReactor.unregisterFd] at hstep
      split at hstep
      next =>
        split at hstep
        next =>
          cases hstep
          exact .refl _
        next =>
          split at hstep
          next => cases hstep
          next state middle hcancel =>
            have hruns := cancelFdTimeout_runs hcancel
            split at hstep <;> cases hstep <;> exact hruns
      next => cases hstep
  | refreshFdTimeout fd =>
      simp only [IoUringReactor.step, IoUringReactor.refreshFdTimeout] at hstep
      split at hstep
      next =>
        split at hstep
        · exact hreset hstep
        · cases hstep
          exact .refl _
      next => cases hstep
  | tick now =>
      simp only [IoUringReactor.step] at hstep
      split at hstep
      next =>
        rw [Option.map_eq_some_iff] at hstep
        rcases hstep with ⟨timers, htick, rfl⟩
        have hlabel : TimerLabel.tick now ≠ .throw := by simp
        exact .single hlabel htick
      next => cases hstep
  | proceed =>
      simp only [IoUringReactor.step, IoUringReactor.proceed] at hstep
      split at hstep
      next =>
        rw [Option.map_eq_some_iff] at hstep
        rcases hstep with ⟨timers, hproceed, rfl⟩
        have hlabel : TimerLabel.proceed ≠ .throw := by simp
        split <;> exact .single hlabel hproceed
      next => cases hstep
  | callbackDone =>
      simp only [IoUringReactor.step] at hstep
      split at hstep <;> cases hstep
      exact .refl _
  | forceShutdown fd =>
      simp only [IoUringReactor.step] at hstep
      split at hstep
      next =>
        split at hstep <;> cases hstep <;> exact .refl _
      next => cases hstep

theorem exec_runs {labels : List IoLabel} (hexec : exec step s labels = some next) :
    s.timers.Runs next.timers := by
  have hkeep : ∀ (middle : IoUringReactor) label final, s.timers.Runs middle.timers →
      middle.step label = some final → s.timers.Runs final.timers :=
    fun middle label final h hstep => h.trans (step_runs hstep)
  exact exec_invariant hkeep (.refl _) hexec

theorem spaced_of_adds {now : ℕ} {labels : List IoLabel} {final : IoUringReactor}
    (hexec : exec step (initial now) labels = some final)
    (hadds : final.timers.history.adds < INDEX_WORD - 1) : final.timers.Spaced := by
  rcases exec_runs hexec with ⟨timerLabels, -, hrun⟩
  exact TimerRun.spaced_of_adds hrun hadds

end IoUringReactor

end Reactor
end Katana
