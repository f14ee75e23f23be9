import Katana.Timer.WheelHandles

/-!
# Timers that fire early

`add` counts the ticks of a timeout from the slot in which the wheel stands, and
the wheel stands where the last `tick` has left it, which may be long ago.  Here
the steps of a timer are given the readings of a clock that never goes back, so
that the time at which a callback is run can be compared with the time for which it was
asked.
-/

namespace Katana
namespace Timer

open Library

variable {numSlots slotMs : ℕ}

/-- A timer together with the clock. -/
structure TimedRun (numSlots slotMs : ℕ) where
  run : TimerRun numSlots slotMs
  /-- The latest reading. -/
  clock : ℕ
  /-- The argument of the latest `tick`. -/
  now : ℕ
  /-- When `add` was called. -/
  addedAt : ℕ → ℕ := fun _ => 0
  /-- Timers whose callback was invoked, with the argument of the `tick` that did it. -/
  fired : List (ℕ × ℕ) := []

inductive TimedLabel where
  | add (time : ℕ) (timeout : Int64)
  | cancel (id : ℕ)
  | tick (now : ℕ)
  | proceed
  | throw

/-- The step that the timer takes. -/
def TimedLabel.timer : TimedLabel → TimerLabel
  | .add _ timeout => .add timeout
  | .cancel id => .cancel id
  | .tick now => .tick now
  | .proceed => .proceed
  | .throw => .throw

namespace TimedRun

def step (r : TimedRun numSlots slotMs) : TimedLabel → Option (TimedRun numSlots slotMs)
  | .add time timeout =>
      if r.clock ≤ time then
        (r.run.step (.add timeout)).map fun run =>
          { r with
            run := run
            clock := time
            addedAt := Function.update r.addedAt r.run.history.adds time }
      else none
  | .cancel id => (r.run.step (.cancel id)).map fun run => { r with run := run }
  | .tick now =>
      if r.clock ≤ now then
        (r.run.step (.tick now)).map fun run => { r with run := run, clock := now, now := now }
      else none
  | .proceed =>
      (r.run.step .proceed).map fun run =>
        { r with
          run := run
          fired := r.fired ++
            (run.history.invoked.drop r.run.history.invoked.length).map fun e => (e.1, r.now) }
  | .throw => (r.run.step .throw).map fun run => { r with run := run }

def initial (start : ℕ) : TimedRun numSlots slotMs :=
  { run := TimerRun.initial start, clock := start, now := start }

/-- When `add` was called, and the timeout from there on. -/
def deadline (r : TimedRun numSlots slotMs) (timer : ℕ) : ℤ :=
  r.addedAt timer + (r.run.history.added timer).2.toInt * 1000000

/-- No callback is invoked by a `tick` more than one tick before its time. -/
def NeverEarly (r : TimedRun numSlots slotMs) : Prop :=
  ∀ e ∈ r.fired, ¬ (e.2 : ℤ) < r.deadline e.1 - tickNanos slotMs

instance (r : TimedRun numSlots slotMs) : Decidable r.NeverEarly :=
  inferInstanceAs (Decidable (∀ e ∈ r.fired, ¬ (e.2 : ℤ) < r.deadline e.1 - tickNanos slotMs))

/-- The least argument of a `tick` that can visit the slot so many calls of
`advance_slot` away: the one under way, or a later one. -/
def earliest (r : TimedRun numSlots slotMs) (togo : ℕ) : ℕ :=
  if togo ≤ r.run.activity.left then r.now
  else max r.clock (r.run.wheel.lastTick + (togo - r.run.activity.left) * tickNanos slotMs)

/-- A timer that is added finds an entry, and no `tick` can reach it too early. -/
def Waits (r : TimedRun numSlots slotMs) : TimedLabel → Prop
  | .add time timeout =>
      r.run.roomy (.add timeout) = true ∧
        time + timeout.toInt * 1000000 - tickNanos slotMs ≤
          ({ r with clock := time }).earliest (TimerRun.reach numSlots (WheelTimer.ticks slotMs timeout))
  | _ => True

instance (r : TimedRun numSlots slotMs) : DecidablePred r.Waits
  | .add _ _ => inferInstanceAs (Decidable (_ ∧ _))
  | .cancel _ | .tick _ | .proceed | .throw => inferInstanceAs (Decidable True)

variable {r next : TimedRun numSlots slotMs}

/-! ## Steps -/

theorem step_run {label : TimedLabel} (hstep : r.step label = some next) :
    r.run.step label.timer = some next.run := by
  cases label with
  | add time timeout =>
      simp only [step, Option.ite_none_right_eq_some, Option.map_eq_some_iff] at hstep
      obtain ⟨-, run, hrun, rfl⟩ := hstep
      exact hrun
  | tick now =>
      simp only [step, Option.ite_none_right_eq_some, Option.map_eq_some_iff] at hstep
      obtain ⟨-, run, hrun, rfl⟩ := hstep
      exact hrun
  | cancel id =>
      obtain ⟨run, hrun, rfl⟩ := Option.map_eq_some_iff.mp hstep
      exact hrun
  | proceed =>
      obtain ⟨run, hrun, rfl⟩ := Option.map_eq_some_iff.mp hstep
      exact hrun
  | throw =>
      obtain ⟨run, hrun, rfl⟩ := Option.map_eq_some_iff.mp hstep
      exact hrun

/-- A `tick` goes no further than its argument. -/
theorem elapsed_le (w : WheelTimer numSlots slotMs) (now : ℕ) :
    w.elapsedTicks now = 0 ∨ w.lastTick + w.elapsedTicks now * tickNanos slotMs ≤ now := by
  unfold WheelTimer.elapsedTicks
  dsimp only
  split_ifs
  · exact .inl rfl
  · exact .inl rfl
  · right
    have hwhole := Nat.div_mul_le_self ((now - w.lastTick) / 1000000) slotMs
    have hmillis := Nat.div_mul_le_self (now - w.lastTick) 1000000
    rw [tickNanos, Nat.mul_left_comm]
    omega

theorem earliest_reached {togo : ℕ} (hreached : togo ≤ r.run.activity.left) :
    r.earliest togo = r.now :=
  if_pos hreached

theorem earliest_later {togo : ℕ} (hlater : r.run.activity.left < togo) :
    r.earliest togo = max r.clock
      (r.run.wheel.lastTick + (togo - r.run.activity.left) * tickNanos slotMs) :=
  if_neg (Nat.not_le_of_lt hlater)

/-- A step in which no time passes for the wheel, although one slot may be visited. -/
theorem earliest_le (hlast : next.run.wheel.lastTick = r.run.wheel.lastTick)
    (hclock : r.clock ≤ next.clock) (hnow : next.now = r.now)
    (hleft : next.run.activity.left + (next.run.history.advances - r.run.history.advances) =
      r.run.activity.left) (togo : ℕ) :
    r.earliest (togo + (next.run.history.advances - r.run.history.advances)) ≤
      next.earliest togo := by
  generalize next.run.history.advances - r.run.history.advances = advances at hleft ⊢
  unfold earliest
  rw [hlast, hnow, ← hleft]
  simp only [Nat.add_le_add_iff_right, Nat.add_sub_add_right]
  split
  · exact le_rfl
  · exact max_le_max_right _ hclock

/-- The clock does not go back, and so no slot is reached earlier than it could be
before the step. -/
theorem earliest_step (hclock : r.now ≤ r.clock) {label : TimedLabel}
    (hstep : r.step label = some next) (togo : ℕ) :
    r.earliest (togo + (next.run.history.advances - r.run.history.advances)) ≤
      next.earliest togo := by
  cases label with
  | add time timeout =>
      simp only [step, Option.ite_none_right_eq_some, Option.map_eq_some_iff] at hstep
      obtain ⟨htime, run, hrun, rfl⟩ := hstep
      obtain ⟨hlast, hleft⟩ := TimerRun.left_step trivial hrun
      apply earliest_le
      · exact hlast
      · exact htime
      · rfl
      · exact hleft
  | cancel id =>
      simp only [step, Option.map_eq_some_iff] at hstep
      obtain ⟨run, hrun, rfl⟩ := hstep
      obtain ⟨hlast, hleft⟩ := TimerRun.left_step trivial hrun
      apply earliest_le
      · exact hlast
      · exact le_rfl
      · rfl
      · exact hleft
  | proceed =>
      simp only [step, Option.map_eq_some_iff] at hstep
      obtain ⟨run, hrun, rfl⟩ := hstep
      obtain ⟨hlast, hleft⟩ := TimerRun.left_step trivial hrun
      apply earliest_le
      · exact hlast
      · exact le_rfl
      · rfl
      · exact hleft
  | tick now =>
      simp only [step, Option.ite_none_right_eq_some, Option.map_eq_some_iff] at hstep
      obtain ⟨htime, run, htick, rfl⟩ := hstep
      cases hactivity : r.run.activity <;> simp only [TimerRun.step, hactivity] at htick <;>
        cases htick
      have hleft : r.run.activity.left = 0 := by rw [hactivity]; rfl
      have hsplit : 1000000 * (r.run.wheel.elapsedTicks now * slotMs) =
          r.run.wheel.elapsedTicks now * tickNanos slotMs := Nat.mul_left_comm ..
      rw [Nat.sub_self, Nat.add_zero]
      by_cases hreached : togo ≤ r.run.wheel.elapsedTicks now
      · have hnow : earliest ⟨⟨r.run.wheel.startTick now, .advancing (r.run.wheel.elapsedTicks now),
            r.run.history⟩, now, now, r.addedAt, r.fired⟩ togo = now := earliest_reached hreached
        rw [hnow]
        by_cases hzero : togo = 0
        · rw [earliest_reached (by omega)]
          exact hclock.trans htime
        · -- the slot is visited by this very call
          have hpast := (elapsed_le r.run.wheel now).resolve_left (by omega)
          have hmul := Nat.mul_le_mul_right (tickNanos slotMs) hreached
          rw [earliest_later (by omega), hleft, Nat.sub_zero]
          exact max_le htime (by omega)
      · have hmul : togo * tickNanos slotMs =
            r.run.wheel.elapsedTicks now * tickNanos slotMs +
              (togo - r.run.wheel.elapsedTicks now) * tickNanos slotMs := by
          rw [← Nat.add_mul, Nat.add_sub_cancel' (by omega)]
        rw [earliest_later (r := r) (by omega), earliest_later (Nat.lt_of_not_le hreached), hleft,
          Nat.sub_zero, hmul, ← Nat.add_assoc]
        apply max_le_max htime
        exact Nat.add_le_add_right (Nat.add_le_add_left hsplit.ge _) _
  | throw =>
      simp only [step, Option.map_eq_some_iff] at hstep
      obtain ⟨run, hthrow, rfl⟩ := hstep
      cases hactivity : r.run.activity <;> simp only [TimerRun.step, hactivity] at hthrow <;>
        cases hthrow
      rw [Nat.sub_self, Nat.add_zero]
      by_cases hzero : togo = 0
      · rw [earliest_reached (by omega), earliest_reached hzero.le]
      · have hidle : earliest ⟨⟨r.run.wheel, .idle, r.run.history⟩, r.clock, r.now, r.addedAt,
            r.fired⟩ togo = max r.clock (r.run.wheel.lastTick + togo * tickNanos slotMs) :=
          earliest_later (Nat.pos_of_ne_zero hzero)
        rw [hidle]
        by_cases hreached : togo ≤ r.run.activity.left
        · rw [earliest_reached hreached]
          exact le_max_of_le_left hclock
        · -- the slots that were left are visited after all, but later
          rw [earliest_later (Nat.lt_of_not_le hreached)]
          apply max_le_max_left
          have hmul := Nat.mul_le_mul_right (tickNanos slotMs)
            (Nat.sub_le togo r.run.activity.left)
          exact Nat.add_le_add_left hmul _

theorem clock_step (hclock : r.now ≤ r.clock) {label : TimedLabel}
    (hstep : r.step label = some next) : next.now ≤ next.clock := by
  cases label with
  | add time timeout =>
      simp only [step, Option.ite_none_right_eq_some, Option.map_eq_some_iff] at hstep
      obtain ⟨htime, run, -, rfl⟩ := hstep
      exact hclock.trans htime
  | tick now =>
      simp only [step, Option.ite_none_right_eq_some, Option.map_eq_some_iff] at hstep
      obtain ⟨-, run, -, rfl⟩ := hstep
      exact le_rfl
  | cancel id =>
      obtain ⟨run, -, rfl⟩ := Option.map_eq_some_iff.mp hstep
      exact hclock
  | proceed =>
      obtain ⟨run, -, rfl⟩ := Option.map_eq_some_iff.mp hstep
      exact hclock
  | throw =>
      obtain ⟨run, -, rfl⟩ := Option.map_eq_some_iff.mp hstep
      exact hclock

/-- The time for which a callback was asked stays what it was. -/
theorem deadline_step {label : TimedLabel} (hstep : r.step label = some next) {timer : ℕ}
    (htimer : timer < r.run.history.adds) : next.deadline timer = r.deadline timer := by
  have hadded := (TimerRun.history_step (step_run hstep)).1 timer htimer
  have haddedAt : next.addedAt timer = r.addedAt timer := by
    cases label with
    | add time timeout =>
        simp only [step, Option.ite_none_right_eq_some, Option.map_eq_some_iff] at hstep
        obtain ⟨-, run, -, rfl⟩ := hstep
        exact Function.update_of_ne htimer.ne ..
    | tick now =>
        simp only [step, Option.ite_none_right_eq_some, Option.map_eq_some_iff] at hstep
        obtain ⟨-, run, -, rfl⟩ := hstep
        rfl
    | cancel id =>
        obtain ⟨run, -, rfl⟩ := Option.map_eq_some_iff.mp hstep
        rfl
    | proceed =>
        obtain ⟨run, -, rfl⟩ := Option.map_eq_some_iff.mp hstep
        rfl
    | throw =>
        obtain ⟨run, -, rfl⟩ := Option.map_eq_some_iff.mp hstep
        rfl
  unfold deadline
  rw [hadded, haddedAt]

/-- What is new among the callbacks that were run belongs to the `tick` under way. -/
theorem fired_step {label : TimedLabel} (hstep : r.step label = some next) :
    next.fired = r.fired ++
      (next.run.history.invoked.drop r.run.history.invoked.length).map fun e => (e.1, r.now) := by
  have hrun := TimerRun.invoked_step (step_run hstep)
  have hquiet (hlabel : label ≠ .proceed) :
      next.run.history.invoked = r.run.history.invoked := by
    rcases hrun with hsame | ⟨timer, handle, -, -, -, hproceed, -⟩
    · exact hsame
    · cases label <;> cases hproceed
      exact absurd rfl hlabel
  cases label with
  | add time timeout =>
      rw [hquiet nofun, List.drop_length]
      simp only [step, Option.ite_none_right_eq_some, Option.map_eq_some_iff] at hstep
      obtain ⟨-, run, -, rfl⟩ := hstep
      simp
  | tick now =>
      rw [hquiet nofun, List.drop_length]
      simp only [step, Option.ite_none_right_eq_some, Option.map_eq_some_iff] at hstep
      obtain ⟨-, run, -, rfl⟩ := hstep
      simp
  | cancel id =>
      rw [hquiet nofun, List.drop_length]
      obtain ⟨run, -, rfl⟩ := Option.map_eq_some_iff.mp hstep
      simp
  | throw =>
      rw [hquiet nofun, List.drop_length]
      obtain ⟨run, -, rfl⟩ := Option.map_eq_some_iff.mp hstep
      simp
  | proceed =>
      obtain ⟨run, -, rfl⟩ := Option.map_eq_some_iff.mp hstep
      rfl

/-! ## Runs -/

/-- No `tick` can reach a timer that has not been cancelled too early, and none has. -/
structure Unhurried (r : TimedRun numSlots slotMs) : Prop where
  held : Held r.run.wheel r.run.history
  apart : r.run.Apart
  clock : r.now ≤ r.clock
  scheduled : r.run.Scheduled fun timer togo =>
    r.deadline timer - tickNanos slotMs ≤ r.earliest togo
  recorded : r.fired.map (·.1) = r.run.history.invoked.map (·.1)
  fired : ∀ e ∈ r.fired, r.deadline e.1 - tickNanos slotMs ≤ e.2

theorem unhurried_initial (hslots : 0 < numSlots) (start : ℕ) :
    (initial start : TimedRun numSlots slotMs).Unhurried := by
  constructor
  · exact held_initial start
  · exact TimerRun.apart_initial hslots start
  · exact le_rfl
  · exact TimerRun.scheduled_initial start
  · rfl
  · exact fun _ hmem => by cases hmem

/-- The timer that is added is not reached too early. -/
theorem deadline_added {label : TimedLabel} (hwaits : r.Waits label)
    (hstep : r.step label = some next) {timeout : Int64} {id : ℕ}
    (hrecord : next.run.history = TimerRun.recordAdd timeout id r.run.wheel r.run.history) :
    next.deadline r.run.history.adds - tickNanos slotMs ≤
      next.earliest (TimerRun.reach numSlots (WheelTimer.ticks slotMs timeout)) := by
  have hmore : next.run.history.adds = r.run.history.adds + 1 := by
    rw [hrecord]
    rfl
  have hadded : next.run.history.added r.run.history.adds = (r.run.history.advances, timeout) := by
    rw [hrecord]
    exact Function.update_self ..
  have hlabel := (TimerRun.history_step (step_run hstep)).2.2.resolve_left (by omega)
  cases label with
  | cancel _ | tick _ | proceed | throw =>
      obtain ⟨_, hadd⟩ := hlabel
      cases hadd
  | add time given =>
      simp only [step, Option.ite_none_right_eq_some, Option.map_eq_some_iff] at hstep
      obtain ⟨-, run, hrun, rfl⟩ := hstep
      obtain ⟨hlast, hleft⟩ := TimerRun.left_step trivial hrun
      dsimp only at hrecord hadded
      have hgiven : given = timeout := by
        simp only [TimerRun.step, Option.ite_none_right_eq_some, Option.map_eq_some_iff] at hrun
        obtain ⟨-, result, -, rfl⟩ := hrun
        have hnew : (TimerRun.recordAdd given result.1 r.run.wheel r.run.history).added
            r.run.history.adds = (r.run.history.advances, given) := Function.update_self ..
        dsimp only at hadded
        rw [hnew] at hadded
        cases hadded
        rfl
      have hadvances : run.history.advances = r.run.history.advances := by
        rw [hrecord]
        rfl
      rw [hadvances, Nat.sub_self, Nat.add_zero] at hleft
      rw [← hgiven]
      unfold Waits earliest at hwaits
      unfold deadline earliest
      dsimp only at hwaits ⊢
      rw [hadded, Function.update_self, hlast, hleft, ← hgiven]
      exact hwaits.2

theorem Unhurried.scheduled_step (h : r.Unhurried) {label : TimedLabel} (hwaits : r.Waits label)
    (hstep : r.step label = some next) :
    next.run.Apart ∧ next.run.Scheduled fun timer togo =>
      next.deadline timer - tickNanos slotMs ≤ next.earliest togo := by
  have hrun := step_run hstep
  have hkeep {timer togo : ℕ} (htimer : timer < r.run.history.adds)
      (hdue : r.deadline timer - tickNanos slotMs ≤
        r.earliest (togo + (next.run.history.advances - r.run.history.advances))) :
      next.deadline timer - tickNanos slotMs ≤ next.earliest togo := by
    have hle := earliest_step h.clock hstep togo
    rw [deadline_step hstep htimer]
    exact hdue.trans (by exact_mod_cast hle)
  by_cases hthrow : label = .throw
  · rw [hthrow] at hrun
    have hlost := TimerRun.step_throw hrun
    rw [hlost, Nat.sub_self] at hkeep
    rw [hlost]
    exact ⟨h.apart.lose, h.scheduled.lose h.held fun timer togo => hkeep⟩
  · have hmoves : TimerRun.HandleStep r.run next.run := by
      apply TimerRun.handleStep h.apart h.held _ _ hrun
      · cases label with
        | add time timeout => exact hwaits.1
        | cancel _ | tick _ | proceed | throw => rfl
      · intro hlabel
        cases label <;> cases hlabel
        exact absurd rfl hthrow
    refine ⟨h.apart.step hmoves, ?_⟩
    apply h.scheduled.step h.apart h.held hmoves
    · exact fun timer togo htimer hdue => hkeep htimer hdue
    · exact fun timeout id hrecord => deadline_added hwaits hstep hrecord

theorem Unhurried.step (h : r.Unhurried) {label : TimedLabel} (hwaits : r.Waits label)
    (hstep : r.step label = some next) : next.Unhurried := by
  have hrun := step_run hstep
  have hroomy : r.run.roomy label.timer = true := by
    cases label with
    | add time timeout => exact hwaits.1
    | cancel _ | tick _ | proceed | throw => rfl
  have hknown {timer : ℕ} (hmem : timer ∈ r.fired.map (·.1)) : timer < r.run.history.adds := by
    rw [h.recorded] at hmem
    exact (h.held.invoked timer hmem).1
  have hold (e : ℕ × ℕ) (hmem : e ∈ r.fired) :
      next.deadline e.1 - tickNanos slotMs ≤ e.2 := by
    rw [deadline_step hstep (hknown (List.mem_map_of_mem hmem))]
    exact h.fired e hmem
  obtain ⟨hapart, hscheduled⟩ := h.scheduled_step hwaits hstep
  have hfired := fired_step hstep
  have hheld := h.held.step (TimerRun.entryStep h.held hroomy hrun)
  rcases TimerRun.invoked_step hrun with hsame | ⟨timer, handle, hmem, hnew, -, -, hholds, hflag, hzero⟩
  · rw [hsame, List.drop_length, List.map_nil, List.append_nil] at hfired
    refine ⟨hheld, hapart, clock_step h.clock hstep, hscheduled, ?_, ?_⟩
    · rw [hfired, hsame]
      exact h.recorded
    · rw [hfired]
      exact hold
  · rw [hnew, List.drop_left] at hfired
    refine ⟨hheld, hapart, clock_step h.clock hstep, hscheduled, ?_, ?_⟩
    · rw [hfired, hnew, List.map_append, List.map_append, h.recorded]
      rfl
    · -- no calls are to go for the handle that is visited
      have hdue := h.scheduled.handles handle hmem timer hholds hflag
      rw [hzero, Nat.zero_mul, earliest_reached (Nat.zero_le _)] at hdue
      intro e he
      rw [hfired, List.mem_append] at he
      rcases he with hbefore | hlast
      · exact hold e hbefore
      · rw [List.map_singleton, List.mem_singleton] at hlast
        rw [hlast, deadline_step hstep (h.held.lt_adds hholds)]
        exact hdue

/-- If no timer is added that can be reached too early, no callback is invoked more
than one tick before its time. -/
theorem exec_neverEarly (hslots : 0 < numSlots) {start : ℕ} {labels : List TimedLabel}
    {final : TimedRun numSlots slotMs}
    (hwaits : Along step Waits (initial start : TimedRun numSlots slotMs) labels)
    (hexec : exec step (initial start) labels = some final) : final.NeverEarly := by
  have hkeep : ∀ (r : TimedRun numSlots slotMs) label next, r.Unhurried → r.Waits label →
      r.step label = some next → next.Unhurried := fun _ _ _ h => h.step
  have hfinal := exec_invariant_along hkeep (unhurried_initial hslots start) hwaits hexec
  exact fun e hmem => not_lt.mpr (hfinal.fired e hmem)

/-- A timer of 500 ms that is added right after a `tick`. -/
def freshRun : List TimedLabel :=
  [.add 0 500, .tick 500000000] ++ List.replicate 8 .proceed

theorem exec_neverEarly_fresh :
    ∃ final : TimedRun 512 100, exec step (initial 0) freshRun = some final ∧
      final.fired = [(0, 500000000)] ∧ final.NeverEarly := by
  have hlast : ((exec step (initial 0 : TimedRun 512 100) freshRun).any fun final =>
      final.fired = [(0, 500000000)]) = true := by
    decide +kernel
  cases hexec : exec step (initial 0 : TimedRun 512 100) freshRun with
  | none =>
      rw [hexec] at hlast
      cases hlast
  | some final =>
      rw [hexec] at hlast
      exact ⟨final, rfl, of_decide_eq_true hlast,
        exec_neverEarly (by decide) (by decide +kernel) hexec⟩

/-- The same timer, added when `tick` has not been called for a second. -/
def laggingRun : List TimedLabel :=
  [.add 1000000000 500, .tick 1000000000] ++ List.replicate 8 .proceed

theorem laggingRun_early :
    ∃ final : TimedRun 512 100, exec step (initial 0) laggingRun = some final ∧
      final.fired = [(0, 1000000000)] ∧ final.deadline 0 = 1500000000 ∧ ¬ final.NeverEarly := by
  have hlast : ((exec step (initial 0 : TimedRun 512 100) laggingRun).any fun final =>
      final.fired = [(0, 1000000000)] ∧ final.deadline 0 = 1500000000 ∧ ¬ final.NeverEarly) =
        true := by
    decide +kernel
  cases hexec : exec step (initial 0 : TimedRun 512 100) laggingRun with
  | none =>
      rw [hexec] at hlast
      cases hlast
  | some final =>
      rw [hexec] at hlast
      exact ⟨final, rfl, of_decide_eq_true hlast⟩

end TimedRun

end Timer
end Katana
