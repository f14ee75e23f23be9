import Katana.Timer.Wheel

/-!
# Coalescing calls of `tick`

As long as the callbacks do not touch the timer, `tick` is a function of the timer:
`advance_slot` so many times.  What is left of a division by `TICK_MS` stays in
`last_tick_`, so that many calls do what the last of them does alone.
-/

namespace Katana
namespace Timer

open Library

variable {numSlots slotMs : ℕ}

namespace TimerRun

/-- A call of `tick` whose callbacks do not touch the timer. -/
def Ticked (now : ℕ) (r next : TimerRun numSlots slotMs) : Prop :=
  ∃ proceeds, exec step r (.tick now :: List.replicate proceeds .proceed) = some next ∧
    next.activity = .idle

/-- Such calls of `tick` one after the other. -/
def TickedAll : List ℕ → TimerRun numSlots slotMs → TimerRun numSlots slotMs → Prop
  | [], r, next => next = r
  | now :: rest, r, next => ∃ middle, r.Ticked now middle ∧ middle.TickedAll rest next

/-- A round of the loop over the handles. -/
def visitHandle (compact : Bool) (r : TimerRun numSlots slotMs) (handle : SlotHandle) :
    TimerRun numSlots slotMs :=
  { r with
    wheel := r.wheel.visited handle compact
    history := recordVisit handle compact r.wheel r.history }

def advanceSlot (r : TimerRun numSlots slotMs) : TimerRun numSlots slotMs :=
  (r.wheel.slots r.wheel.nextSlot).foldl (visitHandle r.wheel.startSlot.shouldCompact)
    { r with
      wheel := r.wheel.startSlot
      history := { r.history with advances := r.history.advances + 1 } }

def tick (now : ℕ) (r : TimerRun numSlots slotMs) : TimerRun numSlots slotMs :=
  advanceSlot^[r.wheel.elapsedTicks now] { r with wheel := r.wheel.startTick now }

/-! ## The steps of `tick` -/

def withActivity (activity : Activity) (r : TimerRun numSlots slotMs) : TimerRun numSlots slotMs :=
  { r with activity := activity }

theorem exec_visits (left : ℕ) (handles : List SlotHandle) (compact : Bool)
    (r : TimerRun numSlots slotMs) :
    ∃ proceeds, exec step (r.withActivity (.visiting left handles compact))
        (List.replicate proceeds .proceed) =
      some ((handles.foldl (visitHandle compact) r).withActivity (.advancing left)) := by
  induction handles generalizing r with
  | nil => exact ⟨1, rfl⟩
  | cons handle rest ih =>
      obtain ⟨proceeds, hrest⟩ := ih (r.visitHandle compact handle)
      by_cases hfire : r.wheel.visit handle compact = .fire
      · -- the callback is run and returns
        refine ⟨proceeds + 2, ?_⟩
        have hcall : step (r.withActivity (.visiting left (handle :: rest) compact)) .proceed =
            some ((r.visitHandle compact handle).withActivity (.calling left rest compact)) := by
          simp only [step, withActivity, visitHandle, hfire, if_true]
        have hreturn : step ((r.visitHandle compact handle).withActivity
            (.calling left rest compact)) .proceed =
            some ((r.visitHandle compact handle).withActivity (.visiting left rest compact)) := rfl
        rw [List.replicate_succ, List.replicate_succ, exec_cons]
        exact ⟨_, hcall, (exec_cons).mpr ⟨_, hreturn, hrest⟩⟩
      · refine ⟨proceeds + 1, ?_⟩
        have hvisit : step (r.withActivity (.visiting left (handle :: rest) compact)) .proceed =
            some ((r.visitHandle compact handle).withActivity (.visiting left rest compact)) := by
          simp only [step, withActivity, visitHandle, hfire, if_false]
        rw [List.replicate_succ, exec_cons]
        exact ⟨_, hvisit, hrest⟩

theorem exec_advances (left : ℕ) (r : TimerRun numSlots slotMs) :
    ∃ proceeds, exec step (r.withActivity (.advancing left)) (List.replicate proceeds .proceed) =
      some ((advanceSlot^[left] r).withActivity .idle) := by
  induction left generalizing r with
  | zero => exact ⟨1, rfl⟩
  | succ left ih =>
      obtain ⟨later, hlater⟩ := ih r.advanceSlot
      have hslot : ∃ proceeds, exec step (r.withActivity (.advancing (left + 1)))
          (List.replicate proceeds .proceed) =
            some (r.advanceSlot.withActivity (.advancing left)) := by
        by_cases hempty : (r.wheel.slots r.wheel.nextSlot).isEmpty
        · refine ⟨1, ?_⟩
          have hnone : r.wheel.slots r.wheel.nextSlot = [] := List.isEmpty_iff.mp hempty
          simp [exec, step, withActivity, advanceSlot, hnone]
        · obtain ⟨visits, hvisits⟩ := exec_visits left (r.wheel.slots r.wheel.nextSlot)
            r.wheel.startSlot.shouldCompact
            { r with
              wheel := r.wheel.startSlot
              history := { r.history with advances := r.history.advances + 1 } }
          refine ⟨visits + 1, ?_⟩
          have hstart : step (r.withActivity (.advancing (left + 1))) .proceed =
              some (withActivity (.visiting left (r.wheel.slots r.wheel.nextSlot)
                r.wheel.startSlot.shouldCompact)
                { r with
                  wheel := r.wheel.startSlot
                  history := { r.history with advances := r.history.advances + 1 } }) := by
            simp only [step, withActivity, hempty]
            rfl
          rw [List.replicate_succ, exec_cons]
          exact ⟨_, hstart, hvisits⟩
      obtain ⟨first, hfirst⟩ := hslot
      refine ⟨first + later, ?_⟩
      rw [List.replicate_add, exec_append]
      exact ⟨_, hfirst, hlater⟩

/-- There is only one way to proceed to the end. -/
theorem exec_proceeds_unique {r first second : TimerRun numSlots slotMs} {n m : ℕ}
    (hfirst : exec step r (List.replicate n .proceed) = some first) (hidle : first.activity = .idle)
    (hsecond : exec step r (List.replicate m .proceed) = some second)
    (hidle' : second.activity = .idle) : first = second := by
  have hstuck {r : TimerRun numSlots slotMs} (h : r.activity = .idle) :
      r.step .proceed = none := by
    simp only [step, h]
  induction n generalizing r m with
  | zero =>
      cases hfirst
      cases m with
      | zero =>
          cases hsecond
          rfl
      | succ m =>
          rw [List.replicate_succ, exec, hstuck hidle] at hsecond
          cases hsecond
  | succ n ih =>
      rw [List.replicate_succ, exec_cons] at hfirst
      obtain ⟨next, hstep, hrest⟩ := hfirst
      cases m with
      | zero =>
          cases hsecond
          rw [hstuck hidle'] at hstep
          cases hstep
      | succ m =>
          rw [List.replicate_succ, exec, hstep] at hsecond
          exact ih hrest hsecond

theorem tick_activity (now : ℕ) (r : TimerRun numSlots slotMs) :
    (r.tick now).activity = r.activity := by
  have hslot (r : TimerRun numSlots slotMs) : r.advanceSlot.activity = r.activity := by
    unfold advanceSlot
    generalize r.wheel.slots r.wheel.nextSlot = handles
    induction handles using List.reverseRecOn with
    | nil => rfl
    | append_singleton handles handle ih =>
        rw [List.foldl_append]
        exact ih
  unfold tick
  generalize r.wheel.elapsedTicks now = count
  induction count with
  | zero => rfl
  | succ count ih =>
      rw [Function.iterate_succ_apply', hslot]
      exact ih

theorem ticked_iff (now : ℕ) {r next : TimerRun numSlots slotMs} (hidle : r.activity = .idle) :
    r.Ticked now next ↔ next = r.tick now := by
  obtain ⟨proceeds, hexec⟩ := exec_advances (r.wheel.elapsedTicks now)
    { r with wheel := r.wheel.startTick now }
  have hstep : r.step (.tick now) = some (withActivity (.advancing (r.wheel.elapsedTicks now))
      { r with wheel := r.wheel.startTick now }) := by
    simp only [step, hidle, withActivity]
  have hdone : (r.tick now).withActivity .idle = r.tick now := by
    rw [← hidle, ← tick_activity now r]
    rfl
  constructor
  · rintro ⟨n, hticked, hnext⟩
    rw [exec, hstep] at hticked
    rw [← hdone]
    exact exec_proceeds_unique hticked hnext hexec rfl
  · rintro rfl
    refine ⟨proceeds, ?_, (tick_activity now r).trans hidle⟩
    rw [exec, hstep, ← hdone]
    exact hexec

/-! ## Coalescing -/

def withLastTick (lastTick : ℕ) (r : TimerRun numSlots slotMs) : TimerRun numSlots slotMs :=
  { r with wheel := { r.wheel with lastTick := lastTick } }

/-- `advance_slot` does not look at `last_tick_`. -/
theorem advanceSlot_withLastTick (lastTick : ℕ) (r : TimerRun numSlots slotMs) :
    (r.withLastTick lastTick).advanceSlot = r.advanceSlot.withLastTick lastTick := by
  have hvisit (compact : Bool) (handle : SlotHandle) (r : TimerRun numSlots slotMs) :
      (r.withLastTick lastTick).visitHandle compact handle =
        (r.visitHandle compact handle).withLastTick lastTick := by
    have hsame : (r.withLastTick lastTick).wheel.visit handle compact =
        r.wheel.visit handle compact := rfl
    unfold visitHandle recordVisit WheelTimer.visited
    rw [hsame]
    cases r.wheel.visit handle compact <;> rfl
  have hfold (compact : Bool) (handles : List SlotHandle) (r : TimerRun numSlots slotMs) :
      handles.foldl (visitHandle compact) (r.withLastTick lastTick) =
        (handles.foldl (visitHandle compact) r).withLastTick lastTick := by
    induction handles generalizing r with
    | nil => rfl
    | cons handle rest ih => rw [List.foldl_cons, List.foldl_cons, hvisit, ih]
  have hstart : (r.withLastTick lastTick).wheel.startSlot =
      { r.wheel.startSlot with lastTick := lastTick } := by
    unfold WheelTimer.startSlot
    by_cases hempty : (r.wheel.slots r.wheel.nextSlot).isEmpty = true
    · have hsame : ((r.withLastTick lastTick).wheel.slots
          (r.withLastTick lastTick).wheel.nextSlot).isEmpty = true := hempty
      rw [if_pos hsame, if_pos hempty]
      rfl
    · have hsame : ¬ ((r.withLastTick lastTick).wheel.slots
          (r.withLastTick lastTick).wheel.nextSlot).isEmpty = true := hempty
      rw [if_neg hsame, if_neg hempty]
      rfl
  unfold advanceSlot
  rw [← hfold, hstart]
  rfl

/-- Both divisions round down, so there is only one. -/
theorem elapsedTicks_eq (w : WheelTimer numSlots slotMs) (now : ℕ) :
    w.elapsedTicks now = (now - w.lastTick) / (1000000 * slotMs) := by
  unfold WheelTimer.elapsedTicks
  dsimp only
  rw [← Nat.div_div_eq_div_mul]
  split_ifs with hpast hshort
  · rw [Nat.sub_eq_zero_of_le hpast]
    simp
  · exact (Nat.div_eq_of_lt hshort).symm
  · rfl

theorem iterate_withLastTick (count lastTick : ℕ) (r : TimerRun numSlots slotMs) :
    advanceSlot^[count] (r.withLastTick lastTick) =
      (advanceSlot^[count] r).withLastTick lastTick := by
  have hcommute : Function.Commute (advanceSlot : TimerRun numSlots slotMs → _)
      (withLastTick lastTick) := advanceSlot_withLastTick lastTick
  exact hcommute.iterate_left count r

theorem tick_eq (now : ℕ) (r : TimerRun numSlots slotMs) :
    r.tick now = (advanceSlot^[r.wheel.elapsedTicks now] r).withLastTick
      (r.wheel.lastTick + 1000000 * slotMs * r.wheel.elapsedTicks now) := by
  rw [← iterate_withLastTick, Nat.mul_assoc, Nat.mul_comm slotMs]
  rfl

/-- What an earlier `tick` has left of the time is counted by the next one. -/
theorem tick_tick {first second : ℕ} (hle : first ≤ second) (r : TimerRun numSlots slotMs) :
    (r.tick first).tick second = r.tick second := by
  have hlast : (r.tick first).wheel.lastTick =
      r.wheel.lastTick + 1000000 * slotMs * r.wheel.elapsedTicks first := by
    rw [tick_eq]
    rfl
  have hcount : r.wheel.elapsedTicks second =
      (r.tick first).wheel.elapsedTicks second + r.wheel.elapsedTicks first := by
    have hmono : r.wheel.elapsedTicks first ≤ r.wheel.elapsedTicks second := by
      rw [elapsedTicks_eq, elapsedTicks_eq]
      exact Nat.div_le_div_right (Nat.sub_le_sub_right hle _)
    have hrest : (r.tick first).wheel.elapsedTicks second =
        r.wheel.elapsedTicks second - r.wheel.elapsedTicks first := by
      rw [elapsedTicks_eq, hlast, Nat.sub_add_eq, Nat.sub_mul_div, ← elapsedTicks_eq]
    omega
  calc (r.tick first).tick second
      = (advanceSlot^[(r.tick first).wheel.elapsedTicks second] (r.tick first)).withLastTick
          ((r.tick first).wheel.lastTick +
            1000000 * slotMs * (r.tick first).wheel.elapsedTicks second) := tick_eq ..
    _ = (advanceSlot^[r.wheel.elapsedTicks second] r).withLastTick
          ((r.tick first).wheel.lastTick +
            1000000 * slotMs * (r.tick first).wheel.elapsedTicks second) := by
          rw [hcount, Function.iterate_add_apply]
          generalize (r.tick first).wheel.elapsedTicks second = count
          rw [tick_eq first r, iterate_withLastTick]
          rfl
    _ = r.tick second := by
          rw [tick_eq second r, hlast, Nat.add_assoc, ← Nat.mul_add,
            Nat.add_comm (r.wheel.elapsedTicks first), ← hcount]

theorem tickedAll_iff {times : List ℕ} (hsorted : times.Pairwise (· ≤ ·))
    {r next : TimerRun numSlots slotMs} (hidle : r.activity = .idle) (hne : times ≠ []) :
    r.TickedAll times next ↔ next = r.tick (times.getLast hne) := by
  induction times generalizing r with
  | nil => exact absurd rfl hne
  | cons now rest ih =>
      rw [List.pairwise_cons] at hsorted
      simp only [TickedAll, ticked_iff now hidle, exists_eq_left]
      cases rest with
      | nil => exact Iff.rfl
      | cons later rest =>
          have hlater : now ≤ (later :: rest).getLast (List.cons_ne_nil _ _) :=
            hsorted.1 _ (List.getLast_mem _)
          rw [ih hsorted.2 ((tick_activity now r).trans hidle) (List.cons_ne_nil _ _),
            List.getLast_cons (List.cons_ne_nil _ _), tick_tick hlater r]

/-- Calls of `tick` at times that do not go back do what the last of them does alone:
they lead to the same timer, with the same calls of `advance_slot` and the same callbacks. -/
theorem tickedAll_iff_last (w : WheelTimer numSlots slotMs) (h : TimerHistory) {times : List ℕ}
    (hne : times ≠ []) (hsorted : times.Pairwise (· ≤ ·)) :
    ∃ final : TimerRun numSlots slotMs,
      (∀ next, Ticked (times.getLast hne) ⟨w, .idle, h⟩ next ↔ next = final) ∧
        ∀ next, TickedAll times ⟨w, .idle, h⟩ next ↔ next = final :=
  ⟨_, fun _ => ticked_iff _ rfl, fun _ => tickedAll_iff hsorted rfl hne⟩

/-- A timer of two ticks. -/
def oneTimer : WheelTimer 4 1 where
  slots slot := if slot = 2 then [⟨0, 1⟩] else []
  entries _ := { callback := some 0, active := true }
  entriesSize := 1
  lastTick := 0
  pendingEntries := 1

theorem tickedAll_iff_last_oneTimer :
    ∃ final : TimerRun 4 1,
      (∀ next, Ticked 3000000 ⟨oneTimer, .idle, {}⟩ next ↔ next = final) ∧
        ∀ next, TickedAll [400000, 1700000, 3000000] ⟨oneTimer, .idle, {}⟩ next ↔ next = final :=
  tickedAll_iff_last oneTimer {} (List.cons_ne_nil 400000 [1700000, 3000000]) (by decide)

end TimerRun

end Timer
end Katana
