import Katana.Library.LeastCost
import Katana.Timer.TickCoalescing
import Katana.Timer.WheelHandles

/-!
# When the next timer expires

`time_until_next_expiration` goes through all handles and takes the least time that
it computes for one of them.  It counts one tick too many for a timer in another
slot than the current one and nearly a revolution too few for a timer in the
current slot, and it counts cancelled timers.
-/

namespace Katana
namespace Timer

open Library

variable {numSlots slotMs : ℕ}

def DURATION_MAX : ℤ := 2 ^ 63 - 1

/-- `static_cast<int64_t>` of a `size_t`. -/
def toInt64 (n : ℕ) : ℤ :=
  Int.bmod n SIZE_WORD

/-- The result of an operation on `int64_t`, which must not overflow. -/
def checked (result : ℤ) : Option ℤ :=
  if -2 ^ 63 ≤ result ∧ result ≤ DURATION_MAX then some result else none

namespace WheelTimer

def live (handle : SlotHandle) (w : WheelTimer numSlots slotMs) : Bool :=
  handle.index < w.entriesSize && (w.entries handle.index).active &&
    (w.entries handle.index).generation = handle.generation

/-- The handles that are not skipped, with their slots. -/
def liveHandles (w : WheelTimer numSlots slotMs) : List (ℕ × SlotHandle) :=
  (List.range numSlots).flatMap fun slot =>
    ((w.slots slot).filter (w.live ·)).map fun handle => (slot, handle)

def offset (slot : ℕ) (w : WheelTimer numSlots slotMs) : ℕ :=
  if w.currentSlot ≤ slot then slot - w.currentSlot else numSlots - (w.currentSlot - slot)

def totalTicks (slot : ℕ) (handle : SlotHandle) (w : WheelTimer numSlots slotMs) : ℕ :=
  (w.offset slot + (w.entries handle.index).remainingRounds * numSlots) % SIZE_WORD

/-- What is left of the current tick. -/
def base (now : ℕ) (w : WheelTimer numSlots slotMs) : ℤ :=
  let sinceLastTick := if w.lastTick < now then (now - w.lastTick) / 1000000 else 0
  slotMs - min slotMs sinceLastTick

def candidate (now slot : ℕ) (handle : SlotHandle) (w : WheelTimer numSlots slotMs) : Option ℤ :=
  (checked (toInt64 (w.totalTicks slot handle) * slotMs)).bind fun ahead =>
    checked (w.base now + ahead)

/-- In milliseconds; without a result where the arithmetic overflows. -/
def timeUntilNextExpiration (now : ℕ) (w : WheelTimer numSlots slotMs) : Option ℤ :=
  if w.pendingEntries = 0 then some DURATION_MAX
  else leastCost (fun p => w.candidate now p.1 p.2) DURATION_MAX w.liveHandles

/-- Calls of `advance_slot` until the handle is visited with no rounds left. -/
def togo (slot : ℕ) (handle : SlotHandle) (w : WheelTimer numSlots slotMs) : ℕ :=
  distance numSlots w.currentSlot slot + (w.entries handle.index).remainingRounds * numSlots

/-- The next timer that has not been cancelled has so many ticks to go, the least number
of ticks that is counted is one less, and nothing overflows. -/
def ForeseenAfter (ticks now : ℕ) (w : WheelTimer numSlots slotMs) : Prop :=
  (∃ slot < numSlots, ∃ handle ∈ w.slots slot,
    (w.entries handle.index).cancelled = false ∧ w.togo slot handle = ticks) ∧
  (∀ slot < numSlots, ∀ handle ∈ w.slots slot,
    (w.entries handle.index).cancelled = false → ticks ≤ w.togo slot handle) ∧
  (∃ slot < numSlots, ∃ handle ∈ w.slots slot,
    toInt64 (w.totalTicks slot handle) + 1 = ticks) ∧
  ∀ slot < numSlots, ∀ handle ∈ w.slots slot,
    ticks ≤ toInt64 (w.totalTicks slot handle) + 1 ∧
      w.base now + toInt64 (w.totalTicks slot handle) * slotMs ≤ DURATION_MAX

instance (ticks now : ℕ) (w : WheelTimer numSlots slotMs) : Decidable (w.ForeseenAfter ticks now) :=
  inferInstanceAs (Decidable (_ ∧ _))

def Foreseen (now : ℕ) (w : WheelTimer numSlots slotMs) : Prop :=
  ∃ ticks, w.ForeseenAfter ticks now

end WheelTimer

namespace TimerRun

/-- A call of `tick` invokes some callback. -/
def FiresAt (now : ℕ) (r : TimerRun numSlots slotMs) : Prop :=
  ∃ next, r.Ticked now next ∧ next.history.invoked ≠ r.history.invoked

/-- The time that is returned is the least one after which `tick` invokes a callback. -/
def WakesOnTime (now : ℕ) (r : TimerRun numSlots slotMs) : Prop :=
  ∃ wait : ℕ, r.wheel.timeUntilNextExpiration now = some (wait : ℤ) ∧
    r.FiresAt (now + wait * 1000000) ∧ ∀ earlier < wait, ¬ r.FiresAt (now + earlier * 1000000)

variable {r next : TimerRun numSlots slotMs}

/-! ## The number of entries in use -/

/-- `pending_entries_` counts the entries that are not free. -/
def PendingCounted (w : WheelTimer numSlots slotMs) : Prop :=
  w.freeList.length + w.pendingEntries = w.entriesSize

/-- An entry in use is counted. -/
theorem freeList_length_lt {h : TimerHistory} {w : WheelTimer numSlots slotMs} (hheld : Held w h)
    {index : ℕ} (hindex : index < w.entriesSize) (hactive : (w.entries index).active = true) :
    w.freeList.length < w.entriesSize := by
  have hnot : index ∉ w.freeList := by
    intro hmem
    rw [(hheld.free index hmem).2.1] at hactive
    cases hactive
  have hsub : index :: w.freeList ⊆ List.range w.entriesSize := by
    rw [List.cons_subset]
    exact ⟨List.mem_range.mpr hindex, fun i hi => List.mem_range.mpr (hheld.free i hi).1⟩
  have honce : (index :: w.freeList).Nodup := List.nodup_cons.mpr ⟨hnot, hheld.freeOnce⟩
  have hlength := (List.subperm_of_subset honce hsub).length_le
  rw [List.length_cons, List.length_range] at hlength
  exact hlength

theorem pendingCounted_step (hheld : Held r.wheel r.history) (hpending : PendingCounted r.wheel)
    {label : TimerLabel} (hstep : r.step label = some next) : PendingCounted next.wheel := by
  unfold PendingCounted at hpending ⊢
  have hrelease {index : ℕ} (hindex : index < r.wheel.entriesSize)
      (hactive : (r.wheel.entries index).active = true) :
      (index :: r.wheel.freeList).length + (r.wheel.pendingEntries - 1) =
        r.wheel.entriesSize := by
    have hlt := freeList_length_lt hheld hindex hactive
    rw [List.length_cons]
    omega
  cases label with
  | add timeout =>
      simp only [step, Option.ite_none_right_eq_some, Option.map_eq_some_iff] at hstep
      obtain ⟨-, result, hadd, rfl⟩ := hstep
      unfold WheelTimer.add WheelTimer.acquireEntry at hadd
      cases hfree : r.wheel.freeList with
      | nil =>
          rw [hfree] at hadd hpending
          cases hadd
          simp only [WheelTimer.pushHandle, WheelTimer.setEntry]
          omega
      | cons index rest =>
          rw [hfree] at hadd hpending
          cases hadd
          simp only [WheelTimer.pushHandle, WheelTimer.setEntry]
          rw [List.length_cons] at hpending
          omega
  | cancel id =>
      simp only [step, Option.ite_none_right_eq_some, Option.some.injEq] at hstep
      obtain ⟨-, rfl⟩ := hstep
      unfold WheelTimer.cancel
      dsimp only
      split_ifs <;> exact hpending
  | tick now =>
      cases hactivity : r.activity <;> simp only [step, hactivity] at hstep <;> cases hstep
      exact hpending
  | throw =>
      rw [step_throw hstep]
      exact hpending
  | proceed =>
      unfold step at hstep
      dsimp only at hstep
      split at hstep
      · cases hstep
      · cases hstep
        exact hpending
      · cases hstep
        dsimp only
        unfold WheelTimer.startSlot
        split <;> exact hpending
      · cases hstep
        exact hpending
      next left handle rest compact _ =>
        cases hstep
        dsimp only
        have hlive (hne : r.wheel.visit handle compact ≠ .stale) := visit_live hne
        unfold WheelTimer.visited
        cases hvisit : r.wheel.visit handle compact with
        | stale => exact hpending
        | keep => exact hpending
        | count => exact hpending
        | release => exact hrelease (hlive (by simp [hvisit])).1 (hlive (by simp [hvisit])).2.1
        | fire => exact hrelease (hlive (by simp [hvisit])).1 (hlive (by simp [hvisit])).2.1
      · cases hstep
        exact hpending

/-! ## Reachable states -/

/-- What holds in every run in which every timer finds an entry. -/
structure Sound (r : TimerRun numSlots slotMs) : Prop where
  held : Held r.wheel r.history
  apart : r.Apart
  pending : PendingCounted r.wheel

theorem sound_initial (hslots : 0 < numSlots) (start : ℕ) :
    (initial start : TimerRun numSlots slotMs).Sound :=
  ⟨held_initial start, apart_initial hslots start, rfl⟩

theorem Sound.step (h : r.Sound) {label : TimerLabel} (hroomy : r.roomy label = true)
    (hstep : r.step label = some next) : next.Sound :=
  ⟨h.held.step (entryStep h.held hroomy hstep), apart_next h.apart h.held hroomy hstep,
    pendingCounted_step h.held h.pending hstep⟩

theorem exec_sound (hslots : 0 < numSlots) {start : ℕ} {labels : List TimerLabel}
    (hroomy : Along TimerRun.step (fun r label => r.roomy label = true)
      (initial start : TimerRun numSlots slotMs) labels)
    (hexec : exec TimerRun.step (initial start) labels = some r) : r.Sound := by
  have hkeep : ∀ (r : TimerRun numSlots slotMs) label next, r.Sound → r.roomy label = true →
      r.step label = some next → next.Sound := fun _ _ _ h => h.step
  exact exec_invariant_along hkeep (sound_initial hslots start) hroomy hexec

/-- A handle in a slot belongs to a timer. -/
theorem Sound.holds (h : r.Sound) {slot : ℕ} (hslot : slot < numSlots) {handle : SlotHandle}
    (hmem : handle ∈ r.wheel.slots slot) : ∃ timer, r.wheel.Holds handle.index timer := by
  obtain ⟨hlt, hactive, -⟩ := h.apart.live slot hslot handle (mem_waiting_slots hmem)
  obtain ⟨timer, -, hcallback⟩ := h.held.owner handle.index hlt hactive
  exact ⟨timer, hlt, hactive, hcallback⟩

/-! ## When `tick` fires -/

/-- A call of `tick` takes the elapsed ticks, and then proceeds to the end. -/
theorem Ticked.proceeds {now : ℕ} (h : r.Ticked now next) :
    ∃ proceeds, exec TimerRun.step ⟨r.wheel.startTick now, .advancing (r.wheel.elapsedTicks now),
      r.history⟩ (List.replicate proceeds .proceed) = some next ∧ next.activity = .idle := by
  obtain ⟨proceeds, hexec, hidle⟩ := h
  obtain ⟨middle, hstep, hrest⟩ := (exec_cons).mp hexec
  cases hactivity : r.activity <;> simp only [TimerRun.step, hactivity] at hstep <;> cases hstep
  exact ⟨proceeds, hrest, hidle⟩

theorem proceed_history (hstep : r.step .proceed = some next) :
    next.history.cancelled = r.history.cancelled ∧ next.history.adds = r.history.adds := by
  unfold step at hstep
  dsimp only at hstep
  split at hstep
  · cases hstep
  · cases hstep
    exact ⟨rfl, rfl⟩
  · cases hstep
    exact ⟨rfl, rfl⟩
  · cases hstep
    exact ⟨rfl, rfl⟩
  · cases hstep
    unfold recordVisit
    dsimp only
    split <;> exact ⟨rfl, rfl⟩
  · cases hstep
    exact ⟨rfl, rfl⟩

/-- What holds while `tick` proceeds, of the calls of `advance_slot` until a timer is due. -/
structure Proceeding (r : TimerRun numSlots slotMs) (last : ℕ) (Due : ℕ → ℕ → Prop) : Prop where
  sound : r.Sound
  calls : r.history.advances + r.activity.left = last
  scheduled : r.Scheduled fun timer togo => Due timer (r.history.advances + togo)

variable {last : ℕ} {Due : ℕ → ℕ → Prop}

theorem Sound.handleStep (h : r.Sound) (hstep : r.step .proceed = some next) :
    HandleStep r next := by
  apply TimerRun.handleStep h.apart h.held rfl _ hstep
  intro hthrow
  cases hthrow

theorem Proceeding.step (h : r.Proceeding last Due) (hstep : r.step .proceed = some next) :
    next.Proceeding last Due := by
  have hmoves := h.sound.handleStep hstep
  have hadvances := (history_step hstep).2.1
  have hadds := (proceed_history hstep).2
  have hleft := (left_step trivial hstep).2
  have hcalls := h.calls
  refine ⟨h.sound.step rfl hstep, by omega, ?_⟩
  apply h.scheduled.step h.sound.apart h.sound.held hmoves
  · intro timer togo _ hdue
    rwa [show r.history.advances + (togo + (next.history.advances - r.history.advances)) =
      next.history.advances + togo by omega] at hdue
  · intro timeout id hrecord
    rw [hrecord] at hadds
    exact absurd hadds (Nat.succ_ne_self _)

theorem Sound.proceeding (h : r.Sound) (hidle : r.activity = .idle) (now : ℕ)
    (hdue : ∀ slot < numSlots, ∀ handle ∈ r.wheel.slots slot, ∀ timer,
      r.wheel.Holds handle.index timer → (r.wheel.entries handle.index).cancelled = false →
        Due timer (r.history.advances + r.wheel.togo slot handle)) :
    (⟨r.wheel.startTick now, .advancing (r.wheel.elapsedTicks now), r.history⟩ :
      TimerRun numSlots slotMs).Proceeding (r.history.advances + r.wheel.elapsedTicks now) Due := by
  have hstep : r.step (.tick now) =
      some ⟨r.wheel.startTick now, .advancing (r.wheel.elapsedTicks now), r.history⟩ := by
    unfold TimerRun.step
    dsimp only
    rw [hidle]
  refine ⟨h.step rfl hstep, rfl, ?_, ?_⟩
  · exact fun slot hslot handle hmem timer hholds hflag =>
      hdue slot hslot handle hmem timer hholds hflag
  · exact fun handle hmem => by cases hmem

/-- If no timer is due that soon, no callback is invoked. -/
theorem ticked_quiet (h : r.Sound) (hidle : r.activity = .idle) {now : ℕ}
    (hlate : ∀ slot < numSlots, ∀ handle ∈ r.wheel.slots slot,
      (r.wheel.entries handle.index).cancelled = false →
        r.wheel.elapsedTicks now < r.wheel.togo slot handle)
    (hticked : r.Ticked now next) : next.history.invoked = r.history.invoked := by
  obtain ⟨proceeds, hexec, -⟩ := hticked.proceeds
  have hstart : (⟨r.wheel.startTick now, .advancing (r.wheel.elapsedTicks now), r.history⟩ :
      TimerRun numSlots slotMs).Proceeding (r.history.advances + r.wheel.elapsedTicks now)
        (fun _ call => r.history.advances + r.wheel.elapsedTicks now < call) := by
    apply h.proceeding hidle now
    intro slot hslot handle hmem _ _ hflag
    exact Nat.add_lt_add_left (hlate slot hslot handle hmem hflag) _
  generalize r.history.advances + r.wheel.elapsedTicks now = last at hstart
  have hkeep : ∀ s s' : TimerRun numSlots slotMs,
      s.Proceeding last (fun _ call => last < call) ∧ s.history.invoked = r.history.invoked →
        s.step .proceed = some s' →
          s'.Proceeding last (fun _ call => last < call) ∧
            s'.history.invoked = r.history.invoked := by
    rintro s s' ⟨hproceeding, hsame⟩ hstep
    refine ⟨hproceeding.step hstep, ?_⟩
    rcases invoked_step hstep with hquiet | ⟨timer, handle, hmem, -, -, -, hholds, hflag, hzero⟩
    · rw [hquiet, hsame]
    · -- the call in which the timer is due is over before this one
      have hlater := hproceeding.scheduled.handles handle hmem timer hholds hflag
      have hcalls := hproceeding.calls
      rw [hzero] at hlater
      omega
  exact (exec_replicate_invariant hkeep ⟨hstart, rfl⟩ hexec).2

/-- A timer that is due that soon is invoked, or another one is. -/
theorem ticked_fires (h : r.Sound) (hidle : r.activity = .idle) {now slot : ℕ}
    (hslot : slot < numSlots) {handle : SlotHandle} (hmem : handle ∈ r.wheel.slots slot)
    (hflag : (r.wheel.entries handle.index).cancelled = false)
    (hsoon : r.wheel.togo slot handle ≤ r.wheel.elapsedTicks now)
    (hticked : r.Ticked now next) : next.history.invoked ≠ r.history.invoked := by
  obtain ⟨timer, hholds⟩ := h.holds hslot hmem
  obtain ⟨proceeds, hexec, hdone⟩ := hticked.proceeds
  have hstart : (⟨r.wheel.startTick now, .advancing (r.wheel.elapsedTicks now), r.history⟩ :
      TimerRun numSlots slotMs).Proceeding (r.history.advances + r.wheel.elapsedTicks now)
        (fun t call => t = timer → call = r.history.advances + r.wheel.togo slot handle) := by
    apply h.proceeding hidle now
    rintro a ha other hother t ht - rfl
    have hindex := h.held.single _ _ t ht hholds
    have hsame := h.apart.apart a ha slot hslot other (mem_waiting_slots hother) handle
      (mem_waiting_slots hmem) hindex
    unfold WheelTimer.togo
    rw [hsame, hindex]
  have hkeep : ∀ s s' : TimerRun numSlots slotMs,
      (s.Proceeding (r.history.advances + r.wheel.elapsedTicks now)
          (fun t call => t = timer → call = r.history.advances + r.wheel.togo slot handle) ∧
        (∀ index, s.wheel.Holds index timer → s.Tracked index) ∧
        s.history.cancelled = r.history.cancelled ∧ timer < s.history.adds) →
      s.step .proceed = some s' →
      s'.Proceeding (r.history.advances + r.wheel.elapsedTicks now)
          (fun t call => t = timer → call = r.history.advances + r.wheel.togo slot handle) ∧
        (∀ index, s'.wheel.Holds index timer → s'.Tracked index) ∧
        s'.history.cancelled = r.history.cancelled ∧ timer < s'.history.adds := by
    rintro s s' ⟨hproceeding, htracked, hcancelled, htimer⟩ hstep
    have hmoves := hproceeding.sound.handleStep hstep
    obtain ⟨hsame, hadds⟩ := proceed_history hstep
    refine ⟨hproceeding.step hstep, ?_, hsame.trans hcancelled, hadds ▸ htimer⟩
    exact fun index => tracked_step hproceeding.sound.apart hmoves (htracked index)
  have hfound (index : ℕ) (hindex : r.wheel.Holds index timer) :
      (⟨r.wheel.startTick now, .advancing (r.wheel.elapsedTicks now), r.history⟩ :
        TimerRun numSlots slotMs).Tracked index := by
    refine ⟨slot, hslot, handle, mem_waiting_slots hmem, ?_⟩
    exact h.held.single _ _ timer hholds hindex
  obtain ⟨hproceeding, htracked, hcancelled, htimer⟩ :=
    exec_replicate_invariant hkeep ⟨hstart, hfound, rfl, h.held.lt_adds hholds⟩ hexec
  have hmarked : some timer ∉ r.history.cancelled.map (·.2) := by
    rw [← h.held.marked _ timer hholds, hflag]
    exact Bool.false_ne_true
  intro hquiet
  -- the timer would still be waiting, in a slot that has been passed
  have hpending : next.history.Pending timer := by
    refine ⟨htimer, ?_, ?_⟩
    · rw [hquiet]
      exact h.held.not_invoked hholds
    · intro hreleased
      have hlost := (hproceeding.sound.held.released timer hreleased).2.1
      rw [hcancelled] at hlost
      exact hmarked hlost
  obtain ⟨index, hindex⟩ := hproceeding.sound.held.pending timer hpending
  obtain ⟨a, ha, other, hother, rfl⟩ := htracked index hindex
  have hcleared : (next.wheel.entries other.index).cancelled = false := by
    rw [← Bool.not_eq_true, hproceeding.sound.held.marked _ timer hindex, hcancelled]
    exact hmarked
  unfold waiting at hother
  rw [hdone] at hother
  have hresting : other ∈ next.wheel.slots a := by
    simpa [Activity.handles] using hother
  have hwhen := hproceeding.scheduled.slots a ha other hresting timer hindex hcleared rfl
  have hcalls := hproceeding.calls
  rw [hdone] at hcalls
  simp only [Activity.left] at hcalls
  unfold distance at hwhen
  omega

/-- `tick` fires if some timer is due that soon that has not been cancelled. -/
theorem firesAt_iff (h : r.Sound) (hidle : r.activity = .idle) (now : ℕ) :
    r.FiresAt now ↔ ∃ slot < numSlots, ∃ handle ∈ r.wheel.slots slot,
      (r.wheel.entries handle.index).cancelled = false ∧
        r.wheel.togo slot handle ≤ r.wheel.elapsedTicks now := by
  have hticked : r.Ticked now (r.tick now) := (ticked_iff now hidle).mpr rfl
  constructor
  · rintro ⟨next, hnext, hfired⟩
    by_contra hnone
    apply hfired
    apply ticked_quiet h hidle _ hnext
    intro slot hslot handle hmem hflag
    by_contra hsoon
    exact hnone ⟨slot, hslot, handle, hmem, hflag, Nat.le_of_not_lt hsoon⟩
  · rintro ⟨slot, hslot, handle, hmem, hflag, hsoon⟩
    exact ⟨_, hticked, ticked_fires h hidle hslot hmem hflag hsoon hticked⟩

/-! ## The time that is returned -/

theorem mem_liveHandles (h : r.Sound) (slot : ℕ) (handle : SlotHandle) :
    (slot, handle) ∈ r.wheel.liveHandles ↔ slot < numSlots ∧ handle ∈ r.wheel.slots slot := by
  unfold WheelTimer.liveHandles
  simp only [List.mem_flatMap, List.mem_range, List.mem_map, List.mem_filter, Prod.mk.injEq]
  constructor
  · rintro ⟨_, hslot, _, ⟨hmem, -⟩, rfl, rfl⟩
    exact ⟨hslot, hmem⟩
  · rintro ⟨hslot, hmem⟩
    obtain ⟨hlt, hactive, hgeneration⟩ := h.apart.live slot hslot handle (mem_waiting_slots hmem)
    refine ⟨slot, hslot, handle, ⟨hmem, ?_⟩, rfl, rfl⟩
    simp [WheelTimer.live, hlt, hactive, hgeneration]

theorem pendingEntries_ne_zero (h : r.Sound) {slot : ℕ} (hslot : slot < numSlots)
    {handle : SlotHandle} (hmem : handle ∈ r.wheel.slots slot) : r.wheel.pendingEntries ≠ 0 := by
  obtain ⟨timer, hlt, hactive, -⟩ := h.holds hslot hmem
  have hfree := freeList_length_lt h.held hlt hactive
  have hcount : r.wheel.freeList.length + r.wheel.pendingEntries = r.wheel.entriesSize := h.pending
  omega

section

variable {w : WheelTimer numSlots slotMs} {now : ℕ}

theorem candidate_eq_some {slot : ℕ} {handle : SlotHandle} {c : ℤ}
    (hcandidate : w.candidate now slot handle = some c) :
    c = w.base now + toInt64 (w.totalTicks slot handle) * slotMs ∧ c ≤ DURATION_MAX := by
  unfold WheelTimer.candidate checked at hcandidate
  obtain ⟨ahead, hahead, hsum⟩ := Option.bind_eq_some_iff.mp hcandidate
  simp only [Option.ite_none_right_eq_some, Option.some.injEq] at hahead hsum
  obtain ⟨-, rfl⟩ := hahead
  obtain ⟨hfits, rfl⟩ := hsum
  exact ⟨rfl, hfits.2⟩

theorem candidate_of_fits {slot : ℕ} {handle : SlotHandle} (hbase : 0 ≤ w.base now)
    (hticks : 0 ≤ toInt64 (w.totalTicks slot handle))
    (hfits : w.base now + toInt64 (w.totalTicks slot handle) * slotMs ≤ DURATION_MAX) :
    w.candidate now slot handle =
      some (w.base now + toInt64 (w.totalTicks slot handle) * slotMs) := by
  have hahead : 0 ≤ toInt64 (w.totalTicks slot handle) * (slotMs : ℤ) :=
    mul_nonneg hticks (Int.natCast_nonneg _)
  unfold WheelTimer.candidate checked
  rw [if_pos ⟨by omega, by omega⟩, Option.bind_some, if_pos ⟨by omega, hfits⟩]

theorem base_eq (hpositive : 1 ≤ slotMs) (hlt : now < w.lastTick + tickNanos slotMs) :
    w.base now + ((now - w.lastTick) / 1000000 : ℕ) = slotMs ∧
      (now - w.lastTick) / 1000000 < slotMs := by
  have hshort : (now - w.lastTick) / 1000000 < slotMs := by
    rw [Nat.div_lt_iff_lt_mul (by decide)]
    unfold tickNanos at hlt
    omega
  have hsince : (if w.lastTick < now then (now - w.lastTick) / 1000000 else 0) =
      (now - w.lastTick) / 1000000 := by
    split <;> omega
  refine ⟨?_, hshort⟩
  unfold WheelTimer.base
  rw [hsince]
  dsimp only
  omega

theorem elapsedTicks_wait (hle : w.lastTick ≤ now) (wait : ℕ) :
    w.elapsedTicks (now + wait * 1000000) =
      ((now - w.lastTick) / 1000000 + wait) / slotMs := by
  rw [elapsedTicks_eq, ← Nat.div_div_eq_div_mul, Nat.sub_add_comm hle,
    Nat.add_mul_div_right _ _ (by decide)]

end

/-- The time that is returned is exact if and only if the least number of ticks that is
counted for a handle is one less than the ticks to go. -/
theorem wakesOnTime_iff_foreseen (h : r.Sound) (hidle : r.activity = .idle)
    (hpositive : 1 ≤ slotMs) {now : ℕ} (hle : r.wheel.lastTick ≤ now)
    (hlt : now < r.wheel.lastTick + tickNanos slotMs) :
    r.WakesOnTime now ↔ r.wheel.Foreseen now := by
  obtain ⟨hbase, hshort⟩ := base_eq hpositive hlt
  have hfires (wait : ℕ) : r.FiresAt (now + wait * 1000000) ↔
      ∃ slot < numSlots, ∃ handle ∈ r.wheel.slots slot,
        (r.wheel.entries handle.index).cancelled = false ∧
          r.wheel.togo slot handle * slotMs ≤ (now - r.wheel.lastTick) / 1000000 + wait := by
    rw [firesAt_iff h hidle, elapsedTicks_wait hle]
    simp only [Nat.le_div_iff_mul_le hpositive]
  generalize (now - r.wheel.lastTick) / 1000000 = since at hbase hshort hfires
  have htogo_pos (slot : ℕ) (handle : SlotHandle) : 1 ≤ r.wheel.togo slot handle := by
    unfold WheelTimer.togo distance
    omega
  have hpos : (0 : ℤ) < slotMs := by omega
  constructor
  · rintro ⟨wait, hreturned, hfired, hearlier⟩
    obtain ⟨slot, hslot, handle, hmem, hflag, hsoon⟩ := (hfires wait).mp hfired
    have hfirst := Nat.mul_le_mul_right slotMs (htogo_pos slot handle)
    have hothers (a : ℕ) (ha : a < numSlots) (other : SlotHandle) (hother : other ∈ r.wheel.slots a)
        (hflag : (r.wheel.entries other.index).cancelled = false) :
        since + wait ≤ r.wheel.togo a other * slotMs := by
      by_contra hbefore
      apply hearlier (wait - 1) (by omega)
      exact (hfires (wait - 1)).mpr ⟨a, ha, other, hother, hflag, by omega⟩
    have hwait : r.wheel.togo slot handle * slotMs = since + wait :=
      le_antisymm hsoon (hothers slot hslot handle hmem hflag)
    unfold WheelTimer.timeUntilNextExpiration at hreturned
    rw [if_neg (pendingEntries_ne_zero h hslot hmem), leastCost_eq_some_iff] at hreturned
    obtain ⟨hall, -, hwhich⟩ := hreturned
    have hcost (a : ℕ) (ha : a < numSlots) (other : SlotHandle) (hother : other ∈ r.wheel.slots a) :
        r.wheel.base now + toInt64 (r.wheel.totalTicks a other) * slotMs ≤ DURATION_MAX ∧
          (wait : ℤ) ≤ r.wheel.base now + toInt64 (r.wheel.totalTicks a other) * slotMs := by
      obtain ⟨c, hcandidate, hle⟩ := hall (a, other) ((mem_liveHandles h a other).mpr ⟨ha, hother⟩)
      obtain ⟨rfl, hfits⟩ := candidate_eq_some hcandidate
      exact ⟨hfits, hle⟩
    refine ⟨r.wheel.togo slot handle, ⟨slot, hslot, handle, hmem, hflag, rfl⟩, ?_, ?_, ?_⟩
    · intro a ha other hother hflag
      apply Nat.le_of_mul_le_mul_right _ hpositive
      rw [hwait]
      exact hothers a ha other hother hflag
    · have hattained : ∃ a < numSlots, ∃ other ∈ r.wheel.slots a,
          (wait : ℤ) = r.wheel.base now + toInt64 (r.wheel.totalTicks a other) * slotMs := by
        rcases hwhich with hmax | ⟨⟨a, other⟩, hlive, hcandidate⟩
        · obtain ⟨hfits, hle⟩ := hcost slot hslot handle hmem
          exact ⟨slot, hslot, handle, hmem, le_antisymm hle (hmax ▸ hfits)⟩
        · obtain ⟨ha, hother⟩ := (mem_liveHandles h a other).mp hlive
          exact ⟨a, ha, other, hother, (candidate_eq_some hcandidate).1⟩
      obtain ⟨a, ha, other, hother, hequal⟩ := hattained
      refine ⟨a, ha, other, hother, ?_⟩
      apply mul_right_cancel₀ hpos.ne'
      rw [add_one_mul]
      have hcast : ((r.wheel.togo slot handle : ℕ) : ℤ) * slotMs = since + wait := by
        exact_mod_cast hwait
      linarith
    · intro a ha other hother
      obtain ⟨hfits, hle⟩ := hcost a ha other hother
      refine ⟨?_, hfits⟩
      apply le_of_mul_le_mul_right _ hpos
      rw [add_one_mul]
      have hcast : ((r.wheel.togo slot handle : ℕ) : ℤ) * slotMs = since + wait := by
        exact_mod_cast hwait
      linarith
  · rintro ⟨ticks, ⟨slot, hslot, handle, hmem, hflag, htogo⟩, hleast, ⟨a, ha, other, hother, hcounted⟩,
      hall⟩
    have hticks : 1 ≤ ticks := htogo ▸ htogo_pos slot handle
    have hpast : since ≤ ticks * slotMs :=
      hshort.le.trans (Nat.le_mul_of_pos_left slotMs hticks)
    have hcost (b : ℕ) (hb : b < numSlots) (any : SlotHandle) (hany : any ∈ r.wheel.slots b) :
        r.wheel.candidate now b any =
          some (r.wheel.base now + toInt64 (r.wheel.totalTicks b any) * slotMs) := by
      obtain ⟨hle, hfits⟩ := hall b hb any hany
      exact candidate_of_fits (by linarith) (by linarith) hfits
    have hwait : ((ticks * slotMs - since : ℕ) : ℤ) =
        r.wheel.base now + toInt64 (r.wheel.totalTicks a other) * slotMs := by
      have hmul : (ticks : ℤ) * slotMs =
          toInt64 (r.wheel.totalTicks a other) * slotMs + slotMs := by
        rw [← hcounted, add_one_mul]
      rw [Nat.cast_sub hpast, Nat.cast_mul]
      linarith
    refine ⟨ticks * slotMs - since, ?_, ?_, ?_⟩
    · unfold WheelTimer.timeUntilNextExpiration
      rw [if_neg (pendingEntries_ne_zero h hslot hmem), leastCost_eq_some_iff, hwait]
      refine ⟨?_, (hall a ha other hother).2,
        .inr ⟨(a, other), (mem_liveHandles h a other).mpr ⟨ha, hother⟩, hcost a ha other hother⟩⟩
      rintro ⟨b, any⟩ hlive
      obtain ⟨hb, hany⟩ := (mem_liveHandles h b any).mp hlive
      refine ⟨_, hcost b hb any hany, ?_⟩
      have hle := (hall b hb any hany).1
      rw [← hcounted] at hle
      have hmul := mul_le_mul_of_nonneg_right (le_of_add_le_add_right hle) hpos.le
      linarith
    · exact (hfires _).mpr ⟨slot, hslot, handle, hmem, hflag, by
        rw [htogo, Nat.add_sub_cancel' hpast]⟩
    · intro earlier hearlier hfired
      obtain ⟨b, hb, any, hany, hflag, hsoon⟩ := (hfires earlier).mp hfired
      have hmul := Nat.mul_le_mul_right slotMs (hleast b hb any hany hflag)
      omega

/-- The same in every run in which every timer finds an entry. -/
theorem exec_wakesOnTime_iff (hslots : 0 < numSlots) (hpositive : 1 ≤ slotMs) {start : ℕ}
    {labels : List TimerLabel}
    (hroomy : Along step (fun r label => r.roomy label = true)
      (initial start : TimerRun numSlots slotMs) labels)
    (hexec : exec step (initial start) labels = some r) (hidle : r.activity = .idle) {now : ℕ}
    (hle : r.wheel.lastTick ≤ now) (hlt : now < r.wheel.lastTick + tickNanos slotMs) :
    r.WakesOnTime now ↔ r.wheel.Foreseen now :=
  wakesOnTime_iff_foreseen (exec_sound hslots hroomy hexec) hidle hpositive hle hlt

deriving instance DecidableEq for Activity

/-- A timer of two ticks, and a cancelled one of one tick. -/
def foreseenRun : List TimerLabel :=
  [.add 100, .add 200, .cancel (makeId ⟨0, 1⟩)]

theorem exec_wakesOnTime_iff_foreseen :
    ∃ r : TimerRun 4 100, exec step (initial 0) foreseenRun = some r ∧
      r.wheel.timeUntilNextExpiration 0 = some 200 ∧ r.WakesOnTime 0 := by
  have hlast : ((exec step (initial 0 : TimerRun 4 100) foreseenRun).any fun r =>
      r.activity = .idle ∧ r.wheel.lastTick = 0 ∧ r.wheel.timeUntilNextExpiration 0 = some 200 ∧
        r.wheel.ForeseenAfter 2 0) = true := by
    decide +kernel
  cases hexec : exec step (initial 0 : TimerRun 4 100) foreseenRun with
  | none =>
      rw [hexec] at hlast
      cases hlast
  | some r =>
      rw [hexec] at hlast
      obtain ⟨hidle, hstart, hwait, hforeseen⟩ := of_decide_eq_true hlast
      refine ⟨r, rfl, hwait, ?_⟩
      apply (exec_wakesOnTime_iff (by decide) (by decide) (by decide +kernel) hexec hidle
        hstart.le _).mpr
      · exact ⟨2, hforeseen⟩
      · rw [hstart]
        decide

/-- A timer of one tick fires after 100 ms, but 200 ms are returned. -/
theorem oneTick_oversleeps :
    ∃ r : TimerRun 512 100, exec step (initial 0) [.add 100] = some r ∧ r.activity = .idle ∧
      r.wheel.timeUntilNextExpiration 0 = some 200 ∧ r.FiresAt 100000000 ∧ ¬ r.WakesOnTime 0 := by
  have hlast : ((exec step (initial 0 : TimerRun 512 100) [.add 100]).any fun r =>
      r.activity = .idle ∧ r.wheel.timeUntilNextExpiration 0 = some 200 ∧
        (r.tick 100000000).history.invoked ≠ r.history.invoked) = true := by
    decide +kernel
  cases hexec : exec step (initial 0 : TimerRun 512 100) [.add 100] with
  | none =>
      rw [hexec] at hlast
      cases hlast
  | some r =>
      rw [hexec] at hlast
      obtain ⟨hidle, hwait, hinvoked⟩ := of_decide_eq_true hlast
      have hfires : r.FiresAt 100000000 := ⟨_, (ticked_iff _ hidle).mpr rfl, hinvoked⟩
      refine ⟨r, rfl, hidle, hwait, hfires, ?_⟩
      rintro ⟨wait, hreturned, -, hearlier⟩
      rw [hwait, Option.some.injEq] at hreturned
      exact hearlier 100 (by omega) hfires

end TimerRun

end Timer
end Katana
