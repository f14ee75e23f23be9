import Katana.Timer.ArmedTimers
import Katana.Timer.NextExpiration

/-!
# Entries in use

`pending_entries_` counts the timers that have been added and are neither invoked nor
released; a timer that was cancelled counts until its slot is compacted.  The vector of
entries only grows when all of them are in use, so its size is the largest number of timers
that there have been at one time.
-/

namespace Katana
namespace Timer

open Library

variable {numSlots slotMs : ℕ}

namespace TimerRun

variable {r next : TimerRun numSlots slotMs}

/-- Every entry is in use or in the free list, and every timer that has been added is in use
or was invoked or released. -/
structure Counted (r : TimerRun numSlots slotMs) : Prop where
  entries : PendingCounted r.wheel
  timers : r.wheel.pendingEntries + r.history.invoked.length + r.history.released.length =
    r.history.adds

theorem counted_initial (now : ℕ) : (initial now : TimerRun numSlots slotMs).Counted := by
  constructor <;> rfl

theorem pendingEntries_add {w : WheelTimer numSlots slotMs} {timeout : Int64}
    {callback : Option ℕ} {result : ℕ × WheelTimer numSlots slotMs}
    (hadd : w.add timeout callback = some result) :
    result.2.pendingEntries = w.pendingEntries + 1 := by
  unfold WheelTimer.add at hadd
  split at hadd
  · cases hadd
  · cases hadd
    unfold WheelTimer.acquireEntry
    cases w.freeList <;> rfl

/-- What `advance_slot` does with a handle, in numbers. -/
theorem Counted.visited (h : r.Counted) (hheld : Held r.wheel r.history) (handle : SlotHandle)
    (compact : Bool) :
    (r.wheel.visited handle compact).pendingEntries +
          (recordVisit handle compact r.wheel r.history).invoked.length +
        (recordVisit handle compact r.wheel r.history).released.length = r.history.adds := by
  have hentries : r.wheel.freeList.length + r.wheel.pendingEntries = r.wheel.entriesSize :=
    h.entries
  have htimers := h.timers
  have hused : r.wheel.visit handle compact ≠ .stale →
      r.wheel.freeList.length < r.wheel.entriesSize := by
    intro hvisit
    have hlive := visit_live hvisit
    exact freeList_length_lt hheld hlive.1 hlive.2.1
  unfold WheelTimer.visited recordVisit
  cases hvisit : r.wheel.visit handle compact with
  | stale => exact htimers
  | release =>
      have hlt := hused (by rw [hvisit]; decide)
      simp only [WheelTimer.releaseEntry, List.length_cons]
      omega
  | keep => exact htimers
  | count => exact htimers
  | fire =>
      have hlt := hused (by rw [hvisit]; decide)
      have hlive := visit_live (by rw [hvisit]; decide : r.wheel.visit handle compact ≠ .stale)
      rcases hheld.owner handle.index hlive.1 hlive.2.1 with ⟨timer, -, hcallback⟩
      simp only [hcallback, WheelTimer.releaseEntry, List.length_append, List.length_cons,
        List.length_nil]
      omega

theorem Counted.step (h : r.Counted) (hheld : Held r.wheel r.history) {label : TimerLabel}
    (hstep : r.step label = some next) : next.Counted := by
  refine ⟨pendingCounted_step hheld h.entries hstep, ?_⟩
  cases label with
  | add timeout =>
      simp only [TimerRun.step] at hstep
      split at hstep
      next =>
        rw [Option.map_eq_some_iff] at hstep
        rcases hstep with ⟨result, hadd, rfl⟩
        have htimers := h.timers
        simp only [recordAdd, pendingEntries_add hadd]
        omega
      next => cases hstep
  | cancel id =>
      simp only [TimerRun.step] at hstep
      split at hstep <;> cases hstep
      have hwheel : (r.wheel.cancel id).2.pendingEntries = r.wheel.pendingEntries := by
        unfold WheelTimer.cancel
        dsimp only
        split_ifs <;> rfl
      have hhistory : (recordCancel id r.wheel r.history).invoked = r.history.invoked ∧
          (recordCancel id r.wheel r.history).released = r.history.released := by
        unfold recordCancel
        split <;> exact ⟨rfl, rfl⟩
      rw [hwheel, hhistory.1, hhistory.2, recordCancel_adds]
      exact h.timers
  | tick now =>
      simp only [TimerRun.step] at hstep
      split at hstep <;> cases hstep
      exact h.timers
  | throw =>
      simp only [TimerRun.step] at hstep
      split at hstep <;> cases hstep
      exact h.timers
  | proceed =>
      simp only [TimerRun.step] at hstep
      split at hstep <;> cases hstep
      next => exact h.timers
      next =>
        have hwheel : r.wheel.startSlot.pendingEntries = r.wheel.pendingEntries := by
          unfold WheelTimer.startSlot
          split <;> rfl
        rw [hwheel]
        exact h.timers
      next => exact h.timers
      next handle rest compact _ =>
        dsimp only
        rw [adds_visited]
        exact h.visited hheld handle compact
      next => exact h.timers

/-! ## Runs -/

/-- Ids that are not used up at the end of a run were not before. -/
theorem Spaced.of_exec (h : next.Spaced) {labels : List TimerLabel}
    (hexec : exec step r labels = some next) : r.Spaced := by
  induction labels generalizing r with
  | nil =>
      cases hexec
      exact h
  | cons label rest ih =>
      rcases exec_cons.mp hexec with ⟨middle, hstep, hrest⟩
      exact ((ih hrest).of_step hstep).1

theorem Counted.exec (h : r.Counted) (hheld : Held r.wheel r.history) {labels : List TimerLabel}
    (hexec : exec TimerRun.step r labels = some next) (hspaced : next.Spaced) :
    next.Counted ∧ Held next.wheel next.history := by
  induction labels generalizing r with
  | nil =>
      cases hexec
      exact ⟨h, hheld⟩
  | cons label rest ih =>
      rcases exec_cons.mp hexec with ⟨middle, hstep, hrest⟩
      have hroomy := ((hspaced.of_exec hrest).of_step hstep).2
      exact ih (h.step hheld hstep) (hheld.step (entryStep hheld hroomy hstep)) hrest

/-- A step that makes the vector of entries longer leaves all of them in use. -/
theorem grows_step (h : r.Counted) {label : TimerLabel} (hstep : r.step label = some next) :
    next.wheel.entriesSize = r.wheel.entriesSize ∨
      r.wheel.entriesSize ≤ next.wheel.entriesSize ∧
        next.wheel.pendingEntries = next.wheel.entriesSize := by
  cases label with
  | add timeout =>
      simp only [step] at hstep
      split at hstep
      next =>
        rw [Option.map_eq_some_iff] at hstep
        rcases hstep with ⟨result, hadd, rfl⟩
        have hsize := entriesSize_add hadd
        have hpending := pendingEntries_add hadd
        have hentries : r.wheel.freeList.length + r.wheel.pendingEntries = r.wheel.entriesSize :=
          h.entries
        split at hsize
        next hfree =>
          right
          rw [hfree, List.length_nil] at hentries
          constructor
          · dsimp only
            omega
          · dsimp only
            omega
        next => exact .inl hsize
      next => cases hstep
  | cancel id =>
      simp only [step] at hstep
      split at hstep <;> cases hstep
      exact .inl (cancel_entriesSize id r.wheel)
  | tick now =>
      simp only [step] at hstep
      split at hstep <;> cases hstep
      exact .inl rfl
  | throw =>
      simp only [step] at hstep
      split at hstep <;> cases hstep
      exact .inl rfl
  | proceed =>
      simp only [step] at hstep
      split at hstep <;> cases hstep
      next => exact .inl rfl
      next => exact .inl (startSlot_entriesSize r.wheel)
      next => exact .inl rfl
      next handle rest compact _ => exact .inl (entriesSize_visited r.wheel handle compact)
      next => exact .inl rfl

/-- The size of the vector of entries at the end of a run is that at its beginning, or the
number of entries that were in use at some time. -/
theorem exec_peak {labels : List TimerLabel} (h : r.Counted)
    (hheld : Held r.wheel r.history) (hexec : exec step r labels = some next)
    (hspaced : next.Spaced) : r.wheel.entriesSize ≤ next.wheel.entriesSize ∧
      (next.wheel.entriesSize = r.wheel.entriesSize ∨
        ∃ first rest middle, labels = first ++ rest ∧ exec step r first = some middle ∧
          middle.wheel.pendingEntries = next.wheel.entriesSize) := by
  induction labels generalizing r with
  | nil =>
      cases hexec
      exact ⟨le_rfl, .inl rfl⟩
  | cons label rest ih =>
      rcases exec_cons.mp hexec with ⟨middle, hstep, hrest⟩
      have hroomy := ((hspaced.of_exec hrest).of_step hstep).2
      have hgrows := grows_step h hstep
      rcases ih (h.step hheld hstep) (hheld.step (entryStep hheld hroomy hstep)) hrest with
        ⟨hle, hsame | ⟨first, behind, later, hsplit, hfirst, hpeak⟩⟩
      · rcases hgrows with hkept | ⟨hmore, hfull⟩
        · exact ⟨hkept ▸ hle, .inl (hsame.trans hkept)⟩
        · refine ⟨hmore.trans hle, .inr ⟨[label], rest, middle, rfl, ?_, ?_⟩⟩
          · exact exec_cons.mpr ⟨middle, hstep, rfl⟩
          · rw [hfull, hsame]
      · refine ⟨?_, .inr ⟨label :: first, behind, later, ?_, ?_, hpeak⟩⟩
        · rcases hgrows with hkept | ⟨hmore, -⟩
          · exact hkept ▸ hle
          · exact hmore.trans hle
        · rw [hsplit, List.cons_append]
        · exact exec_cons.mpr ⟨middle, hstep, hfirst⟩

/-- Timers in use behind the steps. -/
def inUse (numSlots slotMs now : ℕ) (labels : List TimerLabel) : Option ℕ :=
  (exec step (initial now : TimerRun numSlots slotMs) labels).map (·.wheel.pendingEntries)

/-- In every run in which ids are not used up, each timer that was added is in use, or was
invoked or released once, and the vector of entries is as long as the largest number of
timers that were in use at one time. -/
theorem exec_occupancy {now : ℕ} {labels : List TimerLabel} {final : TimerRun numSlots slotMs}
    (hexec : exec step (initial now) labels = some final) (hspaced : final.Spaced) :
    final.wheel.pendingEntries + final.history.invoked.length + final.history.released.length =
        final.history.adds ∧
      IsGreatest {n | ∃ first, first <+: labels ∧ inUse numSlots slotMs now first = some n}
        final.wheel.entriesSize := by
  have hstart : Held (initial now : TimerRun numSlots slotMs).wheel {} := held_initial now
  constructor
  · exact ((counted_initial now).exec hstart hexec hspaced).1.timers
  constructor
  · rcases exec_peak (counted_initial now) hstart hexec hspaced with
      ⟨-, hempty | ⟨first, rest, middle, hsplit, hfirst, hpeak⟩⟩
    · refine ⟨[], List.nil_prefix, ?_⟩
      rw [hempty]
      rfl
    · refine ⟨first, ⟨rest, hsplit.symm⟩, ?_⟩
      rw [inUse, hfirst, Option.map_some, hpeak]
  · intro n hn
    rcases hn with ⟨first, ⟨rest, hsplit⟩, hn⟩
    subst hsplit
    rcases exec_append.mp hexec with ⟨middle, hfirst, hrest⟩
    rw [inUse, hfirst, Option.map_some, Option.some.injEq] at hn
    rcases (counted_initial now).exec hstart hfirst (hspaced.of_exec hrest) with
      ⟨hcounted, hheld⟩
    have hentries : middle.wheel.freeList.length + middle.wheel.pendingEntries =
        middle.wheel.entriesSize := hcounted.entries
    have hle := (exec_peak hcounted hheld hrest hspaced).1
    omega

/-- The first of three timers is invoked before the last is added. -/
def reusingRun : List TimerLabel :=
  [.add 8, .add 16, .cancel (makeId ⟨1, 1⟩), .tick 8000000, .proceed, .proceed, .proceed, .proceed,
    .proceed, .add 8]

theorem exec_occupancy_reusingRun : IsGreatest
    {n | ∃ first, first <+: reusingRun ∧ inUse 4 8 0 first = some n} 2 := by
  have hlast : ((exec step (initial 0 : TimerRun 4 8) reusingRun).any fun final =>
      final.wheel.entriesSize = 2 && final.history.adds < 10) = true := by
    decide +kernel
  cases hexec : exec step (initial 0 : TimerRun 4 8) reusingRun with
  | none =>
      rw [hexec] at hlast
      cases hlast
  | some final =>
      rw [hexec] at hlast
      simp only [Option.any_some, Bool.and_eq_true, decide_eq_true_eq] at hlast
      have hspaced := spaced_of_adds hexec (hlast.2.trans (by decide))
      have hpeak := (exec_occupancy hexec hspaced).2
      rwa [hlast.1] at hpeak

end TimerRun

end Timer
end Katana
