import Katana.Timer.WheelHandles

/-!
# Deadlines of the wheel timer

A timer whose timeout is so many ticks fires in the call of `advance_slot` with
that number after it was added, if the number is not a multiple of the size of
the wheel; otherwise it fires one revolution late.
-/

namespace Katana
namespace Timer

open Library

variable {numSlots slotMs : ℕ}

/-! ## Ticks of a timeout -/

/-- The timeout in ticks, rounded up, and at least one. -/
def dueTicks (slotMs : ℕ) (timeout : Int64) : ℕ :=
  max 1 ((max timeout.toInt 1).toNat ⌈/⌉ slotMs)

theorem ticks_eq (hpositive : 1 ≤ slotMs) (hword : slotMs < SIZE_WORD) (timeout : Int64) :
    WheelTimer.ticks slotMs timeout = dueTicks slotMs timeout := by
  have hlt := timeout.toInt_lt
  unfold SIZE_WORD at hword
  have hcount : (if timeout.toInt ≤ 0 then 1 else timeout.toInt.toNat) =
      (max timeout.toInt 1).toNat := by
    split <;> omega
  unfold WheelTimer.ticks dueTicks SIZE_WORD
  dsimp only
  rw [hcount, Nat.ceilDiv_eq_add_pred_div]
  have hsmall : (max timeout.toInt 1).toNat < 2 ^ 63 := by omega
  have hone : 1 ≤ (max timeout.toInt 1).toNat := by omega
  generalize (max timeout.toInt 1).toNat = count at hsmall hone ⊢
  have hpos : 0 < (count + slotMs - 1) / slotMs :=
    Nat.div_pos (by omega) (by omega)
  by_cases hwraps : count + slotMs - 1 < 2 ^ 64
  · rw [Nat.mod_eq_of_lt hwraps, if_neg hpos.ne']
    omega
  · -- the sum wraps only for one tick
    have hmod : (count + slotMs - 1) % 2 ^ 64 = count + slotMs - 1 - 2 ^ 64 := by omega
    have hzero : (count + slotMs - 1 - 2 ^ 64) / slotMs = 0 := Nat.div_eq_of_lt (by omega)
    have hone : (count + slotMs - 1) / slotMs = 1 :=
      Nat.div_eq_of_lt_le (by omega) (by omega)
    rw [hmod, hzero, hone]
    rfl

theorem dueTicks_pos (slotMs : ℕ) (timeout : Int64) : 1 ≤ dueTicks slotMs timeout :=
  le_max_left ..

/-- The call of `advance_slot` in which the timer should fire. -/
def TimerHistory.due (slotMs : ℕ) (h : TimerHistory) (timer : ℕ) : ℕ :=
  (h.added timer).1 + dueTicks slotMs (h.added timer).2

/-- The call of `advance_slot` in which it does. -/
def TimerHistory.fires (numSlots slotMs : ℕ) (h : TimerHistory) (timer : ℕ) : ℕ :=
  h.due slotMs timer +
    if numSlots ∣ dueTicks slotMs (h.added timer).2 then numSlots else 0

/-! ## Handles -/

/-- Every entry in use has one handle, in one slot. -/
structure Placed (w : WheelTimer numSlots slotMs) (waiting : ℕ → List SlotHandle) : Prop where
  live : ∀ slot < numSlots, ∀ handle ∈ waiting slot, handle.index < w.entriesSize ∧
    (w.entries handle.index).active = true ∧
      (w.entries handle.index).generation = handle.generation
  once : ∀ slot < numSlots, ((waiting slot).map (·.index)).Nodup
  apart : ∀ a < numSlots, ∀ b < numSlots, ∀ handle ∈ waiting a, ∀ other ∈ waiting b,
    handle.index = other.index → a = b
  found : ∀ index timer, w.Holds index timer →
    ∃ slot < numSlots, ∃ handle ∈ waiting slot, handle.index = index

namespace TimerRun

/-- Every timer that has not been cancelled stands where it will fire in time. -/
structure Timely (r : TimerRun numSlots slotMs) : Prop where
  current : r.wheel.currentSlot < numSlots
  placed : Placed r.wheel r.waiting
  slots : ∀ slot < numSlots, ∀ handle ∈ r.wheel.slots slot, ∀ timer,
    r.wheel.Holds handle.index timer → (r.wheel.entries handle.index).cancelled = false →
      r.history.advances + distance numSlots r.wheel.currentSlot slot +
        (r.wheel.entries handle.index).remainingRounds * numSlots =
          r.history.fires numSlots slotMs timer
  handles : ∀ handle ∈ r.activity.handles, ∀ timer,
    r.wheel.Holds handle.index timer → (r.wheel.entries handle.index).cancelled = false →
      r.history.advances + (r.wheel.entries handle.index).remainingRounds * numSlots =
        r.history.fires numSlots slotMs timer
  invoked : ∀ e ∈ r.history.invoked,
    e.2 = r.history.fires numSlots slotMs e.1 ∧ e.2 ≤ r.history.advances

variable {r next : TimerRun numSlots slotMs}

theorem Timely.apart (h : r.Timely) : r.Apart :=
  ⟨h.current, h.placed.live, h.placed.once, h.placed.apart⟩

theorem Timely.scheduled (h : r.Timely) : r.Scheduled fun timer togo =>
    r.history.advances + togo = r.history.fires numSlots slotMs timer := by
  constructor
  · intro slot hslot handle hmem timer hholds hflag
    rw [← Nat.add_assoc]
    exact h.slots slot hslot handle hmem timer hholds hflag
  · exact h.handles

theorem timely_of_scheduled (hapart : r.Apart)
    (hfound : ∀ index timer, r.wheel.Holds index timer → r.Tracked index)
    (hscheduled : r.Scheduled fun timer togo =>
      r.history.advances + togo = r.history.fires numSlots slotMs timer)
    (hinvoked : ∀ e ∈ r.history.invoked,
      e.2 = r.history.fires numSlots slotMs e.1 ∧ e.2 ≤ r.history.advances) : r.Timely := by
  constructor
  · exact hapart.current
  · exact ⟨hapart.live, hapart.once, hapart.apart, hfound⟩
  · intro slot hslot handle hmem timer hholds hflag
    rw [Nat.add_assoc]
    exact hscheduled.slots slot hslot handle hmem timer hholds hflag
  · exact hscheduled.handles
  · exact hinvoked

theorem timely_initial (hslots : 0 < numSlots) (now : ℕ) :
    (initial now : TimerRun numSlots slotMs).Timely := by
  apply timely_of_scheduled (apart_initial hslots now) _ (scheduled_initial now)
  · exact fun _ hmem => by cases hmem
  · exact fun _ _ hholds => absurd hholds.1 (Nat.not_lt_zero _)

theorem fires_congr {h h' : TimerHistory} {timer : ℕ} (hadded : h'.added timer = h.added timer) :
    h'.fires numSlots slotMs timer = h.fires numSlots slotMs timer := by
  unfold TimerHistory.fires TimerHistory.due
  rw [hadded]

theorem fires_of_added {h : TimerHistory} {timer advances : ℕ} {timeout : Int64}
    (hadded : h.added timer = (advances, timeout)) :
    h.fires numSlots slotMs timer = advances + reach numSlots (dueTicks slotMs timeout) := by
  simp only [TimerHistory.fires, TimerHistory.due, hadded, reach, Nat.add_assoc]

/-! ## Runs -/

/-- Every timer finds an entry, and no callback that leaves by an exception takes
other handles with it. -/
def orderly (r : TimerRun numSlots slotMs) (label : TimerLabel) : Bool :=
  r.roomy label &&
    match label with
    | .throw => r.activity.handles.isEmpty
    | _ => true

theorem Timely.step (h : r.Timely) (hheld : Held r.wheel r.history) (hpositive : 1 ≤ slotMs)
    (hword : slotMs < SIZE_WORD) {label : TimerLabel} (horderly : r.orderly label = true)
    (hstep : r.step label = some next) : next.Timely := by
  unfold orderly at horderly
  rw [Bool.and_eq_true] at horderly
  have hkept (hthrow : label = .throw) : r.activity.handles = [] := by
    rw [hthrow] at horderly
    exact List.isEmpty_iff.mp horderly.2
  have hmoves := handleStep h.apart hheld horderly.1 hkept hstep
  obtain ⟨hadded, hadvances, -⟩ := history_step hstep
  have hfires {timer : ℕ} (htimer : timer < r.history.adds) :
      next.history.fires numSlots slotMs timer = r.history.fires numSlots slotMs timer :=
    fires_congr (hadded timer htimer)
  apply timely_of_scheduled (h.apart.step hmoves)
  · intro index timer hholds
    exact tracked_step h.apart hmoves (h.placed.found index timer) hholds
  · apply h.scheduled.step h.apart hheld hmoves
    · intro timer togo htimer hdue
      rw [hfires htimer, ← hdue]
      omega
    · intro timeout id hrecord
      have hnew : next.history.added r.history.adds = (r.history.advances, timeout) := by
        rw [hrecord]
        exact Function.update_self ..
      rw [fires_of_added hnew, ticks_eq hpositive hword, hrecord]
      rfl
  · intro e he
    rcases invoked_step hstep with hsame | ⟨timer, handle, hmem, hnew, hnow, -, hholds, hflag, hzero⟩
    · rw [hsame] at he
      have htimer := (hheld.invoked e.1 (List.mem_map_of_mem he)).1
      rw [hfires htimer]
      exact ⟨(h.invoked e he).1, (h.invoked e he).2.trans hadvances⟩
    · rw [hnew, List.mem_append, List.mem_singleton] at he
      rcases he with hold | rfl
      · have htimer := (hheld.invoked e.1 (List.mem_map_of_mem hold)).1
        rw [hfires htimer]
        exact ⟨(h.invoked e hold).1, (h.invoked e hold).2.trans hadvances⟩
      · have hdue := h.handles handle hmem timer hholds hflag
        rw [hzero, Nat.zero_mul, Nat.add_zero] at hdue
        rw [hfires (hheld.lt_adds hholds), hnow]
        exact ⟨hdue, le_rfl⟩

/-- Calls of `advance_slot` that are over. -/
def finished (r : TimerRun numSlots slotMs) : ℕ :=
  match r.activity with
  | .visiting _ _ _ | .calling _ _ _ => r.history.advances - 1
  | _ => r.history.advances

/-- Calls of `advance_slot` in which the timer was invoked. -/
def invokedAt (r : TimerRun numSlots slotMs) (timer : ℕ) : List ℕ :=
  (r.history.invoked.filter (·.1 = timer)).map (·.2)

/-- The timer is invoked in the call in which it is due, and in no other. -/
def OnTime (r : TimerRun numSlots slotMs) (timer : ℕ) : Prop :=
  r.invokedAt timer = [r.history.due slotMs timer] ∨
    r.invokedAt timer = [] ∧ r.finished < r.history.due slotMs timer

theorem finished_le (r : TimerRun numSlots slotMs) :
    r.finished ≤ r.history.advances ∧ r.history.advances ≤ r.finished + 1 := by
  unfold finished
  split <;> omega

theorem invokedAt_of_mem (honce : (r.history.invoked.map (·.1)).Nodup) {timer call : ℕ}
    (hmem : (timer, call) ∈ r.history.invoked) : r.invokedAt timer = [call] := by
  unfold invokedAt
  generalize r.history.invoked = invoked at honce hmem
  induction invoked with
  | nil => cases hmem
  | cons e rest ih =>
      rw [List.map_cons, List.nodup_cons] at honce
      rcases List.mem_cons.mp hmem with rfl | hrest
      · have hnone : rest.filter (·.1 = timer) = [] := by
          rw [List.filter_eq_nil_iff]
          intro other hother heq
          exact honce.1 (List.mem_map.mpr ⟨other, hother, of_decide_eq_true heq⟩)
        rw [List.filter_cons_of_pos (by simp), hnone]
        rfl
      · have hne : e.1 ≠ timer := by
          rintro rfl
          exact honce.1 (List.mem_map.mpr ⟨_, hrest, rfl⟩)
        rw [List.filter_cons_of_neg (by simpa using hne)]
        exact ih honce.2 hrest

theorem invokedAt_of_not_mem {timer : ℕ} (hnot : timer ∉ r.history.invoked.map (·.1)) :
    r.invokedAt timer = [] := by
  unfold invokedAt
  rw [List.map_eq_nil_iff, List.filter_eq_nil_iff]
  intro e he heq
  apply hnot
  rw [← of_decide_eq_true heq]
  exact List.mem_map_of_mem he

/-- A timer that has not been invoked will be. -/
theorem Timely.finished_lt (h : r.Timely) {i timer : ℕ} (hi : r.wheel.Holds i timer)
    (hflag : (r.wheel.entries i).cancelled = false) :
    r.finished < r.history.fires numSlots slotMs timer := by
  obtain ⟨slot, hslot, handle, hmem, rfl⟩ := h.placed.found i timer hi
  have hfinished := (finished_le r).1
  rcases List.mem_append.mp hmem with hmoved | hresting
  · have hmine : handle ∈ r.activity.handles := by
      split at hmoved
      · exact hmoved
      · cases hmoved
    have hwhen := h.handles handle hmine timer hi hflag
    have hpos : 0 < r.history.fires numSlots slotMs timer := by
      have := dueTicks_pos slotMs (r.history.added timer).2
      unfold TimerHistory.fires TimerHistory.due
      omega
    have hinside : r.finished = r.history.advances - 1 := by
      unfold finished
      cases hactivity : r.activity <;> rw [hactivity] at hmine <;>
        first
        | rfl
        | cases hmine
    omega
  · have hwhen := h.slots slot hslot handle hresting timer hi hflag
    unfold distance at hwhen
    omega

theorem onTime_iff (h : r.Timely) (hheld : Held r.wheel r.history) (hslots : 0 < numSlots)
    {timer : ℕ} (htimer : timer < r.history.adds)
    (hcancelled : some timer ∉ r.history.cancelled.map (·.2)) :
    r.OnTime timer ↔ ¬ numSlots ∣ dueTicks slotMs (r.history.added timer).2 ∨
      r.finished < r.history.due slotMs timer := by
  have hfires : r.history.fires numSlots slotMs timer = r.history.due slotMs timer +
      if numSlots ∣ dueTicks slotMs (r.history.added timer).2 then numSlots else 0 := rfl
  unfold OnTime
  by_cases hmem : timer ∈ r.history.invoked.map (·.1)
  · obtain ⟨e, he, rfl⟩ := List.mem_map.mp hmem
    obtain ⟨hwhen, hle⟩ := h.invoked e he
    have hfinished := (finished_le r).2
    rw [invokedAt_of_mem hheld.once he, hwhen, hfires]
    split
    next hdvd =>
      simp only [hdvd, List.cons.injEq, and_true, not_true_eq_false, false_or, List.cons_ne_nil,
        false_and, or_false]
      rw [if_pos hdvd] at hfires
      omega
    next hdvd => simp [hdvd]
  · have hreleased : some timer ∉ r.history.released := by
      intro hmem
      exact hcancelled (hheld.released timer hmem).2.1
    obtain ⟨i, hi⟩ := hheld.pending timer ⟨htimer, hmem, hreleased⟩
    have hflag : (r.wheel.entries i).cancelled = false := by
      rw [← Bool.not_eq_true, hheld.marked i timer hi]
      exact hcancelled
    have hlt := h.finished_lt hi hflag
    rw [invokedAt_of_not_mem hmem]
    rw [hfires] at hlt
    by_cases hdvd : numSlots ∣ dueTicks slotMs (r.history.added timer).2
    · simp [hdvd]
    · rw [if_neg hdvd, Nat.add_zero] at hlt
      simp [hdvd, hlt]

/-- In an orderly run a timer is invoked on time exactly if its ticks are not a
multiple of the size of the wheel, or as long as it is not yet due. -/
theorem exec_onTime_iff (hslots : 2 ≤ numSlots) (hpositive : 1 ≤ slotMs)
    (hword : slotMs < SIZE_WORD) {now : ℕ} {labels : List TimerLabel}
    {final : TimerRun numSlots slotMs}
    (horderly : Along step (fun r label => r.orderly label = true)
      (initial now : TimerRun numSlots slotMs) labels)
    (hexec : exec step (initial now) labels = some final) {timer : ℕ}
    (htimer : timer < final.history.adds)
    (hcancelled : some timer ∉ final.history.cancelled.map (·.2)) :
    final.OnTime timer ↔ ¬ numSlots ∣ dueTicks slotMs (final.history.added timer).2 ∨
      final.finished < final.history.due slotMs timer := by
  have hboth : Held final.wheel final.history ∧ final.Timely := by
    have hkeep : ∀ (r : TimerRun numSlots slotMs) label next,
        Held r.wheel r.history ∧ r.Timely → r.orderly label = true →
        r.step label = some next → Held next.wheel next.history ∧ next.Timely := by
      intro r label next hgood hlabel hstep
      have hroomy : r.roomy label = true := by
        unfold orderly at hlabel
        exact (Bool.and_eq_true_iff.mp hlabel).1
      exact ⟨hgood.1.step (entryStep hgood.1 hroomy hstep),
        hgood.2.step hgood.1 hpositive hword hlabel hstep⟩
    exact exec_invariant_along hkeep ⟨held_initial now, timely_initial (by omega) now⟩ horderly hexec
  exact onTime_iff hboth.2 hboth.1 (by omega) htimer hcancelled

instance (r : TimerRun numSlots slotMs) (timer : ℕ) : Decidable (r.OnTime timer) :=
  inferInstanceAs (Decidable (_ ∨ _))

/-- Two ticks after a timer of two ticks was added. -/
def promptRun : List TimerLabel :=
  [.add 2, .add 3, .tick 2000000] ++ List.replicate 6 .proceed

theorem exec_onTime_iff_prompt :
    ∃ final : TimerRun 4 1, exec step (initial 0) promptRun = some final ∧ final.OnTime 0 := by
  have hlast : ((exec step (initial 0 : TimerRun 4 1) promptRun).any fun final =>
      0 < final.history.adds ∧ some 0 ∉ final.history.cancelled.map (·.2) ∧
        ¬ 4 ∣ dueTicks 1 (final.history.added 0).2) = true := by
    decide +kernel
  cases hexec : exec step (initial 0 : TimerRun 4 1) promptRun with
  | none =>
      rw [hexec] at hlast
      cases hlast
  | some final =>
      rw [hexec] at hlast
      obtain ⟨hadds, hcancelled, hdvd⟩ := of_decide_eq_true hlast
      exact ⟨final, rfl, (exec_onTime_iff (by decide) (by decide) (by decide) (by decide +kernel)
        hexec hadds hcancelled).mpr (.inl hdvd)⟩

/-- A timer of two ticks on a wheel of two slots. -/
def lateRun : List TimerLabel :=
  [.add 2, .tick 4000000] ++ List.replicate 10 .proceed

theorem lateRun_late :
    ∃ final : TimerRun 2 1, exec step (initial 0) lateRun = some final ∧
      final.history.due 1 0 = 2 ∧ final.invokedAt 0 = [4] ∧ ¬ final.OnTime 0 := by
  have hlast : ((exec step (initial 0 : TimerRun 2 1) lateRun).any fun final =>
      final.history.due 1 0 = 2 ∧ final.invokedAt 0 = [4] ∧ ¬ final.OnTime 0) = true := by
    decide +kernel
  cases hexec : exec step (initial 0 : TimerRun 2 1) lateRun with
  | none =>
      rw [hexec] at hlast
      cases hlast
  | some final =>
      rw [hexec] at hlast
      exact ⟨final, rfl, of_decide_eq_true hlast⟩

end TimerRun

end Timer
end Katana
