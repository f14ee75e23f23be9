import Katana.Timer.WheelEntries

/-!
# Handles of the wheel timer

A step of the timer does one of five things to the handles: nothing, it adds one,
it moves those of the next slot out, it drops the one that is visited, or it puts
this one back.  Hence every handle is live and no two of them name one entry; how
many calls of `advance_slot` a timer still has to go is counted down by one with
every call; and a handle is lost only when its timer is over.
-/

namespace Katana
namespace Timer

open Library

variable {numSlots slotMs : ℕ}

/-- `TICK_MS` in nanoseconds. -/
def tickNanos (slotMs : ℕ) : ℕ :=
  1000000 * slotMs

/-! ## Distance of a slot -/

/-- Calls of `advance_slot` until the slot is visited next. -/
def distance (numSlots current slot : ℕ) : ℕ :=
  (slot + numSlots - 1 - current) % numSlots + 1

theorem distance_self {current : ℕ} (hcurrent : current < numSlots) :
    distance numSlots current current = numSlots := by
  unfold distance
  rw [show current + numSlots - 1 - current = numSlots - 1 by omega, Nat.mod_eq_of_lt (by omega)]
  omega

theorem distance_next {current slot : ℕ} (hcurrent : current < numSlots) (hslot : slot < numSlots) :
    distance numSlots current slot =
      if slot = (current + 1) % numSlots then 1
      else distance numSlots ((current + 1) % numSlots) slot + 1 := by
  have hnext : (current + 1) % numSlots = if current + 1 = numSlots then 0 else current + 1 := by
    split
    next heq => rw [heq, Nat.mod_self]
    next hne => exact Nat.mod_eq_of_lt (by omega)
  have hmod (a : ℕ) (ha : a < 2 * numSlots) :
      a % numSlots = if a < numSlots then a else a - numSlots := by
    split
    next hlt => exact Nat.mod_eq_of_lt hlt
    next hge => rw [Nat.mod_eq_sub_mod (by omega), Nat.mod_eq_of_lt (by omega)]
  unfold distance
  rw [hnext, hmod (slot + numSlots - 1 - current) (by omega),
    hmod (slot + numSlots - 1 - if current + 1 = numSlots then 0 else current + 1)
      (by split <;> omega)]
  split_ifs <;> omega

theorem distance_add {current : ℕ} (hcurrent : current < numSlots) (ticks : ℕ) :
    distance numSlots current ((current + ticks % numSlots) % numSlots) + ticks / numSlots * numSlots =
      ticks + if numSlots ∣ ticks then numSlots else 0 := by
  have hsplit := Nat.div_add_mod ticks numSlots
  have hlt : ticks % numSlots < numSlots := Nat.mod_lt _ (by omega)
  rw [Nat.mul_comm] at hsplit
  by_cases hdvd : numSlots ∣ ticks
  · rw [if_pos hdvd, Nat.mod_eq_zero_of_dvd hdvd, Nat.add_zero, Nat.mod_eq_of_lt hcurrent,
      distance_self hcurrent]
    rw [Nat.mod_eq_zero_of_dvd hdvd] at hsplit
    omega
  · have hne : ticks % numSlots ≠ 0 := fun hzero => hdvd (Nat.dvd_of_mod_eq_zero hzero)
    have hdistance : distance numSlots current ((current + ticks % numSlots) % numSlots) =
        ticks % numSlots := by
      generalize ticks % numSlots = offset at hlt hne
      unfold distance
      by_cases hover : current + offset < numSlots
      · rw [Nat.mod_eq_of_lt hover,
          show current + offset + numSlots - 1 - current = offset - 1 + numSlots by omega,
          Nat.add_mod_right, Nat.mod_eq_of_lt (by omega)]
        omega
      · have hslot : (current + offset) % numSlots = current + offset - numSlots := by
          rw [Nat.mod_eq_sub_mod (by omega), Nat.mod_eq_of_lt (by omega)]
        rw [hslot, show current + offset - numSlots + numSlots - 1 - current = offset - 1 by omega,
          Nat.mod_eq_of_lt (by omega)]
        omega
    rw [hdistance, if_neg hdvd]
    omega

/-! ## Steps -/

/-- Handles that have been moved out of the current slot and not been visited. -/
def Activity.handles : Activity → List SlotHandle
  | .visiting _ handles _ | .calling _ handles _ => handles
  | _ => []

/-- Slots that the `tick` under way has still to visit. -/
def Activity.left : Activity → ℕ
  | .idle => 0
  | .advancing left | .visiting left _ _ | .calling left _ _ => left

namespace TimerRun

/-- The handles of a slot, with those that have been moved out of it. -/
def waiting (r : TimerRun numSlots slotMs) (slot : ℕ) : List SlotHandle :=
  (if slot = r.wheel.currentSlot then r.activity.handles else []) ++ r.wheel.slots slot

/-- What `add` does. -/
structure Added (w w' : WheelTimer numSlots slotMs) (timer : ℕ) (timeout : Int64) (index : ℕ)
    (entry : EntryData) : Prop where
  fresh : index < w.entriesSize → (w.entries index).active = false
  callback : entry.callback = some timer
  active : entry.active = true
  rounds : entry.remainingRounds = WheelTimer.ticks slotMs timeout / numSlots
  entries : w'.entries = Function.update w.entries index entry
  size : ∀ i, i < w'.entriesSize ↔ i < w.entriesSize ∨ i = index
  slots : ∀ slot, w'.slots slot = w.slots slot ++
    if slot = (w.currentSlot + WheelTimer.ticks slotMs timeout % numSlots) % numSlots then
      [⟨index, entry.generation⟩] else []
  current : w'.currentSlot = w.currentSlot

theorem update_append (slots : ℕ → List SlotHandle) (target slot : ℕ) (handle : SlotHandle) :
    Function.update slots target (slots target ++ [handle]) slot =
      slots slot ++ if slot = target then [handle] else [] := by
  by_cases heq : slot = target
  · simp [heq]
  · simp [heq]

theorem added {w : WheelTimer numSlots slotMs} {h : TimerHistory} (hheld : Held w h)
    (hroomy : w.freeList = [] → w.entriesSize < INDEX_WORD) {timeout : Int64}
    {result : ℕ × WheelTimer numSlots slotMs} (hadd : w.add timeout (some h.adds) = some result) :
    ∃ index entry, Added w result.2 h.adds timeout index entry := by
  unfold WheelTimer.add WheelTimer.acquireEntry at hadd
  cases hfree : w.freeList with
  | nil =>
      rw [hfree] at hadd
      simp only [Option.isNone_some, Bool.false_eq_true, if_false,
        Nat.mod_eq_of_lt (hroomy hfree), Function.update_self] at hadd
      cases hadd
      refine ⟨w.entriesSize, { callback := some h.adds, active := true
                               remainingRounds := WheelTimer.ticks slotMs timeout / numSlots }, ?_⟩
      constructor
      · exact fun hlt => absurd hlt (lt_irrefl _)
      · rfl
      · rfl
      · rfl
      · simp [WheelTimer.pushHandle, WheelTimer.setEntry]
      · intro i
        simp only [WheelTimer.pushHandle, WheelTimer.setEntry]
        omega
      · exact fun slot => update_append ..
      · rfl
  | cons index rest =>
      obtain ⟨hlt, hactive, -⟩ := hheld.free index (by simp [hfree])
      rw [hfree] at hadd
      simp only [Option.isNone_some, Bool.false_eq_true, if_false, Function.update_self] at hadd
      cases hadd
      refine ⟨index, { callback := some h.adds
                       remainingRounds := WheelTimer.ticks slotMs timeout / numSlots
                       generation := WheelTimer.nextGeneration (w.entries index).generation
                       active := true
                       cancelled := (w.entries index).cancelled }, ?_⟩
      constructor
      · exact fun _ => hactive
      · rfl
      · rfl
      · rfl
      · exact Function.update_idem ..
      · intro i
        constructor
        · exact .inl
        · rintro (hi | rfl)
          · exact hi
          · exact hlt
      · exact fun slot => update_append ..
      · rfl

/-- What a step does to the handles. -/
inductive HandleStep (r next : TimerRun numSlots slotMs) : Prop where
  | calm (hslots : next.wheel.slots = r.wheel.slots)
      (hcallback : ∀ i, (next.wheel.entries i).callback = (r.wheel.entries i).callback)
      (hactive : ∀ i, (next.wheel.entries i).active = (r.wheel.entries i).active)
      (hgeneration : ∀ i, (next.wheel.entries i).generation = (r.wheel.entries i).generation)
      (hrounds : ∀ i,
        (next.wheel.entries i).remainingRounds = (r.wheel.entries i).remainingRounds)
      (hcancelled : ∀ i, (next.wheel.entries i).cancelled = false →
        (r.wheel.entries i).cancelled = false)
      (hsize : next.wheel.entriesSize = r.wheel.entriesSize)
      (hcurrent : next.wheel.currentSlot = r.wheel.currentSlot)
      (hhandles : next.activity.handles = r.activity.handles)
      (hadvances : next.history.advances = r.history.advances)
  | add (timeout : Int64) (id index : ℕ) (entry : EntryData)
      (hadded : Added r.wheel next.wheel r.history.adds timeout index entry)
      (hrecord : next.history = recordAdd timeout id r.wheel r.history)
      (hhandles : next.activity.handles = r.activity.handles)
  | start (hidle : r.activity.handles = [])
      (hmoved : next.activity.handles = r.wheel.slots r.wheel.nextSlot)
      (hslots : ∀ slot, next.wheel.slots slot =
        if slot = r.wheel.nextSlot then [] else r.wheel.slots slot)
      (hentries : next.wheel.entries = r.wheel.entries)
      (hsize : next.wheel.entriesSize = r.wheel.entriesSize)
      (hcurrent : next.wheel.currentSlot = r.wheel.nextSlot)
      (hadvances : next.history.advances = r.history.advances + 1)
  | release (handle : SlotHandle) (hvisited : r.activity.handles = handle :: next.activity.handles)
      (hwheel : next.wheel = r.wheel.releaseEntry handle.index)
      (hadvances : next.history.advances = r.history.advances)
  | keep (handle : SlotHandle) (hvisited : r.activity.handles = handle :: next.activity.handles)
      (hslots : ∀ slot, next.wheel.slots slot =
        r.wheel.slots slot ++ if slot = r.wheel.currentSlot then [handle] else [])
      (howner : ∀ i, (next.wheel.entries i).owner = (r.wheel.entries i).owner)
      (hrounds : ∀ i, i ≠ handle.index →
        (next.wheel.entries i).remainingRounds = (r.wheel.entries i).remainingRounds)
      (hcount : (r.wheel.entries handle.index).cancelled = false →
        (next.wheel.entries handle.index).remainingRounds + 1 =
          (r.wheel.entries handle.index).remainingRounds)
      (hsize : next.wheel.entriesSize = r.wheel.entriesSize)
      (hcurrent : next.wheel.currentSlot = r.wheel.currentSlot)
      (hadvances : next.history.advances = r.history.advances)

variable {r next : TimerRun numSlots slotMs}

/-- Every handle is live, and no two of them name one entry. -/
structure Apart (r : TimerRun numSlots slotMs) : Prop where
  current : r.wheel.currentSlot < numSlots
  live : ∀ slot < numSlots, ∀ handle ∈ r.waiting slot, handle.index < r.wheel.entriesSize ∧
    (r.wheel.entries handle.index).active = true ∧
      (r.wheel.entries handle.index).generation = handle.generation
  once : ∀ slot < numSlots, ((r.waiting slot).map (·.index)).Nodup
  apart : ∀ a < numSlots, ∀ b < numSlots, ∀ handle ∈ r.waiting a, ∀ other ∈ r.waiting b,
    handle.index = other.index → a = b

theorem mem_waiting_slots {slot : ℕ} {handle : SlotHandle} (hmem : handle ∈ r.wheel.slots slot) :
    handle ∈ r.waiting slot :=
  List.mem_append_right _ hmem

theorem mem_waiting_handles {handle : SlotHandle} (hmem : handle ∈ r.activity.handles) :
    handle ∈ r.waiting r.wheel.currentSlot := by
  unfold waiting
  rw [if_pos rfl]
  exact List.mem_append_left _ hmem

theorem waiting_current {handle : SlotHandle} {rest : List SlotHandle}
    (hvisited : r.activity.handles = handle :: rest) :
    r.waiting r.wheel.currentSlot = handle :: (rest ++ r.wheel.slots r.wheel.currentSlot) := by
  unfold waiting
  rw [if_pos rfl, hvisited]
  rfl

theorem handleStep_cancel (id : ℕ) :
    HandleStep r { r with
      wheel := (r.wheel.cancel id).2
      history := recordCancel id r.wheel r.history } := by
  have hentry (i : ℕ) : ((r.wheel.cancel id).2.entries i).callback = (r.wheel.entries i).callback ∧
      ((r.wheel.cancel id).2.entries i).active = (r.wheel.entries i).active ∧
      ((r.wheel.cancel id).2.entries i).generation = (r.wheel.entries i).generation ∧
      ((r.wheel.cancel id).2.entries i).remainingRounds = (r.wheel.entries i).remainingRounds ∧
      (((r.wheel.cancel id).2.entries i).cancelled = false →
        (r.wheel.entries i).cancelled = false) := by
    unfold WheelTimer.cancel
    dsimp only
    split_ifs
    · exact ⟨rfl, rfl, rfl, rfl, fun h => h⟩
    · exact ⟨rfl, rfl, rfl, rfl, fun h => h⟩
    · unfold WheelTimer.setEntry
      by_cases heq : i = (decodeId id).index
      · simp [heq]
      · simp [heq]
  have hwheel : (r.wheel.cancel id).2.slots = r.wheel.slots ∧
      (r.wheel.cancel id).2.entriesSize = r.wheel.entriesSize ∧
      (r.wheel.cancel id).2.currentSlot = r.wheel.currentSlot := by
    unfold WheelTimer.cancel
    dsimp only
    split_ifs <;> exact ⟨rfl, rfl, rfl⟩
  apply HandleStep.calm
  · exact hwheel.1
  · exact fun i => (hentry i).1
  · exact fun i => (hentry i).2.1
  · exact fun i => (hentry i).2.2.1
  · exact fun i => (hentry i).2.2.2.1
  · exact fun i => (hentry i).2.2.2.2
  · exact hwheel.2.1
  · exact hwheel.2.2
  · rfl
  · unfold recordCancel
    dsimp only
    split <;> rfl

/-- The next slot is visited: its handles are moved out. -/
theorem handleStep_start (hidle : r.activity.handles = []) {activity : Activity}
    (hmoved : activity.handles = r.wheel.slots r.wheel.nextSlot) :
    HandleStep r ⟨r.wheel.startSlot, activity,
      { r.history with advances := r.history.advances + 1 }⟩ := by
  have hslots (slot : ℕ) : r.wheel.startSlot.slots slot =
      if slot = r.wheel.nextSlot then [] else r.wheel.slots slot := by
    unfold WheelTimer.startSlot
    split
    next hempty =>
      split
      next heq => rw [heq]; exact List.isEmpty_iff.mp hempty
      · rfl
    next hfull =>
      by_cases heq : slot = r.wheel.nextSlot
      · simp [heq]
      · simp [heq]
  have hwheel : r.wheel.startSlot.entries = r.wheel.entries ∧
      r.wheel.startSlot.entriesSize = r.wheel.entriesSize ∧
      r.wheel.startSlot.currentSlot = r.wheel.nextSlot := by
    unfold WheelTimer.startSlot
    split <;> exact ⟨rfl, rfl, rfl⟩
  exact .start hidle hmoved hslots hwheel.1 hwheel.2.1 hwheel.2.2 rfl

/-- A handle is visited, which is live. -/
theorem handleStep_visit {handle : SlotHandle} {rest : List SlotHandle} {compact : Bool}
    (hvisited : r.activity.handles = handle :: rest)
    (hlive : handle.index < r.wheel.entriesSize ∧ (r.wheel.entries handle.index).active = true ∧
      (r.wheel.entries handle.index).generation = handle.generation)
    {activity : Activity} (hhandles : activity.handles = rest) :
    HandleStep r ⟨r.wheel.visited handle compact, activity,
      recordVisit handle compact r.wheel r.history⟩ := by
  obtain ⟨hlt, hactive, hgeneration⟩ := hlive
  have hsame : r.activity.handles = handle :: activity.handles := by rw [hvisited, hhandles]
  have hadvances : (recordVisit handle compact r.wheel r.history).advances =
      r.history.advances := by
    unfold recordVisit
    split <;> rfl
  unfold WheelTimer.visited
  cases hvisit : r.wheel.visit handle compact with
  | stale =>
      have hnot : r.wheel.visit handle compact ≠ .stale := by
        unfold WheelTimer.visit
        simp only [Nat.not_le.mpr hlt, hactive, hgeneration, if_false, Bool.not_true, ne_eq,
          not_true_eq_false, decide_false, Bool.or_self, Bool.false_eq_true]
        split_ifs <;> simp
      exact absurd hvisit hnot
  | release => exact .release handle hsame rfl hadvances
  | fire => exact .release handle hsame rfl hadvances
  | keep =>
      have hflag := (visit_cancelled (by simp [hvisit])).mpr (.inr hvisit)
      apply HandleStep.keep handle hsame
      · exact fun slot => update_append ..
      · exact fun _ => rfl
      · exact fun _ _ => rfl
      · intro hfalse
        rw [hflag] at hfalse
        cases hfalse
      · rfl
      · rfl
      · exact hadvances
  | count =>
      have hpos : 0 < (r.wheel.entries handle.index).remainingRounds := by
        unfold WheelTimer.visit at hvisit
        dsimp only at hvisit
        split_ifs at hvisit with _ _ _ _ hrounds
        exact hrounds
      apply HandleStep.keep handle hsame
      · exact fun slot => update_append ..
      · intro i
        unfold WheelTimer.pushHandle WheelTimer.setEntry EntryData.owner
        by_cases heq : i = handle.index
        · simp [heq]
        · simp [heq]
      · intro i hne
        simp [WheelTimer.pushHandle, WheelTimer.setEntry, hne]
      · intro _
        simp only [WheelTimer.pushHandle, WheelTimer.setEntry, Function.update_self]
        omega
      · rfl
      · rfl
      · exact hadvances

/-- What a step does to the handles, if it is not an exception that loses some. -/
theorem handleStep (hapart : r.Apart) (hheld : Held r.wheel r.history) {label : TimerLabel}
    (hroomy : r.roomy label = true) (hkept : label = .throw → r.activity.handles = [])
    (hstep : r.step label = some next) : HandleStep r next := by
  have hcalm {w' : WheelTimer numSlots slotMs} {activity : Activity}
      (hslots : w'.slots = r.wheel.slots) (hentries : w'.entries = r.wheel.entries)
      (hsize : w'.entriesSize = r.wheel.entriesSize)
      (hcurrent : w'.currentSlot = r.wheel.currentSlot)
      (hhandles : activity.handles = r.activity.handles) :
      HandleStep r ⟨w', activity, r.history⟩ := by
    apply HandleStep.calm hslots
    · exact fun i => by rw [hentries]
    · exact fun i => by rw [hentries]
    · exact fun i => by rw [hentries]
    · exact fun i => by rw [hentries]
    · exact fun i hi => by rwa [hentries] at hi
    · exact hsize
    · exact hcurrent
    · exact hhandles
    · rfl
  cases label with
  | add timeout =>
      unfold step at hstep
      dsimp only at hstep
      split at hstep
      · obtain ⟨result, hadd, rfl⟩ := Option.map_eq_some_iff.mp hstep
        have hroom (hfree : r.wheel.freeList = []) : r.wheel.entriesSize < INDEX_WORD := by
          simpa [roomy, hfree] using hroomy
        obtain ⟨index, entry, hadded⟩ := added hheld hroom hadd
        exact .add timeout result.1 index entry hadded rfl rfl
      · cases hstep
  | cancel id =>
      unfold step at hstep
      dsimp only at hstep
      split at hstep
      · cases hstep
        exact handleStep_cancel id
      · cases hstep
  | tick now =>
      cases hactivity : r.activity <;> simp only [step, hactivity] at hstep <;> cases hstep
      apply hcalm
      · rfl
      · rfl
      · rfl
      · rfl
      · rw [hactivity]
        rfl
  | throw =>
      have hnone := hkept rfl
      cases hactivity : r.activity <;> simp only [step, hactivity] at hstep <;> cases hstep
      exact hcalm rfl rfl rfl rfl hnone.symm
  | proceed =>
      cases hactivity : r.activity with
      | idle =>
          simp only [step, hactivity] at hstep
          cases hstep
      | advancing left =>
          cases left with
          | zero =>
              simp only [step, hactivity] at hstep
              cases hstep
              apply hcalm rfl rfl rfl rfl
              rw [hactivity]
              rfl
          | succ left =>
              simp only [step, hactivity] at hstep
              cases hstep
              apply handleStep_start
              · rw [hactivity]
                rfl
              · split
                next hempty => exact (List.isEmpty_iff.mp hempty).symm
                · rfl
      | visiting left handles compact =>
          cases handles with
          | nil =>
              simp only [step, hactivity] at hstep
              cases hstep
              apply hcalm rfl rfl rfl rfl
              rw [hactivity]
              rfl
          | cons handle rest =>
              simp only [step, hactivity] at hstep
              cases hstep
              have hvisited : r.activity.handles = handle :: rest := by
                rw [hactivity]
                rfl
              apply handleStep_visit hvisited
              · apply hapart.live r.wheel.currentSlot hapart.current
                rw [waiting_current hvisited]
                exact List.mem_cons_self
              · split <;> rfl
      | calling left handles compact =>
          simp only [step, hactivity] at hstep
          cases hstep
          apply hcalm rfl rfl rfl rfl
          rw [hactivity]
          rfl

/-- What a step does to the history that the handles depend on. -/
theorem history_step {label : TimerLabel} (hstep : r.step label = some next) :
    (∀ timer < r.history.adds, next.history.added timer = r.history.added timer) ∧
      r.history.advances ≤ next.history.advances ∧
        (next.history.adds = r.history.adds ∨ ∃ timeout, label = .add timeout) := by
  cases label with
  | add timeout =>
      unfold step at hstep
      dsimp only at hstep
      split at hstep
      · obtain ⟨result, hadd, rfl⟩ := Option.map_eq_some_iff.mp hstep
        exact ⟨fun timer htimer => Function.update_of_ne htimer.ne .., le_rfl, .inr ⟨timeout, rfl⟩⟩
      · cases hstep
  | cancel id =>
      unfold step at hstep
      dsimp only at hstep
      split at hstep
      · cases hstep
        unfold recordCancel
        dsimp only
        split <;> exact ⟨fun _ _ => rfl, le_rfl, .inl rfl⟩
      · cases hstep
  | tick now =>
      cases hactivity : r.activity <;> simp only [step, hactivity] at hstep <;> cases hstep
      exact ⟨fun _ _ => rfl, le_rfl, .inl rfl⟩
  | throw =>
      cases hactivity : r.activity <;> simp only [step, hactivity] at hstep <;> cases hstep
      exact ⟨fun _ _ => rfl, le_rfl, .inl rfl⟩
  | proceed =>
      unfold step at hstep
      dsimp only at hstep
      split at hstep
      · cases hstep
      · cases hstep
        exact ⟨fun _ _ => rfl, le_rfl, .inl rfl⟩
      · cases hstep
        exact ⟨fun _ _ => rfl, Nat.le_succ _, .inl rfl⟩
      · cases hstep
        exact ⟨fun _ _ => rfl, le_rfl, .inl rfl⟩
      · cases hstep
        unfold recordVisit
        dsimp only
        split <;> exact ⟨fun _ _ => rfl, le_rfl, .inl rfl⟩
      · cases hstep
        exact ⟨fun _ _ => rfl, le_rfl, .inl rfl⟩

theorem lastTick_add {w : WheelTimer numSlots slotMs} {timeout : Int64} {callback : Option ℕ}
    {result : ℕ × WheelTimer numSlots slotMs} (hadd : w.add timeout callback = some result) :
    result.2.lastTick = w.lastTick := by
  unfold WheelTimer.add WheelTimer.acquireEntry at hadd
  cases callback with
  | none => cases hadd
  | some timer =>
      cases hfree : w.freeList <;> rw [hfree] at hadd <;> cases hadd <;> rfl

theorem lastTick_visited (w : WheelTimer numSlots slotMs) (handle : SlotHandle) (compact : Bool) :
    (w.visited handle compact).lastTick = w.lastTick := by
  unfold WheelTimer.visited
  cases w.visit handle compact <;> rfl

/-- The slots that are left are visited one after the other. -/
theorem left_step {r next : TimerRun numSlots slotMs} {label : TimerLabel}
    (hlabel : match label with | .tick _ | .throw => False | _ => True)
    (hstep : r.step label = some next) :
    next.wheel.lastTick = r.wheel.lastTick ∧
      next.activity.left + (next.history.advances - r.history.advances) = r.activity.left := by
  cases label with
  | add timeout =>
      simp only [step, Option.ite_none_right_eq_some, Option.map_eq_some_iff] at hstep
      obtain ⟨-, result, hadd, rfl⟩ := hstep
      exact ⟨lastTick_add hadd, by simp [recordAdd]⟩
  | cancel id =>
      simp only [step, Option.ite_none_right_eq_some, Option.some.injEq] at hstep
      obtain ⟨-, rfl⟩ := hstep
      constructor
      · unfold WheelTimer.cancel
        dsimp only
        split_ifs <;> rfl
      · unfold recordCancel
        split <;> simp
  | tick now => cases hlabel
  | throw => cases hlabel
  | proceed =>
      cases hactivity : r.activity with
      | idle =>
          simp only [step, hactivity] at hstep
          cases hstep
      | advancing left =>
          cases left with
          | zero =>
              simp only [step, hactivity] at hstep
              cases hstep
              exact ⟨rfl, by simp [Activity.left]⟩
          | succ left =>
              simp only [step, hactivity] at hstep
              cases hstep
              constructor
              · unfold WheelTimer.startSlot
                split <;> rfl
              · split <;> simp [Activity.left]
      | visiting left handles compact =>
          cases handles with
          | nil =>
              simp only [step, hactivity] at hstep
              cases hstep
              exact ⟨rfl, by simp [Activity.left]⟩
          | cons handle rest =>
              simp only [step, hactivity] at hstep
              cases hstep
              have hadvances : (recordVisit handle compact r.wheel r.history).advances =
                  r.history.advances := by
                unfold recordVisit
                split <;> rfl
              refine ⟨lastTick_visited .., ?_⟩
              rw [hadvances, Nat.sub_self]
              split <;> rfl
      | calling left handles compact =>
          simp only [step, hactivity] at hstep
          cases hstep
          exact ⟨rfl, by simp [Activity.left]⟩

/-- A callback is run for the handle that is visited, when no rounds are left. -/
theorem invoked_step {label : TimerLabel}
    (hstep : r.step label = some next) :
    next.history.invoked = r.history.invoked ∨
      ∃ timer, ∃ handle ∈ r.activity.handles,
        next.history.invoked = r.history.invoked ++ [(timer, r.history.advances)] ∧
          next.history.advances = r.history.advances ∧ label = .proceed ∧
          r.wheel.Holds handle.index timer ∧
          (r.wheel.entries handle.index).cancelled = false ∧
          (r.wheel.entries handle.index).remainingRounds = 0 := by
  cases label with
  | add timeout =>
      unfold step at hstep
      dsimp only at hstep
      split at hstep
      · obtain ⟨result, hadd, rfl⟩ := Option.map_eq_some_iff.mp hstep
        exact .inl rfl
      · cases hstep
  | cancel id =>
      unfold step at hstep
      dsimp only at hstep
      split at hstep
      · cases hstep
        unfold recordCancel
        dsimp only
        split <;> exact .inl rfl
      · cases hstep
  | tick now =>
      cases hactivity : r.activity <;> simp only [step, hactivity] at hstep <;> cases hstep
      exact .inl rfl
  | throw =>
      cases hactivity : r.activity <;> simp only [step, hactivity] at hstep <;> cases hstep
      exact .inl rfl
  | proceed =>
      unfold step at hstep
      dsimp only at hstep
      split at hstep
      · cases hstep
      · cases hstep
        exact .inl rfl
      · cases hstep
        exact .inl rfl
      · cases hstep
        exact .inl rfl
      next left handle rest compact hactivity =>
        cases hstep
        unfold recordVisit
        dsimp only
        cases hvisit : r.wheel.visit handle compact <;>
          cases hcallback : (r.wheel.entries handle.index).callback <;> try exact .inl rfl
        next timer =>
          have hne : r.wheel.visit handle compact ≠ .stale := by simp [hvisit]
          have hlive := visit_live hne
          have hflag := visit_cancelled hne
          have hzero : (r.wheel.entries handle.index).remainingRounds = 0 := by
            unfold WheelTimer.visit at hvisit
            dsimp only at hvisit
            split_ifs at hvisit with _ _ _ _ hrounds
            exact Nat.eq_zero_of_not_pos hrounds
          refine .inr ⟨timer, handle, ?_, rfl, rfl, rfl, ⟨hlive.1, hlive.2.1, hcallback⟩, ?_, hzero⟩
          · rw [hactivity]
            exact List.mem_cons_self
          · simpa [hvisit] using hflag
      · cases hstep
        exact .inl rfl

/-! ## Handles are apart -/

theorem Apart.of_subperm (h : r.Apart) (hcurrent : next.wheel.currentSlot < numSlots)
    (hsub : ∀ slot < numSlots, (next.waiting slot).Subperm (r.waiting slot))
    (hlive : ∀ slot < numSlots, ∀ handle ∈ next.waiting slot,
      handle.index < next.wheel.entriesSize ∧ (next.wheel.entries handle.index).active = true ∧
        (next.wheel.entries handle.index).generation = handle.generation) : next.Apart := by
  refine ⟨hcurrent, hlive, ?_, ?_⟩
  · intro slot hslot
    obtain ⟨l, hperm, hsublist⟩ := hsub slot hslot
    have honce := (hsublist.map (·.index)).nodup (h.once slot hslot)
    exact (hperm.map (·.index)).nodup_iff.mp honce
  · intro a ha b hb handle hhandle other hother
    exact h.apart a ha b hb handle ((hsub a ha).subset hhandle) other ((hsub b hb).subset hother)

/-- Nothing is known of the handles that an exception has left behind. -/
theorem Apart.lose (h : r.Apart) : ({ r with activity := .idle } : TimerRun numSlots slotMs).Apart := by
  have hsub (slot : ℕ) :
      (({ r with activity := .idle } : TimerRun numSlots slotMs).waiting slot).Subperm
        (r.waiting slot) := by
    unfold waiting
    apply List.Sublist.subperm
    apply List.Sublist.append_right
    split
    · exact List.nil_sublist _
    · exact List.Sublist.refl _
  apply h.of_subperm
  · exact h.current
  · exact fun slot _ => hsub slot
  · intro slot hslot handle hmem
    exact h.live slot hslot handle ((hsub slot).subset hmem)

/-- The handle that is visited names an entry that no other handle names. -/
theorem Apart.handle_ne (h : r.Apart) {handle : SlotHandle} {rest : List SlotHandle}
    (hvisited : r.activity.handles = handle :: rest) {slot : ℕ} (hslot : slot < numSlots)
    {other : SlotHandle} (hmem : other ∈ r.wheel.slots slot ∨ other ∈ rest) :
    other.index ≠ handle.index := by
  have honce := h.once r.wheel.currentSlot h.current
  rw [waiting_current hvisited, List.map_cons, List.nodup_cons] at honce
  intro hindex
  rcases hmem with hmem | hmem
  · have heq : slot = r.wheel.currentSlot := by
      apply h.apart slot hslot _ h.current other (mem_waiting_slots hmem) handle _ hindex
      rw [waiting_current hvisited]
      exact List.mem_cons_self
    rw [heq] at hmem
    exact honce.1 (List.mem_map.mpr ⟨other, List.mem_append_right _ hmem, hindex⟩)
  · exact honce.1 (List.mem_map.mpr ⟨other, List.mem_append_left _ hmem, hindex⟩)

theorem Apart.add (h : r.Apart) {timeout : Int64} {index : ℕ} {entry : EntryData}
    (hadded : Added r.wheel next.wheel r.history.adds timeout index entry)
    (hhandles : next.activity.handles = r.activity.handles) : next.Apart := by
  have hwaiting (slot : ℕ) : next.waiting slot = r.waiting slot ++
      if slot = (r.wheel.currentSlot + WheelTimer.ticks slotMs timeout % numSlots) % numSlots then
        [⟨index, entry.generation⟩] else [] := by
    unfold waiting
    rw [hadded.slots, hadded.current, hhandles, List.append_assoc]
  have hne {slot : ℕ} (hslot : slot < numSlots) {handle : SlotHandle}
      (hmem : handle ∈ r.waiting slot) : handle.index ≠ index := by
    rintro rfl
    obtain ⟨hlt, hon, -⟩ := h.live slot hslot handle hmem
    rw [hadded.fresh hlt] at hon
    cases hon
  have hcases {slot : ℕ} {handle : SlotHandle} (hmem : handle ∈ next.waiting slot) :
      handle ∈ r.waiting slot ∨
        slot = (r.wheel.currentSlot + WheelTimer.ticks slotMs timeout % numSlots) % numSlots ∧
          handle = ⟨index, entry.generation⟩ := by
    rw [hwaiting, List.mem_append] at hmem
    rcases hmem with hold | hnew
    · exact .inl hold
    · split at hnew
      next heq => exact .inr ⟨heq, List.mem_singleton.mp hnew⟩
      · cases hnew
  refine ⟨?_, ?_, ?_, ?_⟩
  · rw [hadded.current]
    exact h.current
  · intro slot hslot handle hmem
    rw [hadded.size, hadded.entries]
    rcases hcases hmem with hold | ⟨-, rfl⟩
    · rw [Function.update_of_ne (hne hslot hold)]
      obtain ⟨hlt, hlive⟩ := h.live slot hslot handle hold
      exact ⟨.inl hlt, hlive⟩
    · dsimp only
      rw [Function.update_self]
      exact ⟨.inr rfl, hadded.active, rfl⟩
  · intro slot hslot
    rw [hwaiting, List.map_append]
    apply List.Nodup.append (h.once slot hslot)
    · split <;> simp
    · intro i hi hnew
      obtain ⟨handle, hmem, rfl⟩ := List.mem_map.mp hi
      split at hnew
      · exact hne hslot hmem (List.mem_singleton.mp hnew)
      · cases hnew
  · intro a ha b hb handle hhandle other hother hindex
    rcases hcases hhandle with hold | ⟨hslot, rfl⟩
    · rcases hcases hother with hold' | ⟨-, rfl⟩
      · exact h.apart a ha b hb handle hold other hold' hindex
      · exact absurd hindex (hne ha hold)
    · rcases hcases hother with hold' | ⟨hslot', -⟩
      · exact absurd hindex.symm (hne hb hold')
      · rw [hslot, hslot']

theorem waiting_start (hidle : r.activity.handles = [])
    (hmoved : next.activity.handles = r.wheel.slots r.wheel.nextSlot)
    (hslots : ∀ slot, next.wheel.slots slot =
      if slot = r.wheel.nextSlot then [] else r.wheel.slots slot)
    (hcurrent : next.wheel.currentSlot = r.wheel.nextSlot) (slot : ℕ) :
    next.waiting slot = r.waiting slot := by
  unfold waiting
  rw [hslots, hcurrent, hmoved, hidle]
  by_cases heq : slot = r.wheel.nextSlot
  · simp [heq]
  · simp [heq]

theorem waiting_keep {handle : SlotHandle}
    (hvisited : r.activity.handles = handle :: next.activity.handles)
    (hslots : ∀ slot, next.wheel.slots slot =
      r.wheel.slots slot ++ if slot = r.wheel.currentSlot then [handle] else [])
    (hcurrent : next.wheel.currentSlot = r.wheel.currentSlot) (slot : ℕ) :
    (next.waiting slot).Perm (r.waiting slot) := by
  by_cases heq : slot = r.wheel.currentSlot
  · rw [heq, waiting_current hvisited]
    unfold waiting
    rw [hslots, hcurrent, if_pos rfl, if_pos rfl, ← List.append_assoc]
    exact List.perm_append_singleton ..
  · unfold waiting
    rw [hslots, hcurrent, if_neg heq, if_neg heq, if_neg heq, List.append_nil]

theorem Apart.step (h : r.Apart) (hstep : HandleStep r next) : next.Apart := by
  cases hstep with
  | add timeout id index entry hadded hrecord hhandles => exact h.add hadded hhandles
  | calm hslots hcallback hactive hgeneration hrounds hcancelled hsize hcurrent hhandles hadvances =>
      have hwaiting (slot : ℕ) : next.waiting slot = r.waiting slot := by
        unfold waiting
        rw [hslots, hcurrent, hhandles]
      apply h.of_subperm
      · rw [hcurrent]
        exact h.current
      · intro slot _
        rw [hwaiting]
      · intro slot hslot handle hmem
        rw [hwaiting] at hmem
        rw [hsize, hactive, hgeneration]
        exact h.live slot hslot handle hmem
  | start hidle hmoved hslots hentries hsize hcurrent hadvances =>
      have hwaiting := waiting_start hidle hmoved hslots hcurrent
      have hpositive := h.current
      apply h.of_subperm
      · rw [hcurrent]
        exact Nat.mod_lt _ (by omega)
      · intro slot _
        rw [hwaiting]
      · intro slot hslot handle hmem
        rw [hwaiting] at hmem
        rw [hsize, hentries]
        exact h.live slot hslot handle hmem
  | release handle hvisited hwheel hadvances =>
      have hcurrent : next.wheel.currentSlot = r.wheel.currentSlot := by
        rw [hwheel]
        rfl
      have hslots (slot : ℕ) : next.wheel.slots slot = r.wheel.slots slot := by
        rw [hwheel]
        rfl
      have hcases {slot : ℕ} {other : SlotHandle} (hmem : other ∈ next.waiting slot) :
          other ∈ r.wheel.slots slot ∨ other ∈ next.activity.handles := by
        unfold waiting at hmem
        rw [List.mem_append, hslots] at hmem
        rcases hmem with hmoved | hresting
        · split at hmoved
          · exact .inr hmoved
          · cases hmoved
        · exact .inl hresting
      have hsub (slot : ℕ) : (next.waiting slot).Sublist (r.waiting slot) := by
        unfold waiting
        rw [hslots, hcurrent, hvisited]
        apply List.Sublist.append_right
        split
        · exact List.sublist_cons_self _ _
        · exact List.Sublist.refl _
      apply h.of_subperm
      · rw [hcurrent]
        exact h.current
      · exact fun slot _ => (hsub slot).subperm
      · intro slot hslot other hmem
        have hne := h.handle_ne hvisited hslot (hcases hmem)
        have hsame : (r.wheel.releaseEntry handle.index).entries other.index =
            r.wheel.entries other.index := Function.update_of_ne hne ..
        rw [hwheel, hsame]
        exact h.live slot hslot other ((hsub slot).subset hmem)
  | keep handle hvisited hslots howner hrounds hcount hsize hcurrent hadvances =>
      have hwaiting := waiting_keep hvisited hslots hcurrent
      simp only [EntryData.owner, Prod.mk.injEq] at howner
      apply h.of_subperm
      · rw [hcurrent]
        exact h.current
      · exact fun slot _ => (hwaiting slot).subperm
      · intro slot hslot other hmem
        rw [hsize, (howner _).2.2.1, (howner _).2.1]
        exact h.live slot hslot other ((hwaiting slot).mem_iff.mp hmem)

theorem step_throw (hstep : r.step .throw = some next) : next = { r with activity := .idle } := by
  cases hactivity : r.activity <;>
    simp only [step, hactivity, reduceCtorEq, Option.some.injEq] at hstep
  exact hstep.symm

/-- Handles are apart in every run in which every timer finds an entry. -/
theorem apart_next (h : r.Apart) (hheld : Held r.wheel r.history) {label : TimerLabel}
    (hroomy : r.roomy label = true) (hstep : r.step label = some next) : next.Apart := by
  by_cases hthrow : label = .throw
  · rw [hthrow] at hstep
    rw [step_throw hstep]
    exact h.lose
  · exact h.step (handleStep h hheld hroomy (fun hlabel => absurd hlabel hthrow) hstep)

theorem apart_initial (hslots : 0 < numSlots) (now : ℕ) :
    (initial now : TimerRun numSlots slotMs).Apart := by
  have hnone (slot : ℕ) : (initial now : TimerRun numSlots slotMs).waiting slot = [] := by
    unfold waiting
    split <;> rfl
  refine ⟨hslots, ?_, ?_, ?_⟩
  · intro slot _ handle hmem
    rw [hnone] at hmem
    cases hmem
  · intro slot _
    rw [hnone]
    exact List.nodup_nil
  · intro a _ b _ handle hmem
    rw [hnone] at hmem
    cases hmem

/-! ## Calls to go -/

/-- What holds of every timer that has not been cancelled and of the number of calls of
`advance_slot` after which its handle is visited with no rounds left. -/
structure Scheduled (r : TimerRun numSlots slotMs) (Due : ℕ → ℕ → Prop) : Prop where
  slots : ∀ slot < numSlots, ∀ handle ∈ r.wheel.slots slot, ∀ timer,
    r.wheel.Holds handle.index timer → (r.wheel.entries handle.index).cancelled = false →
      Due timer (distance numSlots r.wheel.currentSlot slot +
        (r.wheel.entries handle.index).remainingRounds * numSlots)
  handles : ∀ handle ∈ r.activity.handles, ∀ timer,
    r.wheel.Holds handle.index timer → (r.wheel.entries handle.index).cancelled = false →
      Due timer ((r.wheel.entries handle.index).remainingRounds * numSlots)

/-- Calls of `advance_slot` from `add` on until the callback is run. -/
def reach (numSlots ticks : ℕ) : ℕ :=
  ticks + if numSlots ∣ ticks then numSlots else 0

variable {Due Due' : ℕ → ℕ → Prop}

theorem scheduled_initial (now : ℕ) :
    (initial now : TimerRun numSlots slotMs).Scheduled Due := by
  constructor
  · exact fun _ _ _ hmem => by cases hmem
  · exact fun _ hmem => by cases hmem

theorem Scheduled.lose (h : r.Scheduled Due) (hheld : Held r.wheel r.history)
    (hkeep : ∀ timer togo, timer < r.history.adds → Due timer togo → Due' timer togo) :
    ({ r with activity := .idle } : TimerRun numSlots slotMs).Scheduled Due' := by
  constructor
  · intro slot hslot handle hmem timer hholds hflag
    exact hkeep _ _ (hheld.lt_adds hholds) (h.slots slot hslot handle hmem timer hholds hflag)
  · exact fun _ hmem => by cases hmem

theorem Scheduled.add (h : r.Scheduled Due) (hapart : r.Apart) (hheld : Held r.wheel r.history)
    {timeout : Int64} {index : ℕ} {entry : EntryData}
    (hadded : Added r.wheel next.wheel r.history.adds timeout index entry)
    (hhandles : next.activity.handles = r.activity.handles)
    (hkeep : ∀ timer togo, timer < r.history.adds → Due timer togo → Due' timer togo)
    (hnew : Due' r.history.adds (reach numSlots (WheelTimer.ticks slotMs timeout))) :
    next.Scheduled Due' := by
  have hused {slot : ℕ} (hslot : slot < numSlots) {handle : SlotHandle}
      (hmem : handle ∈ r.waiting slot) : handle.index ≠ index := by
    rintro rfl
    obtain ⟨hlt, hon, -⟩ := hapart.live slot hslot handle hmem
    rw [hadded.fresh hlt] at hon
    cases hon
  have hholds {i timer : ℕ} (hne : i ≠ index) (hi : next.wheel.Holds i timer) :
      r.wheel.Holds i timer := by
    unfold WheelTimer.Holds at hi
    rw [hadded.entries, Function.update_of_ne hne, hadded.size] at hi
    exact ⟨hi.1.resolve_right hne, hi.2⟩
  constructor
  · intro slot hslot handle hmem timer hi hflag
    rw [hadded.slots, List.mem_append] at hmem
    rw [hadded.entries] at hflag ⊢
    rw [hadded.current]
    rcases hmem with hold | hnewest
    · have hne := hused hslot (mem_waiting_slots hold)
      have hbefore := hholds hne hi
      rw [Function.update_of_ne hne] at hflag ⊢
      exact hkeep _ _ (hheld.lt_adds hbefore) (h.slots slot hslot handle hold timer hbefore hflag)
    · split at hnewest
      next heq =>
        rw [List.mem_singleton] at hnewest
        rw [hnewest] at hi ⊢
        have hmine := hi.2.2
        rw [hadded.entries, Function.update_self, hadded.callback] at hmine
        cases hmine
        rw [Function.update_self, hadded.rounds, heq, distance_add hapart.current]
        exact hnew
      · cases hnewest
  · intro handle hmem timer hi hflag
    rw [hhandles] at hmem
    have hne := hused hapart.current (mem_waiting_handles hmem)
    have hbefore := hholds hne hi
    rw [hadded.entries, Function.update_of_ne hne] at hflag ⊢
    exact hkeep _ _ (hheld.lt_adds hbefore) (h.handles handle hmem timer hbefore hflag)

/-- A call of `advance_slot` brings every timer nearer by one, and no other step does. -/
theorem Scheduled.step (h : r.Scheduled Due) (hapart : r.Apart) (hheld : Held r.wheel r.history)
    (hstep : HandleStep r next)
    (hkeep : ∀ timer togo, timer < r.history.adds →
      Due timer (togo + (next.history.advances - r.history.advances)) → Due' timer togo)
    (hnew : ∀ timeout id, next.history = recordAdd timeout id r.wheel r.history →
      Due' r.history.adds (reach numSlots (WheelTimer.ticks slotMs timeout))) :
    next.Scheduled Due' := by
  cases hstep with
  | add timeout id index entry hadded hrecord hhandles =>
      apply h.add hapart hheld hadded hhandles _ (hnew timeout id hrecord)
      intro timer togo htimer hdue
      apply hkeep timer togo htimer
      rw [hrecord]
      simpa [recordAdd] using hdue
  | calm hslots hcallback hactive hgeneration hrounds hcancelled hsize hcurrent hhandles hadvances =>
      have hholds (i timer : ℕ) (hi : next.wheel.Holds i timer) : r.wheel.Holds i timer := by
        unfold WheelTimer.Holds at hi ⊢
        rwa [hsize, hactive, hcallback] at hi
      rw [hadvances, Nat.sub_self] at hkeep
      constructor
      · intro slot hslot handle hmem timer hi hflag
        rw [hslots] at hmem
        rw [hcurrent, hrounds]
        have hbefore := hholds _ _ hi
        exact hkeep _ _ (hheld.lt_adds hbefore)
          (h.slots slot hslot handle hmem timer hbefore (hcancelled _ hflag))
      · intro handle hmem timer hi hflag
        rw [hhandles] at hmem
        rw [hrounds]
        have hbefore := hholds _ _ hi
        exact hkeep _ _ (hheld.lt_adds hbefore)
          (h.handles handle hmem timer hbefore (hcancelled _ hflag))
  | start hidle hmoved hslots hentries hsize hcurrent hadvances =>
      have hpositive := hapart.current
      have hnext : r.wheel.nextSlot < numSlots := Nat.mod_lt _ (by omega)
      have hholds (i timer : ℕ) (hi : next.wheel.Holds i timer) : r.wheel.Holds i timer := by
        unfold WheelTimer.Holds at hi ⊢
        rwa [hentries, hsize] at hi
      rw [hadvances, Nat.add_sub_cancel_left] at hkeep
      constructor
      · intro slot hslot handle hmem timer hi hflag
        rw [hslots] at hmem
        rw [hentries] at hflag ⊢
        rw [hcurrent]
        split at hmem
        · cases hmem
        next hne =>
          have hbefore := hholds _ _ hi
          have hdue := h.slots slot hslot handle hmem timer hbefore hflag
          have hnot : ¬ slot = (r.wheel.currentSlot + 1) % numSlots := hne
          rw [distance_next hapart.current hslot, if_neg hnot, Nat.add_right_comm] at hdue
          exact hkeep _ _ (hheld.lt_adds hbefore) hdue
      · intro handle hmem timer hi hflag
        rw [hmoved] at hmem
        rw [hentries] at hflag ⊢
        have hbefore := hholds _ _ hi
        have hdue := h.slots _ hnext handle hmem timer hbefore hflag
        have hmine : r.wheel.nextSlot = (r.wheel.currentSlot + 1) % numSlots := rfl
        rw [distance_next hapart.current hnext, if_pos hmine, Nat.add_comm] at hdue
        exact hkeep _ _ (hheld.lt_adds hbefore) hdue
  | release handle hvisited hwheel hadvances =>
      have hsame {other : SlotHandle} (hne : other.index ≠ handle.index) :
          (r.wheel.releaseEntry handle.index).entries other.index = r.wheel.entries other.index :=
        Function.update_of_ne hne ..
      rw [hadvances, Nat.sub_self] at hkeep
      constructor
      · intro slot hslot other hmem timer hi hflag
        rw [hwheel] at hmem hi hflag ⊢
        have hne := hapart.handle_ne hvisited hslot (.inl hmem)
        rw [hsame hne] at hflag ⊢
        have hbefore := ((holds_release _ _).mp hi).2
        exact hkeep _ _ (hheld.lt_adds hbefore) (h.slots slot hslot other hmem timer hbefore hflag)
      · intro other hmem timer hi hflag
        rw [hwheel] at hi hflag ⊢
        have hne := hapart.handle_ne hvisited hapart.current (.inr hmem)
        rw [hsame hne] at hflag ⊢
        have hbefore := ((holds_release _ _).mp hi).2
        apply hkeep _ _ (hheld.lt_adds hbefore)
        apply h.handles other _ timer hbefore hflag
        rw [hvisited]
        exact List.mem_cons_of_mem _ hmem
  | keep handle hvisited hslots howner hrounds hcount hsize hcurrent hadvances =>
      have hholds (i timer : ℕ) (hi : next.wheel.Holds i timer) : r.wheel.Holds i timer :=
        (holds_congr (howner i) (by rw [hsize]) timer).mp hi
      have hflags (i : ℕ) : (next.wheel.entries i).cancelled = (r.wheel.entries i).cancelled := by
        have hfields := howner i
        simp only [EntryData.owner, Prod.mk.injEq] at hfields
        exact hfields.2.2.2
      rw [hadvances, Nat.sub_self] at hkeep
      constructor
      · intro slot hslot other hmem timer hi hflag
        rw [hslots, List.mem_append] at hmem
        rw [hflags] at hflag
        rw [hcurrent]
        have hbefore := hholds _ _ hi
        apply hkeep _ _ (hheld.lt_adds hbefore)
        rcases hmem with hold | hback
        · rw [hrounds _ (hapart.handle_ne hvisited hslot (.inl hold))]
          exact h.slots slot hslot other hold timer hbefore hflag
        · split at hback
          next heq =>
            rw [List.mem_singleton] at hback
            rw [hback] at hbefore hflag ⊢
            have hdue := h.handles handle (by rw [hvisited]; exact List.mem_cons_self) timer
              hbefore hflag
            -- a round is a whole turn of the wheel
            rw [heq, distance_self hapart.current, Nat.add_zero, Nat.add_comm, ← Nat.succ_mul,
              Nat.succ_eq_add_one, hcount hflag]
            exact hdue
          · cases hback
      · intro other hmem timer hi hflag
        rw [hflags] at hflag
        have hbefore := hholds _ _ hi
        rw [hrounds _ (hapart.handle_ne hvisited hapart.current (.inr hmem))]
        apply hkeep _ _ (hheld.lt_adds hbefore)
        apply h.handles other _ timer hbefore hflag
        rw [hvisited]
        exact List.mem_cons_of_mem _ hmem

/-! ## Handles are not lost -/

/-- Some handle names the entry. -/
def Tracked (r : TimerRun numSlots slotMs) (index : ℕ) : Prop :=
  ∃ slot < numSlots, ∃ handle ∈ r.waiting slot, handle.index = index

/-- As long as the entry is held it has a handle. -/
theorem tracked_step (hapart : r.Apart) (hstep : HandleStep r next) {index : ℕ}
    {timer : ℕ} (hfound : r.wheel.Holds index timer → r.Tracked index)
    (hholds : next.wheel.Holds index timer) : next.Tracked index := by
  have hmove (hsub : ∀ slot < numSlots, r.waiting slot ⊆ next.waiting slot)
      (hbefore : r.wheel.Holds index timer) : next.Tracked index := by
    obtain ⟨slot, hslot, handle, hmem, hindex⟩ := hfound hbefore
    exact ⟨slot, hslot, handle, hsub slot hslot hmem, hindex⟩
  cases hstep with
  | add timeout id i entry hadded hrecord hhandles =>
      have hwaiting (slot : ℕ) : next.waiting slot = r.waiting slot ++
          if slot = (r.wheel.currentSlot + WheelTimer.ticks slotMs timeout % numSlots) % numSlots
          then [⟨i, entry.generation⟩] else [] := by
        unfold waiting
        rw [hadded.slots, hadded.current, hhandles, List.append_assoc]
      by_cases heq : index = i
      · have htarget : (r.wheel.currentSlot + WheelTimer.ticks slotMs timeout % numSlots) %
            numSlots < numSlots := Nat.mod_lt _ (Nat.zero_lt_of_lt hapart.current)
        refine ⟨_, htarget, ⟨i, entry.generation⟩, ?_, heq.symm⟩
        rw [hwaiting, if_pos rfl]
        exact List.mem_append_right _ (List.mem_singleton_self _)
      · apply hmove
        · intro slot _
          rw [hwaiting]
          exact List.subset_append_left _ _
        · unfold WheelTimer.Holds at hholds
          rw [hadded.entries, Function.update_of_ne heq, hadded.size] at hholds
          exact ⟨hholds.1.resolve_right heq, hholds.2⟩
  | calm hslots hcallback hactive hgeneration hrounds hcancelled hsize hcurrent hhandles hadvances =>
      apply hmove
      · intro slot _
        unfold waiting
        rw [hslots, hcurrent, hhandles]
        exact List.Subset.refl _
      · unfold WheelTimer.Holds at hholds ⊢
        rwa [hsize, hactive, hcallback] at hholds
  | start hidle hmoved hslots hentries hsize hcurrent hadvances =>
      apply hmove
      · intro slot _
        rw [waiting_start hidle hmoved hslots hcurrent]
        exact List.Subset.refl _
      · unfold WheelTimer.Holds at hholds ⊢
        rwa [hentries, hsize] at hholds
  | release handle hvisited hwheel hadvances =>
      rw [hwheel] at hholds
      obtain ⟨hne, hbefore⟩ := (holds_release index timer).mp hholds
      obtain ⟨slot, hslot, other, hmem, hindex⟩ := hfound hbefore
      refine ⟨slot, hslot, other, ?_, hindex⟩
      have hcurrent : next.wheel.currentSlot = r.wheel.currentSlot := by
        rw [hwheel]
        rfl
      have hslots : next.wheel.slots = r.wheel.slots := by
        rw [hwheel]
        rfl
      unfold waiting at hmem ⊢
      rw [hcurrent, hslots]
      rw [hvisited, List.mem_append] at hmem
      rw [List.mem_append]
      apply hmem.imp_left
      intro hmoved
      split at hmoved
      next heq =>
        rw [if_pos heq]
        apply (List.mem_cons.mp hmoved).resolve_left
        rintro rfl
        exact hne hindex.symm
      · cases hmoved
  | keep handle hvisited hslots howner hrounds hcount hsize hcurrent hadvances =>
      apply hmove
      · intro slot _
        exact (waiting_keep hvisited hslots hcurrent slot).symm.subset
      · exact (holds_congr (howner index) (by rw [hsize]) timer).mp hholds

end TimerRun

end Timer
end Katana
