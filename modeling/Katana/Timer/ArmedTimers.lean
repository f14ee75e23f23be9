import Katana.Timer.WheelDeadlines

/-!
# Armed timers

A timer is armed while it is neither invoked nor released nor cancelled.  In a run in
which ids are not used up, `add` arms one timer more, `cancel` with the id of a timer
disarms this timer alone, and in a tick a timer stops being armed only by being invoked.
-/

namespace Katana
namespace Timer

open Library

variable {numSlots slotMs : ℕ}

/-- The timer is going to be invoked unless it is cancelled. -/
def TimerHistory.Armed (h : TimerHistory) (timer : ℕ) : Prop :=
  h.Pending timer ∧ some timer ∉ h.cancelled.map (·.2)

namespace TimerRun

variable {r next : TimerRun numSlots slotMs}

/-- No index and no generation has been given out twice. -/
def Spaced (r : TimerRun numSlots slotMs) : Prop :=
  r.wheel.entriesSize ≤ INDEX_WORD ∧ ∀ i, r.history.reused i < INDEX_WORD - 1

theorem spaced_initial (now : ℕ) : (initial now : TimerRun numSlots slotMs).Spaced := by
  constructor
  · exact Nat.zero_le _
  · intro i
    show 0 < INDEX_WORD - 1
    decide

theorem entriesSize_visited (w : WheelTimer numSlots slotMs) (handle : SlotHandle)
    (compact : Bool) : (w.visited handle compact).entriesSize = w.entriesSize := by
  unfold WheelTimer.visited
  cases w.visit handle compact <;> rfl

theorem entriesSize_add {w : WheelTimer numSlots slotMs} {timeout : Int64} {callback : Option ℕ}
    {result : ℕ × WheelTimer numSlots slotMs} (hadd : w.add timeout callback = some result) :
    result.2.entriesSize = w.entriesSize + if w.freeList = [] then 1 else 0 := by
  unfold WheelTimer.add at hadd
  split at hadd
  · cases hadd
  · cases hadd
    unfold WheelTimer.acquireEntry
    cases w.freeList <;> rfl

theorem reused_visited (handle : SlotHandle) (compact : Bool) (w : WheelTimer numSlots slotMs)
    (h : TimerHistory) : (recordVisit handle compact w h).reused = h.reused := by
  unfold recordVisit
  split <;> rfl

theorem adds_visited (handle : SlotHandle) (compact : Bool) (w : WheelTimer numSlots slotMs)
    (h : TimerHistory) : (recordVisit handle compact w h).adds = h.adds := by
  unfold recordVisit
  split <;> rfl

theorem cancel_entriesSize (id : ℕ) (w : WheelTimer numSlots slotMs) :
    (w.cancel id).2.entriesSize = w.entriesSize := by
  unfold WheelTimer.cancel
  dsimp only
  split_ifs <;> rfl

theorem recordCancel_reused (id : ℕ) (w : WheelTimer numSlots slotMs) (h : TimerHistory) :
    (recordCancel id w h).reused = h.reused := by
  unfold recordCancel
  split <;> rfl

theorem recordCancel_adds (id : ℕ) (w : WheelTimer numSlots slotMs) (h : TimerHistory) :
    (recordCancel id w h).adds = h.adds := by
  unfold recordCancel
  split <;> rfl

theorem startSlot_entriesSize (w : WheelTimer numSlots slotMs) :
    w.startSlot.entriesSize = w.entriesSize := by
  unfold WheelTimer.startSlot
  split <;> rfl

/-- Where ids are not used up behind a step, they were not before it, and the step found
an entry. -/
theorem Spaced.of_step (h : next.Spaced) {label : TimerLabel} (hstep : r.step label = some next) :
    r.Spaced ∧ r.roomy label = true := by
  cases label with
  | add timeout =>
      simp only [step] at hstep
      split at hstep
      next =>
        rw [Option.map_eq_some_iff] at hstep
        rcases hstep with ⟨result, hadd, rfl⟩
        have hsize := entriesSize_add hadd
        have hfits : result.2.entriesSize ≤ INDEX_WORD := h.1
        constructor
        · constructor
          · omega
          · intro i
            exact (recordAdd_reused_le timeout result.1 r.wheel r.history i).trans_lt (h.2 i)
        · unfold roomy
          cases hfree : r.wheel.freeList with
          | nil =>
              rw [if_pos hfree] at hsize
              simp
              omega
          | cons index rest => simp
      next => cases hstep
  | cancel id =>
      simp only [step] at hstep
      split at hstep
      next =>
        cases hstep
        exact ⟨⟨cancel_entriesSize id r.wheel ▸ h.1,
          recordCancel_reused id r.wheel r.history ▸ h.2⟩, rfl⟩
      next => cases hstep
  | tick now =>
      simp only [step] at hstep
      split at hstep <;> cases hstep
      exact ⟨h, rfl⟩
  | throw =>
      simp only [step] at hstep
      split at hstep <;> cases hstep
      exact ⟨h, rfl⟩
  | proceed =>
      simp only [step] at hstep
      split at hstep <;> cases hstep
      next => exact ⟨h, rfl⟩
      next => exact ⟨⟨startSlot_entriesSize r.wheel ▸ h.1, h.2⟩, rfl⟩
      next => exact ⟨h, rfl⟩
      next handle rest compact _ =>
        constructor
        · constructor
          · have hsize : (r.wheel.visited handle compact).entriesSize ≤ INDEX_WORD := h.1
            rwa [entriesSize_visited] at hsize
          · intro i
            have hreused := h.2 i
            dsimp only at hreused
            rwa [reused_visited] at hreused
        · rfl
      next => exact ⟨h, rfl⟩

/-- Entries and reuses are paid for by calls of `add`. -/
theorem entries_le_adds_step (h : r.wheel.entriesSize ≤ r.history.adds ∧
    ∀ i, r.history.reused i ≤ r.history.adds) {label : TimerLabel}
    (hstep : r.step label = some next) : next.wheel.entriesSize ≤ next.history.adds ∧
      ∀ i, next.history.reused i ≤ next.history.adds := by
  cases label with
  | add timeout =>
      simp only [step] at hstep
      split at hstep
      next =>
        rw [Option.map_eq_some_iff] at hstep
        rcases hstep with ⟨result, hadd, rfl⟩
        have hsize := entriesSize_add hadd
        constructor
        · show result.2.entriesSize ≤ r.history.adds + 1
          split at hsize <;> omega
        · intro i
          show (recordAdd timeout result.1 r.wheel r.history).reused i ≤ r.history.adds + 1
          have hbefore := h.2 i
          cases hfree : r.wheel.freeList with
          | nil =>
              rw [recordAdd_reused timeout result.1 hfree]
              omega
          | cons index rest =>
              rw [recordAdd_reused_cons timeout result.1 hfree]
              by_cases heq : i = index
              · subst heq
                simp [hbefore]
              · rw [Function.update_of_ne heq]
                omega
      next => cases hstep
  | cancel id =>
      simp only [step] at hstep
      split at hstep <;> cases hstep
      rw [cancel_entriesSize, recordCancel_reused, recordCancel_adds]
      exact h
  | tick now =>
      simp only [step] at hstep
      split at hstep <;> cases hstep
      exact h
  | throw =>
      simp only [step] at hstep
      split at hstep <;> cases hstep
      exact h
  | proceed =>
      simp only [step] at hstep
      split at hstep <;> cases hstep
      next => exact h
      next =>
        rw [startSlot_entriesSize]
        exact h
      next => exact h
      next =>
        dsimp only
        rw [entriesSize_visited, reused_visited, adds_visited]
        exact h
      next => exact h

theorem spaced_of_adds {now : ℕ} {labels : List TimerLabel} {final : TimerRun numSlots slotMs}
    (hexec : exec step (initial now) labels = some final)
    (hadds : final.history.adds < INDEX_WORD - 1) : final.Spaced := by
  have hstart : (initial now : TimerRun numSlots slotMs).wheel.entriesSize ≤
      (initial now : TimerRun numSlots slotMs).history.adds ∧
      ∀ i, (initial now : TimerRun numSlots slotMs).history.reused i ≤
        (initial now : TimerRun numSlots slotMs).history.adds :=
    ⟨le_rfl, fun _ => le_rfl⟩
  have hkeep := exec_invariant (fun (r : TimerRun numSlots slotMs) _ _ h hstep =>
    entries_le_adds_step h hstep) hstart hexec
  constructor
  · omega
  · exact fun i => (hkeep.2 i).trans_lt hadds

/-- What is known of the timer in a run in which ids are not used up. -/
structure Reliable (r : TimerRun numSlots slotMs) : Prop where
  held : Held r.wheel r.history
  identified : Identified r.wheel r.history
  timely : r.Timely

theorem reliable_initial (hslots : 0 < numSlots) (now : ℕ) :
    (initial now : TimerRun numSlots slotMs).Reliable :=
  ⟨held_initial now, identified_initial now, timely_initial hslots now⟩

theorem Reliable.entryStep (h : r.Reliable) {label : TimerLabel}
    (hstep : r.step label = some next) (hspaced : next.Spaced) :
    EntryStep r.wheel r.history next.wheel next.history :=
  TimerRun.entryStep h.held (hspaced.of_step hstep).2 hstep

theorem Reliable.step (h : r.Reliable) (hpositive : 1 ≤ slotMs) (hword : slotMs < SIZE_WORD)
    {label : TimerLabel} (hthrow : label ≠ .throw) (hstep : r.step label = some next)
    (hspaced : next.Spaced) : next.Reliable := by
  have hentry := h.entryStep hstep hspaced
  have hroomy := (hspaced.of_step hstep).2
  constructor
  · exact h.held.step hentry
  · exact h.identified.step h.held hentry hspaced.2
  · apply h.timely.step h.held hpositive hword _ hstep
    unfold orderly
    rw [hroomy, Bool.true_and]
    cases label <;> first | rfl | exact absurd rfl hthrow

/-- The timer has taken some steps, of which none throws. -/
def Runs (r next : TimerRun numSlots slotMs) : Prop :=
  ∃ labels : List TimerLabel, (∀ label ∈ labels, label ≠ .throw) ∧
    exec step r labels = some next

theorem Runs.refl (r : TimerRun numSlots slotMs) : r.Runs r := by
  refine ⟨[], ?_, ?_⟩
  · simp
  · rw [exec]

theorem Runs.single {label : TimerLabel} (hlabel : label ≠ .throw)
    (hstep : r.step label = some next) : r.Runs next := by
  refine ⟨[label], ?_, ?_⟩
  · intro other hmem
    rw [List.mem_singleton.mp hmem]
    exact hlabel
  · rw [exec_cons]
    exact ⟨next, hstep, rfl⟩

theorem Runs.trans {middle : TimerRun numSlots slotMs} (h : r.Runs middle)
    (h' : middle.Runs next) : r.Runs next := by
  rcases h with ⟨first, hfirst, hexec⟩
  rcases h' with ⟨rest, hrest, hexec'⟩
  refine ⟨first ++ rest, ?_, exec_append.mpr ⟨middle, hexec, hexec'⟩⟩
  intro label hmem
  rcases List.mem_append.mp hmem with hmem | hmem
  · exact hfirst label hmem
  · exact hrest label hmem

/-- What is known of the timer is still known behind its steps. -/
theorem Runs.reliable (h : r.Runs next) (hpositive : 1 ≤ slotMs) (hword : slotMs < SIZE_WORD)
    (hspaced : next.Spaced) : r.Spaced ∧ (r.Reliable → next.Reliable) := by
  rcases h with ⟨labels, hthrow, hexec⟩
  induction labels generalizing r with
  | nil =>
      cases hexec
      exact ⟨hspaced, id⟩
  | cons label rest ih =>
      rcases exec_cons.mp hexec with ⟨r', hstep, hrest⟩
      have hlater := ih (fun other hmem => hthrow other (List.mem_cons_of_mem _ hmem)) hrest
      constructor
      · exact (hlater.1.of_step hstep).1
      · intro hreliable
        apply hlater.2
        exact hreliable.step hpositive hword (hthrow label List.mem_cons_self) hstep hlater.1

/-! ## What the calls arm and disarm -/

/-- What a call of `add` says about the timers. -/
theorem step_add {timeout : Int64} (hstep : r.step (.add timeout) = some next) :
    next.activity = r.activity ∧ ∃ id, next.history.adds = r.history.adds + 1 ∧
      next.history.ids = Function.update r.history.ids r.history.adds id ∧
      next.history.added =
        Function.update r.history.added r.history.adds (r.history.advances, timeout) ∧
      next.history.advances = r.history.advances ∧
      next.history.invoked = r.history.invoked ∧ next.history.released = r.history.released ∧
      next.history.cancelled = r.history.cancelled := by
  simp only [step] at hstep
  split at hstep
  next =>
    rw [Option.map_eq_some_iff] at hstep
    rcases hstep with ⟨result, -, rfl⟩
    exact ⟨rfl, result.1, rfl, rfl, rfl, rfl, rfl, rfl, rfl⟩
  next => cases hstep

theorem Reliable.armed_add (h : r.Reliable) {timeout : Int64}
    (hstep : r.step (.add timeout) = some next) (timer : ℕ) :
    next.history.Armed timer ↔ timer = r.history.adds ∨ r.history.Armed timer := by
  rcases step_add hstep with ⟨-, id, hadds, -, -, -, hinvoked, hreleased, hcancelled⟩
  unfold TimerHistory.Armed TimerHistory.Pending
  rw [hadds, hinvoked, hreleased, hcancelled]
  constructor
  · intro harmed
    by_cases hnew : timer = r.history.adds
    · exact .inl hnew
    · exact .inr ⟨⟨by omega, harmed.1.2⟩, harmed.2⟩
  · intro harmed
    rcases harmed with rfl | harmed
    · constructor
      · constructor
        · exact Nat.lt_succ_self _
        · constructor
          · intro hmem
            exact (h.held.invoked _ hmem).1.false
          · intro hmem
            exact (h.held.released _ hmem).1.false
      · intro hmem
        exact (h.held.cancelled _ hmem).1.false
    · exact ⟨⟨harmed.1.1.trans (Nat.lt_succ_self _), harmed.1.2⟩, harmed.2⟩

/-- What a call of `cancel` says about the timers. -/
theorem step_cancel {id : ℕ} (hstep : r.step (.cancel id) = some next) :
    next.activity = r.activity ∧ next.history = recordCancel id r.wheel r.history := by
  simp only [step] at hstep
  split at hstep <;> cases hstep
  exact ⟨rfl, rfl⟩

/-- An entry that belongs to an armed timer is found by the id of the timer. -/
theorem Reliable.cancel_of_holds (h : r.Reliable) {i timer : ℕ} (hi : r.wheel.Holds i timer) :
    (r.wheel.cancel (r.history.ids timer)).1 = true ∧
      (decodeId (r.history.ids timer)).index = i := by
  have hdecoded : decodeId (r.history.ids timer) = ⟨i, (r.wheel.entries i).generation⟩ := by
    rw [h.identified.holder i timer hi]
    exact decodeId_makeId (hi.1.trans_le h.identified.size) (h.identified.generation_lt hi.1)
  constructor
  · simp [WheelTimer.cancel, hdecoded, not_le.mpr hi.1, hi.2.1]
  · rw [hdecoded]

/-- Whatever `cancel` marks is the timer with the id. -/
theorem Reliable.cancelled_eq (h : r.Reliable) {timer other : ℕ} (htimer : timer < r.history.adds)
    (hdone : (r.wheel.cancel (r.history.ids timer)).1 = true)
    (hother : (r.wheel.entries (decodeId (r.history.ids timer)).index).callback = some other) :
    other = timer := by
  rcases h.identified.decode htimer with ⟨i, hi, generation, -, -, hdecoded⟩
  rw [hdecoded] at hother
  unfold WheelTimer.cancel at hdone
  rw [hdecoded] at hdone
  dsimp only at hdone hother
  rw [if_neg (Nat.not_le.mpr hi)] at hdone
  split at hdone
  next => cases hdone
  next hlive =>
    simp only [Bool.or_eq_true, Bool.not_eq_true', decide_eq_true_eq, not_or,
      Bool.not_eq_false, not_not] at hlive
    have hholds : r.wheel.Holds i other := ⟨hi, hlive.1, hother⟩
    symm
    apply h.identified.holder_eq hholds (h.held.lt_adds hholds) htimer
    rw [hdecoded, hlive.2]

/-- `cancel` with the id of a timer disarms this timer and no other. -/
theorem Reliable.armed_cancel (h : r.Reliable) {timer : ℕ} (htimer : timer < r.history.adds)
    (hstep : r.step (.cancel (r.history.ids timer)) = some next) (other : ℕ) :
    next.history.Armed other ↔ r.history.Armed other ∧ other ≠ timer := by
  rw [(step_cancel hstep).2]
  unfold recordCancel
  split
  next hdone =>
    have hmarked (marked : ℕ) :
        some marked ∈ ((r.history.ids timer,
            (r.wheel.entries (decodeId (r.history.ids timer)).index).callback) ::
              r.history.cancelled).map (·.2) ↔
          (r.wheel.entries (decodeId (r.history.ids timer)).index).callback = some marked ∨
            some marked ∈ r.history.cancelled.map (·.2) := by
      rw [List.map_cons, List.mem_cons, eq_comm]
    unfold TimerHistory.Armed
    rw [hmarked]
    constructor
    · intro harmed
      have hbefore : r.history.Pending other := harmed.1
      refine ⟨⟨hbefore, fun hmem => harmed.2 (.inr hmem)⟩, ?_⟩
      rintro rfl
      rcases h.held.pending other hbefore with ⟨i, hi⟩
      apply harmed.2
      rw [(h.cancel_of_holds hi).2]
      exact .inl hi.2.2
    · intro harmed
      refine ⟨harmed.1.1, fun hmem => ?_⟩
      rcases hmem with hcallback | hmem
      · exact harmed.2 (h.cancelled_eq htimer hdone hcallback)
      · exact harmed.1.2 hmem
  next hfailed =>
    constructor
    · intro harmed
      refine ⟨harmed, ?_⟩
      rintro rfl
      rcases h.held.pending other harmed.1 with ⟨i, hi⟩
      exact hfailed (h.cancel_of_holds hi).1
    · exact fun harmed => harmed.1

theorem cancel_same {id : ℕ} (hstep : r.step (.cancel id) = some next) :
    next.history.adds = r.history.adds ∧ next.history.ids = r.history.ids ∧
      next.history.added = r.history.added ∧ next.history.advances = r.history.advances := by
  rw [(step_cancel hstep).2]
  unfold recordCancel
  split <;> exact ⟨rfl, rfl, rfl, rfl⟩

/-- No id is zero. -/
theorem Reliable.ids_ne_zero (h : r.Reliable) {timer : ℕ} (harmed : r.history.Armed timer) :
    r.history.ids timer ≠ 0 := by
  rcases h.held.pending timer harmed.1 with ⟨i, hi⟩
  rw [h.identified.holder i timer hi, h.identified.generation i hi.1]
  intro hzero
  have hshift : (1 + r.history.reused i) * 2 ^ 32 = 0 := by
    rw [← Nat.shiftLeft_eq]
    exact (Nat.or_eq_zero_iff.mp hzero).1
  omega

/-! ## Timers that were made for something -/

/-- The timers that have been added are still known; `owner` says what each was made for. -/
structure KeepsTimers (r next : TimerRun numSlots slotMs) (owner owner' : ℕ → ℕ) : Prop where
  adds : r.history.adds ≤ next.history.adds
  ids : ∀ timer < r.history.adds, next.history.ids timer = r.history.ids timer
  added : ∀ timer < r.history.adds, next.history.added timer = r.history.added timer
  owner : ∀ timer < r.history.adds, owner' timer = owner timer

theorem KeepsTimers.trans {middle : TimerRun numSlots slotMs} {owner owner' owner'' : ℕ → ℕ}
    (h : KeepsTimers r middle owner owner') (h' : KeepsTimers middle next owner' owner'') :
    KeepsTimers r next owner owner'' := by
  constructor
  · exact h.adds.trans h'.adds
  · intro timer hlt
    rw [h'.ids timer (hlt.trans_le h.adds), h.ids timer hlt]
  · intro timer hlt
    rw [h'.added timer (hlt.trans_le h.adds), h.added timer hlt]
  · intro timer hlt
    rw [h'.owner timer (hlt.trans_le h.adds), h.owner timer hlt]

theorem keepsTimers_of_same {owner : ℕ → ℕ} (hadds : next.history.adds = r.history.adds)
    (hids : next.history.ids = r.history.ids) (hadded : next.history.added = r.history.added) :
    KeepsTimers r next owner owner := by
  constructor
  · exact hadds.ge
  · exact fun timer _ => congrFun hids timer
  · exact fun timer _ => congrFun hadded timer
  · exact fun _ _ => rfl

/-- A timer was added for `key`. -/
structure AddsTimer (r next : TimerRun numSlots slotMs) (owner owner' : ℕ → ℕ) (key id : ℕ)
    (timeout : Int64) : Prop where
  keeps : KeepsTimers r next owner owner'
  adds : next.history.adds = r.history.adds + 1
  id : next.history.ids r.history.adds = id
  owner : owner' r.history.adds = key
  added : next.history.added r.history.adds = (r.history.advances, timeout)
  advances : next.history.advances = r.history.advances
  armed : ∀ timer, next.history.Armed timer ↔ timer = r.history.adds ∨ r.history.Armed timer

theorem Reliable.addsTimer (h : r.Reliable) {timeout : Int64} {owner : ℕ → ℕ} {key : ℕ}
    (hstep : r.step (.add timeout) = some next) :
    AddsTimer r next owner (Function.update owner r.history.adds key) key
      (next.history.ids r.history.adds) timeout := by
  have harmed := h.armed_add hstep
  rcases step_add hstep with ⟨-, id, hadds, hids, hadded, hadvances, -⟩
  constructor
  · constructor
    · rw [hadds]
      exact Nat.le_succ _
    · intro timer hlt
      rw [hids, Function.update_of_ne hlt.ne]
    · intro timer hlt
      rw [hadded, Function.update_of_ne hlt.ne]
    · intro timer hlt
      exact Function.update_of_ne hlt.ne ..
  · exact hadds
  · rfl
  · exact Function.update_self ..
  · rw [hadded, Function.update_self]
  · exact hadvances
  · exact harmed

/-- The timer with the id was disarmed, and no other. -/
structure CancelsTimer (r next : TimerRun numSlots slotMs) (owner : ℕ → ℕ) (id : ℕ) : Prop where
  keeps : KeepsTimers r next owner owner
  adds : next.history.adds = r.history.adds
  advances : next.history.advances = r.history.advances
  armed : ∀ timer, next.history.Armed timer ↔
    r.history.Armed timer ∧ r.history.ids timer ≠ id

theorem Reliable.cancelsTimer (h : r.Reliable) {id : ℕ} {owner : ℕ → ℕ}
    (hnamed : ∃ timer < r.history.adds, r.history.ids timer = id)
    (hstep : r.step (.cancel id) = some next) : CancelsTimer r next owner id := by
  rcases hnamed with ⟨timer, hlt, rfl⟩
  rcases cancel_same hstep with ⟨hadds, hids, hadded, hadvances⟩
  constructor
  · exact keepsTimers_of_same hadds hids hadded
  · exact hadds
  · exact hadvances
  · intro other
    rw [h.armed_cancel hlt hstep]
    constructor
    · intro hother
      refine ⟨hother.1, fun hsame => hother.2 ?_⟩
      exact h.identified.different other hother.1.1.1 timer hlt hsame
    · intro hother
      refine ⟨hother.1, fun hsame => hother.2 ?_⟩
      rw [hsame]

/-- Nothing is cancelled for the id zero. -/
theorem Reliable.cancelsNone (h : r.Reliable) (owner : ℕ → ℕ) : CancelsTimer r r owner 0 := by
  constructor
  · exact keepsTimers_of_same rfl rfl rfl
  · rfl
  · rfl
  · intro timer
    constructor
    · exact fun harmed => ⟨harmed, h.ids_ne_zero harmed⟩
    · exact fun harmed => harmed.1

/-! ## Ticks -/

theorem proceed_same (hstep : r.step .proceed = some next) :
    next.history.adds = r.history.adds ∧ next.history.ids = r.history.ids ∧
      next.history.added = r.history.added := by
  simp only [step] at hstep
  split at hstep <;> cases hstep
  next => exact ⟨rfl, rfl, rfl⟩
  next => exact ⟨rfl, rfl, rfl⟩
  next => exact ⟨rfl, rfl, rfl⟩
  next =>
    dsimp only
    unfold recordVisit
    split <;> exact ⟨rfl, rfl, rfl⟩
  next => exact ⟨rfl, rfl, rfl⟩

/-- What a step of `tick` says about the timers: one that is not armed any more has just
been invoked, and the timer is in its callback. -/
theorem Reliable.armed_proceed (h : r.Reliable) (hstep : r.step .proceed = some next)
    {timer : ℕ} (harmed : r.history.Armed timer) :
    next.history.Armed timer ∨ (∃ left handles compact,
      next.activity = .calling left handles compact) ∧
        next.history.invoked.getLast? = some (timer, r.history.advances) := by
  simp only [TimerRun.step] at hstep
  split at hstep <;> cases hstep
  next => exact .inl harmed
  next => exact .inl harmed
  next => exact .inl harmed
  next left handle rest compact hactivity =>
    dsimp only
    unfold recordVisit
    split
    next fired hvisit hcallback =>
      rw [if_pos hvisit]
      by_cases hsame : timer = fired
      · right
        exact ⟨⟨left, rest, compact, rfl⟩, by rw [List.getLast?_concat, hsame]⟩
      · left
        constructor
        · constructor
          · exact harmed.1.1
          · constructor
            · rw [List.map_append, List.mem_append]
              intro hmem
              rcases hmem with hmem | hmem
              · exact harmed.1.2.1 hmem
              · exact hsame (List.mem_singleton.mp hmem)
            · exact harmed.1.2.2
        · exact harmed.2
    next released hvisit =>
      left
      constructor
      · constructor
        · exact harmed.1.1
        · constructor
          · exact harmed.1.2.1
          · intro hmem
            rcases List.mem_cons.mp hmem with hcallback | hmem
            · -- what is released was cancelled
              have hlive := visit_live (by rw [hvisit]; decide :
                r.wheel.visit handle compact ≠ .stale)
              have hflag := (visit_cancelled (by rw [hvisit]; decide :
                r.wheel.visit handle compact ≠ .stale)).mpr (.inl hvisit)
              have hholds : r.wheel.Holds handle.index timer :=
                ⟨hlive.1, hlive.2.1, hcallback.symm⟩
              exact harmed.2 ((h.held.marked _ _ hholds).mp hflag)
            · exact harmed.1.2.2 hmem
      · exact harmed.2
    next => exact .inl harmed
  next => exact .inl harmed

/-- The steps of `tick` arm nothing. -/
theorem armed_of_proceed (hstep : r.step .proceed = some next) {timer : ℕ}
    (harmed : next.history.Armed timer) : r.history.Armed timer := by
  simp only [step] at hstep
  split at hstep <;> cases hstep
  next => exact harmed
  next => exact harmed
  next => exact harmed
  next =>
    dsimp only at harmed
    unfold recordVisit at harmed
    split at harmed
    next =>
      refine ⟨⟨harmed.1.1, fun hmem => harmed.1.2.1 ?_, harmed.1.2.2⟩, harmed.2⟩
      rw [List.map_append]
      exact List.mem_append_left _ hmem
    next =>
      exact ⟨⟨harmed.1.1, harmed.1.2.1, fun hmem => harmed.1.2.2 (List.mem_cons_of_mem _ hmem)⟩,
        harmed.2⟩
    next => exact harmed
  next => exact harmed

/-- A step of `tick` into a callback invokes an armed timer, and disarms it alone. -/
theorem Reliable.proceed_calling (h : r.Reliable) (hstep : r.step .proceed = some next)
    {left : ℕ} {handles : List SlotHandle} {compact : Bool}
    (hcalling : next.activity = .calling left handles compact) :
    ∃ timer, next.history.invoked = r.history.invoked ++ [(timer, r.history.advances)] ∧
      r.history.Armed timer ∧ next.history.advances = r.history.advances ∧
        ∀ other, next.history.Armed other ↔ r.history.Armed other ∧ other ≠ timer := by
  simp only [TimerRun.step] at hstep
  split at hstep <;> cases hstep
  next => cases hcalling
  next =>
    dsimp only at hcalling
    split at hcalling <;> cases hcalling
  next => cases hcalling
  next left' handle rest compact' _ =>
    dsimp only at hcalling
    split at hcalling
    next hvisit =>
      have hlive := visit_live (by rw [hvisit]; decide :
        r.wheel.visit handle compact' ≠ .stale)
      rcases h.held.owner handle.index hlive.1 hlive.2.1 with ⟨timer, hlt, hcallback⟩
      have hholds : r.wheel.Holds handle.index timer := ⟨hlive.1, hlive.2.1, hcallback⟩
      have hflag : ¬ (r.wheel.entries handle.index).cancelled = true := by
        rw [visit_cancelled (by rw [hvisit]; decide), hvisit]
        decide
      have harmed : r.history.Armed timer := by
        constructor
        · constructor
          · exact hlt
          · constructor
            · exact fun hmem => (h.held.invoked timer hmem).2 _ hholds
            · exact fun hmem => (h.held.released timer hmem).2.2.2 _ hholds
        · exact fun hmem => hflag ((h.held.marked _ _ hholds).mpr hmem)
      have hrecorded : recordVisit handle compact' r.wheel r.history =
          { r.history with
            invoked := r.history.invoked ++ [(timer, r.history.advances)] } := by
        unfold recordVisit
        rw [hvisit, hcallback]
      refine ⟨timer, ?_, harmed, ?_, ?_⟩
      · dsimp only
        rw [hrecorded]
      · dsimp only
        rw [hrecorded]
      · intro other
        dsimp only
        rw [hrecorded]
        unfold TimerHistory.Armed TimerHistory.Pending
        rw [List.map_append, List.mem_append]
        simp only [List.map_cons, List.map_nil, List.mem_singleton]
        tauto
    next => cases hcalling
  next => cases hcalling

/-- Any other step of `tick` disarms nothing. -/
theorem Reliable.proceed_quiet (h : r.Reliable) (hstep : r.step .proceed = some next)
    (hquiet : ∀ left handles compact, next.activity ≠ .calling left handles compact) (timer : ℕ) :
    next.history.Armed timer ↔ r.history.Armed timer := by
  constructor
  · exact armed_of_proceed hstep
  · intro harmed
    rcases h.armed_proceed hstep harmed with hstill | ⟨⟨left, handles, compact, hcalling⟩, -⟩
    · exact hstill
    · exact absurd hcalling (hquiet left handles compact)

/-- An armed timer is still to be invoked. -/
theorem Reliable.finished_lt (h : r.Reliable) {timer : ℕ} (harmed : r.history.Armed timer) :
    r.finished < r.history.fires numSlots slotMs timer := by
  rcases h.held.pending timer harmed.1 with ⟨i, hi⟩
  apply h.timely.finished_lt hi
  rw [← Bool.not_eq_true, h.held.marked i timer hi]
  exact harmed.2

end TimerRun

end Timer
end Katana
