import Katana.Timer.Wheel

/-!
# Entries of the wheel timer

Every timer that was added and has neither been invoked nor released has an entry
of its own.  This holds in every run in which no timer takes a new entry when
there are as many entries as an index can tell apart; and as long as no
generation comes round, no two timers ever have the same id.
-/

namespace Katana
namespace Timer

open Library

variable {numSlots slotMs : ℕ}

/-- The entry belongs to the timer. -/
def WheelTimer.Holds (w : WheelTimer numSlots slotMs) (index timer : ℕ) : Prop :=
  index < w.entriesSize ∧ (w.entries index).active = true ∧
    (w.entries index).callback = some timer

/-- A timer that has been added and neither invoked nor released. -/
def TimerHistory.Pending (h : TimerHistory) (timer : ℕ) : Prop :=
  timer < h.adds ∧ timer ∉ h.invoked.map (·.1) ∧ some timer ∉ h.released

/-- What an entry says besides its rounds. -/
def EntryData.owner (entry : EntryData) : Option ℕ × ℕ × Bool × Bool :=
  (entry.callback, entry.generation, entry.active, entry.cancelled)

/-- What a step does to the entries and to the history of the timers. -/
inductive EntryStep (w : WheelTimer numSlots slotMs) (h : TimerHistory)
    (w' : WheelTimer numSlots slotMs) (h' : TimerHistory) : Prop where
  | quiet (hentries : ∀ i, (w'.entries i).owner = (w.entries i).owner)
      (hsize : w'.entriesSize = w.entriesSize) (hfree : w'.freeList = w.freeList)
      (hhistory : h' = { h with advances := h'.advances })
  | reuse (index : ℕ) (rest : List ℕ) (timeout : Int64) (hfree : w.freeList = index :: rest)
      (hentry : (w'.entries index).owner =
        (some h.adds, WheelTimer.nextGeneration (w.entries index).generation, true,
          (w.entries index).cancelled))
      (hentries : ∀ i, i ≠ index → (w'.entries i).owner = (w.entries i).owner)
      (hsize : w'.entriesSize = w.entriesSize) (hrest : w'.freeList = rest)
      (hhistory : h' = TimerRun.recordAdd timeout
        (makeId ⟨index, WheelTimer.nextGeneration (w.entries index).generation⟩) w h)
  | grow (timeout : Int64) (hfree : w.freeList = []) (hroom : w.entriesSize < INDEX_WORD)
      (hentry : (w'.entries w.entriesSize).owner = (some h.adds, 1, true, false))
      (hentries : ∀ i, i ≠ w.entriesSize → (w'.entries i).owner = (w.entries i).owner)
      (hsize : w'.entriesSize = w.entriesSize + 1) (hrest : w'.freeList = [])
      (hhistory : h' = TimerRun.recordAdd timeout (makeId ⟨w.entriesSize, 1⟩) w h)
  | mark (id index : ℕ) (hid : decodeId id = ⟨index, (w.entries index).generation⟩)
      (hindex : index < w.entriesSize) (hactive : (w.entries index).active = true)
      (hentry : w' = w.setEntry index { w.entries index with cancelled := true })
      (hhistory : h' = { h with
        cancelled := (id, (w.entries index).callback) :: h.cancelled })
  | release (index : ℕ) (hindex : index < w.entriesSize) (hactive : (w.entries index).active = true)
      (hcancelled : (w.entries index).cancelled = true) (hwheel : w' = w.releaseEntry index)
      (hhistory : h' = { h with released := (w.entries index).callback :: h.released })
  | fire (index timer : ℕ) (hindex : index < w.entriesSize)
      (hactive : (w.entries index).active = true)
      (hcancelled : (w.entries index).cancelled = false)
      (hcallback : (w.entries index).callback = some timer) (hwheel : w' = w.releaseEntry index)
      (hhistory : h' = { h with invoked := h.invoked ++ [(timer, h.advances)] })

/-- Every timer that is not over has an entry of its own, and free entries belong
to nobody. -/
structure Held (w : WheelTimer numSlots slotMs) (h : TimerHistory) : Prop where
  freeOnce : w.freeList.Nodup
  free : ∀ i ∈ w.freeList,
    i < w.entriesSize ∧ (w.entries i).active = false ∧ (w.entries i).cancelled = false
  owner : ∀ i < w.entriesSize, (w.entries i).active = true →
    ∃ timer < h.adds, (w.entries i).callback = some timer
  single : ∀ i j timer, w.Holds i timer → w.Holds j timer → i = j
  invoked : ∀ timer ∈ h.invoked.map (·.1), timer < h.adds ∧ ∀ i, ¬ w.Holds i timer
  released : ∀ timer, some timer ∈ h.released →
    timer < h.adds ∧ some timer ∈ h.cancelled.map (·.2) ∧ timer ∉ h.invoked.map (·.1) ∧
      ∀ i, ¬ w.Holds i timer
  once : (h.invoked.map (·.1)).Nodup
  pending : ∀ timer, h.Pending timer → ∃ i, w.Holds i timer
  marked : ∀ i timer, w.Holds i timer →
    ((w.entries i).cancelled = true ↔ some timer ∈ h.cancelled.map (·.2))
  cancelled : ∀ timer, some timer ∈ h.cancelled.map (·.2) →
    timer < h.adds ∧ timer ∉ h.invoked.map (·.1)

theorem held_initial (now : ℕ) :
    Held (TimerRun.initial now : TimerRun numSlots slotMs).wheel {} := by
  constructor
  · exact List.nodup_nil
  · exact fun _ hi => by cases hi
  · exact fun _ hi => absurd hi (Nat.not_lt_zero _)
  · exact fun _ _ _ hi => absurd hi.1 (Nat.not_lt_zero _)
  · exact fun _ ht => by cases ht
  · exact fun _ ht => by cases ht
  · exact List.nodup_nil
  · exact fun _ ht => absurd ht.1 (Nat.not_lt_zero _)
  · exact fun _ _ hi => absurd hi.1 (Nat.not_lt_zero _)
  · exact fun _ ht => by cases ht

section

variable {w w' : WheelTimer numSlots slotMs} {h h' : TimerHistory}

theorem holds_congr {i : ℕ} (howner : (w'.entries i).owner = (w.entries i).owner)
    (hsize : i < w'.entriesSize ↔ i < w.entriesSize) (timer : ℕ) :
    w'.Holds i timer ↔ w.Holds i timer := by
  simp only [EntryData.owner, Prod.mk.injEq] at howner
  simp only [WheelTimer.Holds, howner.1, howner.2.2.1, hsize]

/-- A held timer is neither invoked nor released. -/
theorem Held.not_invoked (hheld : Held w h) {i timer : ℕ} (hi : w.Holds i timer) :
    timer ∉ h.invoked.map (·.1) := by
  intro hmem
  exact (hheld.invoked timer hmem).2 i hi

theorem Held.not_released (hheld : Held w h) {i timer : ℕ} (hi : w.Holds i timer) :
    some timer ∉ h.released := by
  intro hmem
  exact (hheld.released timer hmem).2.2.2 i hi

theorem Held.lt_adds (hheld : Held w h) {i timer : ℕ} (hi : w.Holds i timer) : timer < h.adds := by
  obtain ⟨other, hlt, hcallback⟩ := hheld.owner i hi.1 hi.2.1
  have hsame : some other = some timer := hcallback.symm.trans hi.2.2
  cases hsame
  exact hlt

theorem Held.quiet (hheld : Held w h) (hentries : ∀ i, (w'.entries i).owner = (w.entries i).owner)
    (hsize : w'.entriesSize = w.entriesSize) (hfree : w'.freeList = w.freeList)
    (hhistory : h' = { h with advances := h'.advances }) : Held w' h' := by
  have hholds (i timer : ℕ) : w'.Holds i timer ↔ w.Holds i timer :=
    holds_congr (hentries i) (by rw [hsize]) timer
  have hfields (i : ℕ) : (w'.entries i).callback = (w.entries i).callback ∧
      (w'.entries i).active = (w.entries i).active ∧
      (w'.entries i).cancelled = (w.entries i).cancelled := by
    have howner := hentries i
    simp only [EntryData.owner, Prod.mk.injEq] at howner
    exact ⟨howner.1, howner.2.2.1, howner.2.2.2⟩
  rw [hhistory]
  constructor
  · rw [hfree]
    exact hheld.freeOnce
  · intro i hi
    rw [hfree] at hi
    rw [hsize, (hfields i).2.1, (hfields i).2.2]
    exact hheld.free i hi
  · intro i hi hactive
    rw [hsize] at hi
    rw [(hfields i).2.1] at hactive
    rw [(hfields i).1]
    exact hheld.owner i hi hactive
  · intro i j timer hi hj
    exact hheld.single i j timer ((hholds i timer).mp hi) ((hholds j timer).mp hj)
  · simp only [hholds]
    exact hheld.invoked
  · simp only [hholds]
    exact hheld.released
  · exact hheld.once
  · simp only [hholds]
    exact hheld.pending
  · intro i timer hi
    rw [(hfields i).2.2]
    exact hheld.marked i timer ((hholds i timer).mp hi)
  · exact hheld.cancelled

/-- A timer takes an entry that belongs to nobody. -/
theorem Held.add (hheld : Held w h) {index generation : ℕ}
    (hnobody : ∀ timer, ¬ w.Holds index timer)
    (hentry : (w'.entries index).owner = (some h.adds, generation, true, false))
    (hentries : ∀ i, i ≠ index → (w'.entries i).owner = (w.entries i).owner)
    (hsize : ∀ i, i < w'.entriesSize ↔ i < w.entriesSize ∨ i = index)
    (hfreeOnce : w'.freeList.Nodup) (hfree : ∀ i ∈ w'.freeList, i ∈ w.freeList ∧ i ≠ index)
    (hadds : h'.adds = h.adds + 1) (hinvoked : h'.invoked = h.invoked)
    (hreleased : h'.released = h.released) (hcancelled : h'.cancelled = h.cancelled) :
    Held w' h' := by
  simp only [EntryData.owner, Prod.mk.injEq] at hentry
  have hholds (i timer : ℕ) :
      w'.Holds i timer ↔ i = index ∧ timer = h.adds ∨ i ≠ index ∧ w.Holds i timer := by
    by_cases heq : i = index
    · have hlt : index < w'.entriesSize := (hsize index).mpr (.inr rfl)
      simp only [heq, WheelTimer.Holds, hlt, hentry.1, hentry.2.2.1, Option.some.injEq, true_and,
        ne_eq, not_true_eq_false, false_and, or_false]
      exact eq_comm
    · rw [holds_congr (hentries i heq) (by rw [hsize]; simp [heq])]
      simp [heq]
  have hfields {i : ℕ} (hne : i ≠ index) : (w'.entries i).callback = (w.entries i).callback ∧
      (w'.entries i).active = (w.entries i).active ∧
      (w'.entries i).cancelled = (w.entries i).cancelled := by
    have howner := hentries i hne
    simp only [EntryData.owner, Prod.mk.injEq] at howner
    exact ⟨howner.1, howner.2.2.1, howner.2.2.2⟩
  have hnew {timer : ℕ} (hlt : timer < h.adds) {i : ℕ} (hi : w'.Holds i timer) :
      w.Holds i timer := by
    rcases (hholds i timer).mp hi with ⟨-, heq⟩ | ⟨-, hold⟩
    · omega
    · exact hold
  constructor
  · exact hfreeOnce
  · intro i hi
    obtain ⟨hmem, hne⟩ := hfree i hi
    obtain ⟨hlt, hactive, hflag⟩ := hheld.free i hmem
    rw [hsize, (hfields hne).2.1, (hfields hne).2.2]
    exact ⟨.inl hlt, hactive, hflag⟩
  · intro i hi hactive
    by_cases heq : i = index
    · rw [heq, hentry.1, hadds]
      exact ⟨h.adds, Nat.lt_succ_self _, rfl⟩
    · have hlt : i < w.entriesSize := by
        rcases (hsize i).mp hi with hlt | hsame
        · exact hlt
        · exact absurd hsame heq
      rw [(hfields heq).2.1] at hactive
      obtain ⟨timer, hbelow, hcallback⟩ := hheld.owner i hlt hactive
      rw [(hfields heq).1, hadds]
      exact ⟨timer, hbelow.trans (Nat.lt_succ_self _), hcallback⟩
  · intro i j timer hi hj
    rcases (hholds i timer).mp hi with ⟨hi, htimer⟩ | ⟨-, hi⟩
    · rcases (hholds j timer).mp hj with ⟨hj, -⟩ | ⟨-, hj⟩
      · rw [hi, hj]
      · have := hheld.lt_adds hj
        omega
    · rcases (hholds j timer).mp hj with ⟨-, htimer⟩ | ⟨-, hj⟩
      · have := hheld.lt_adds hi
        omega
      · exact hheld.single i j timer hi hj
  · rw [hinvoked, hadds]
    intro timer hmem
    obtain ⟨hlt, hnot⟩ := hheld.invoked timer hmem
    exact ⟨hlt.trans (Nat.lt_succ_self _), fun i hi => hnot i (hnew hlt hi)⟩
  · rw [hinvoked, hreleased, hcancelled, hadds]
    intro timer hmem
    obtain ⟨hlt, hmarked, hinvoked, hnot⟩ := hheld.released timer hmem
    exact ⟨hlt.trans (Nat.lt_succ_self _), hmarked, hinvoked, fun i hi => hnot i (hnew hlt hi)⟩
  · rw [hinvoked]
    exact hheld.once
  · intro timer hpending
    unfold TimerHistory.Pending at hpending
    rw [hadds, hinvoked, hreleased] at hpending
    by_cases heq : timer = h.adds
    · exact ⟨index, (hholds index timer).mpr (.inl ⟨rfl, heq⟩)⟩
    · have hlt : timer < h.adds := by omega
      obtain ⟨i, hi⟩ := hheld.pending timer ⟨hlt, hpending.2⟩
      have hne : i ≠ index := by
        rintro rfl
        exact hnobody timer hi
      exact ⟨i, (hholds i timer).mpr (.inr ⟨hne, hi⟩)⟩
  · intro i timer hi
    rw [hcancelled]
    rcases (hholds i timer).mp hi with ⟨hindex, htimer⟩ | ⟨hne, hold⟩
    · -- a new timer has not been cancelled
      rw [hindex, hentry.2.2.2, htimer]
      constructor
      · exact fun hfalse => by cases hfalse
      · exact fun hmem => absurd (hheld.cancelled _ hmem).1 (lt_irrefl _)
    · rw [(hfields hne).2.2]
      exact hheld.marked i timer hold
  · rw [hinvoked, hcancelled, hadds]
    intro timer hmem
    obtain ⟨hlt, hnot⟩ := hheld.cancelled timer hmem
    exact ⟨hlt.trans (Nat.lt_succ_self _), hnot⟩

theorem holds_release {index : ℕ} (i timer : ℕ) :
    (w.releaseEntry index).Holds i timer ↔ i ≠ index ∧ w.Holds i timer := by
  unfold WheelTimer.Holds WheelTimer.releaseEntry
  by_cases heq : i = index
  · simp [heq]
  · simp [heq]

/-- The entry of a timer that is over is given back. -/
theorem Held.release (hheld : Held w h) {index timer : ℕ} (hholds : w.Holds index timer)
    (hadds : h'.adds = h.adds) (hcancelled : h'.cancelled = h.cancelled)
    (hover : h'.invoked.map (·.1) = h.invoked.map (·.1) ++ [timer] ∧
        h'.released = h.released ∧ (w.entries index).cancelled = false ∨
      h'.invoked = h.invoked ∧ h'.released = some timer :: h.released ∧
        (w.entries index).cancelled = true) : Held (w.releaseEntry index) h' := by
  have hlt := hheld.lt_adds hholds
  have hmarked := hheld.marked index timer hholds
  have hothers (other : ℕ) (i : ℕ) (hi : (w.releaseEntry index).Holds i other) : other ≠ timer := by
    rintro rfl
    obtain ⟨hne, hold⟩ := (holds_release i other).mp hi
    exact hne (hheld.single i index other hold hholds)
  have hentries {i : ℕ} (hne : i ≠ index) : (w.releaseEntry index).entries i = w.entries i :=
    Function.update_of_ne hne ..
  have hinvokedIff (other : ℕ) (hne : other ≠ timer) :
      other ∈ h'.invoked.map (·.1) ↔ other ∈ h.invoked.map (·.1) := by
    rcases hover with ⟨hinvoked, -⟩ | ⟨hinvoked, -⟩
    · rw [hinvoked]
      simp [hne]
    · rw [hinvoked]
  constructor
  · apply List.nodup_cons.mpr
    refine ⟨?_, hheld.freeOnce⟩
    intro hmem
    have hactive := (hheld.free index hmem).2.1
    rw [hholds.2.1] at hactive
    cases hactive
  · intro i hi
    by_cases heq : i = index
    · rw [heq]
      refine ⟨hholds.1, ?_⟩
      simp [WheelTimer.releaseEntry]
    · rw [hentries heq]
      exact hheld.free i ((List.mem_cons.mp hi).resolve_left heq)
  · intro i hi hactive
    by_cases heq : i = index
    · simp [heq, WheelTimer.releaseEntry] at hactive
    · rw [hentries heq] at hactive ⊢
      rw [hadds]
      exact hheld.owner i hi hactive
  · intro i j other hi hj
    exact hheld.single i j other ((holds_release i other).mp hi).2 ((holds_release j other).mp hj).2
  · intro other hmem
    rw [hadds]
    by_cases heq : other = timer
    · rw [heq]
      exact ⟨hlt, fun i hi => hothers timer i hi rfl⟩
    · obtain ⟨hbelow, hnot⟩ := hheld.invoked other ((hinvokedIff other heq).mp hmem)
      exact ⟨hbelow, fun i hi => hnot i ((holds_release i other).mp hi).2⟩
  · intro other hmem
    rw [hadds, hcancelled]
    have hold (hmem : some other ∈ h.released) (hne : other ≠ timer) :
        other < h.adds ∧ some other ∈ h.cancelled.map (·.2) ∧ other ∉ h'.invoked.map (·.1) ∧
          ∀ i, ¬ (w.releaseEntry index).Holds i other := by
      obtain ⟨hbelow, hcancelled, hinvoked, hnot⟩ := hheld.released other hmem
      refine ⟨hbelow, hcancelled, ?_, fun i hi => hnot i ((holds_release i other).mp hi).2⟩
      rwa [hinvokedIff other hne]
    rcases hover with ⟨-, hreleased, -⟩ | ⟨hinvoked, hreleased, hflag⟩
    · rw [hreleased] at hmem
      apply hold hmem
      rintro rfl
      exact hheld.not_released hholds hmem
    · rw [hreleased, List.mem_cons] at hmem
      by_cases heq : other = timer
      · rw [heq, hinvoked]
        exact ⟨hlt, hmarked.mp hflag, hheld.not_invoked hholds, fun i hi => hothers timer i hi rfl⟩
      · exact hold (hmem.resolve_left (by simpa using heq)) heq
  · rcases hover with ⟨hinvoked, -⟩ | ⟨hinvoked, -⟩
    · rw [hinvoked]
      apply List.Nodup.append hheld.once (List.nodup_singleton _)
      intro other hmem hsame
      rw [List.mem_singleton.mp hsame] at hmem
      exact hheld.not_invoked hholds hmem
    · rw [hinvoked]
      exact hheld.once
  · intro other hpending
    obtain ⟨hbelow, hinvoked, hreleased⟩ := hpending
    rw [hadds] at hbelow
    have hne : other ≠ timer := by
      rintro rfl
      rcases hover with ⟨hall, -⟩ | ⟨-, hall, -⟩
      · exact hinvoked (by simp [hall])
      · exact hreleased (by simp [hall])
    have hpending : h.Pending other := by
      refine ⟨hbelow, fun hmem => hinvoked ((hinvokedIff other hne).mpr hmem), fun hmem => ?_⟩
      apply hreleased
      rcases hover with ⟨-, hall, -⟩ | ⟨-, hall, -⟩
      · rwa [hall]
      · rw [hall]
        exact List.mem_cons_of_mem _ hmem
    obtain ⟨i, hi⟩ := hheld.pending other hpending
    refine ⟨i, (holds_release i other).mpr ⟨?_, hi⟩⟩
    rintro rfl
    exact hne (Option.some_inj.mp (hi.2.2.symm.trans hholds.2.2))
  · intro i other hi
    obtain ⟨hne, hold⟩ := (holds_release i other).mp hi
    rw [hentries hne, hcancelled]
    exact hheld.marked i other hold
  · intro other hmem
    rw [hcancelled] at hmem
    rw [hadds]
    obtain ⟨hbelow, hinvoked⟩ := hheld.cancelled other hmem
    refine ⟨hbelow, ?_⟩
    by_cases heq : other = timer
    · rcases hover with ⟨-, -, hflag⟩ | ⟨hall, -⟩
      · rw [heq] at hmem
        rw [hmarked.mpr hmem] at hflag
        cases hflag
      · rwa [hall]
    · rwa [hinvokedIff other heq]

theorem Held.mark (hheld : Held w h) {id index : ℕ} (hindex : index < w.entriesSize)
    (hactive : (w.entries index).active = true) :
    Held (w.setEntry index { w.entries index with cancelled := true })
      { h with cancelled := (id, (w.entries index).callback) :: h.cancelled } := by
  obtain ⟨timer, hlt, hcallback⟩ := hheld.owner index hindex hactive
  have hmine : w.Holds index timer := ⟨hindex, hactive, hcallback⟩
  have hholds (i other : ℕ) :
      (w.setEntry index { w.entries index with cancelled := true }).Holds i other ↔
        w.Holds i other := by
    unfold WheelTimer.Holds WheelTimer.setEntry
    by_cases heq : i = index
    · simp [heq]
    · simp [heq]
  have hfree : index ∉ w.freeList := by
    intro hmem
    rw [(hheld.free index hmem).2.1] at hactive
    cases hactive
  rw [hcallback]
  constructor
  · exact hheld.freeOnce
  · intro i hi
    have hne : i ≠ index := by
      rintro rfl
      exact hfree hi
    have hsame : (w.setEntry index { w.entries index with cancelled := true }).entries i =
      w.entries i := Function.update_of_ne hne ..
    rw [hsame]
    exact hheld.free i hi
  · intro i hi hon
    by_cases heq : i = index
    · exact ⟨timer, hlt, by simp [heq, WheelTimer.setEntry, hcallback]⟩
    · have hsame : (w.setEntry index { w.entries index with cancelled := true }).entries i =
        w.entries i := Function.update_of_ne heq ..
      rw [hsame] at hon ⊢
      exact hheld.owner i hi hon
  · simp only [hholds]
    exact hheld.single
  · simp only [hholds]
    exact hheld.invoked
  · simp only [hholds]
    intro other hmem
    obtain ⟨hbelow, hcancelled, hrest⟩ := hheld.released other hmem
    exact ⟨hbelow, List.mem_cons_of_mem _ hcancelled, hrest⟩
  · exact hheld.once
  · simp only [hholds]
    exact hheld.pending
  · intro i other hi
    rw [hholds] at hi
    by_cases heq : i = index
    · rw [heq] at hi ⊢
      have hsame : some timer = some other := hcallback.symm.trans hi.2.2
      cases hsame
      simp [WheelTimer.setEntry]
    · have hsame : (w.setEntry index { w.entries index with cancelled := true }).entries i =
        w.entries i := Function.update_of_ne heq ..
      have hne : other ≠ timer := by
        rintro rfl
        exact heq (hheld.single i index other hi hmine)
      rw [hsame, hheld.marked i other hi]
      simp [hne]
  · intro other hmem
    rcases List.mem_cons.mp hmem with hsame | hold
    · cases hsame
      exact ⟨hlt, hheld.not_invoked hmine⟩
    · exact hheld.cancelled other hold

/-- What one step preserves. -/
theorem Held.step (hheld : Held w h) (hstep : EntryStep w h w' h') : Held w' h' := by
  cases hstep with
  | quiet hentries hsize hfree hhistory => exact hheld.quiet hentries hsize hfree hhistory
  | reuse index rest timeout hfree hentry hentries hsize hrest hhistory =>
      have hmem : index ∈ w.freeList := by simp [hfree]
      obtain ⟨hlt, hactive, hflag⟩ := hheld.free index hmem
      have honce := hheld.freeOnce
      rw [hfree, List.nodup_cons] at honce
      rw [hflag] at hentry
      apply hheld.add _ hentry hentries
      · intro i
        rw [hsize]
        constructor
        · exact .inl
        · rintro (hi | rfl)
          · exact hi
          · exact hlt
      · rw [hrest]
        exact honce.2
      · intro i hi
        rw [hrest] at hi
        rw [hfree]
        refine ⟨List.mem_cons_of_mem _ hi, ?_⟩
        rintro rfl
        exact honce.1 hi
      · rw [hhistory]
        rfl
      · rw [hhistory]
        rfl
      · rw [hhistory]
        rfl
      · rw [hhistory]
        rfl
      · intro timer hholds
        have hon := hholds.2.1
        rw [hactive] at hon
        cases hon
  | grow timeout hfree hroom hentry hentries hsize hrest hhistory =>
      apply hheld.add _ hentry hentries
      · intro i
        rw [hsize]
        omega
      · rw [hrest]
        exact List.nodup_nil
      · intro i hi
        rw [hrest] at hi
        cases hi
      · rw [hhistory]
        rfl
      · rw [hhistory]
        rfl
      · rw [hhistory]
        rfl
      · rw [hhistory]
        rfl
      · exact fun timer hholds => absurd hholds.1 (lt_irrefl _)
  | mark id index hid hindex hactive hentry hhistory =>
      rw [hentry, hhistory]
      exact hheld.mark hindex hactive
  | release index hindex hactive hcancelled hwheel hhistory =>
      obtain ⟨timer, -, hcallback⟩ := hheld.owner index hindex hactive
      rw [hwheel, hhistory, hcallback]
      exact hheld.release ⟨hindex, hactive, hcallback⟩ rfl rfl (.inr ⟨rfl, rfl, hcancelled⟩)
  | fire index timer hindex hactive hcancelled hcallback hwheel hhistory =>
      rw [hwheel, hhistory]
      exact hheld.release ⟨hindex, hactive, hcallback⟩ rfl rfl
        (.inl ⟨List.map_append, rfl, hcancelled⟩)

end

/-! ## Ids -/

theorem decodeId_makeId {handle : SlotHandle} (hindex : handle.index < INDEX_WORD)
    (hgeneration : handle.generation < INDEX_WORD) : decodeId (makeId handle) = handle := by
  unfold INDEX_WORD at hindex hgeneration
  unfold decodeId makeId INDEX_WORD
  rw [← Nat.shiftLeft_add_eq_or_of_lt hindex, Nat.shiftLeft_eq, Nat.shiftRight_eq_div_pow,
    show 0xffffffff = 2 ^ 32 - 1 from rfl, Nat.and_two_pow_sub_one_eq_mod]
  rcases handle with ⟨index, generation⟩
  dsimp only at hindex hgeneration ⊢
  rw [SlotHandle.mk.injEq]
  constructor <;> omega

theorem nextGeneration_eq {generation : ℕ} (hlt : generation + 1 < INDEX_WORD) :
    WheelTimer.nextGeneration generation = generation + 1 := by
  unfold WheelTimer.nextGeneration
  rw [Nat.mod_eq_of_lt hlt, if_neg (Nat.succ_ne_zero _)]

/-- The id of a timer names its entry with the generation that the entry had. -/
structure Identified (w : WheelTimer numSlots slotMs) (h : TimerHistory) : Prop where
  size : w.entriesSize ≤ INDEX_WORD
  generation : ∀ i < w.entriesSize, (w.entries i).generation = 1 + h.reused i
  unused : ∀ i, w.entriesSize ≤ i → h.reused i = 0
  bound : ∀ i, h.reused i < INDEX_WORD - 1
  issued : ∀ timer < h.adds, ∃ i < w.entriesSize, ∃ generation ≤ (w.entries i).generation,
    h.ids timer = makeId ⟨i, generation⟩
  holder : ∀ i timer, w.Holds i timer → h.ids timer = makeId ⟨i, (w.entries i).generation⟩
  different : ∀ a < h.adds, ∀ b < h.adds, h.ids a = h.ids b → a = b
  cancelled : ∀ e ∈ h.cancelled, ∃ timer < h.adds, e.2 = some timer ∧
    h.ids timer = makeId (decodeId e.1)

theorem identified_initial (now : ℕ) :
    Identified (TimerRun.initial now : TimerRun numSlots slotMs).wheel {} := by
  constructor
  · exact Nat.zero_le _
  · exact fun _ hi => absurd hi (Nat.not_lt_zero _)
  · exact fun _ _ => rfl
  · exact fun _ => show 0 < INDEX_WORD - 1 by decide
  · exact fun _ ht => absurd ht (Nat.not_lt_zero _)
  · exact fun _ _ hi => absurd hi.1 (Nat.not_lt_zero _)
  · exact fun _ ha => absurd ha (Nat.not_lt_zero _)
  · exact fun _ he => by cases he

section

variable {w w' : WheelTimer numSlots slotMs} {h h' : TimerHistory}

theorem Identified.generation_lt (hids : Identified w h) {i : ℕ} (hi : i < w.entriesSize) :
    (w.entries i).generation < INDEX_WORD := by
  have hgeneration := hids.generation i hi
  have hbound := hids.bound i
  omega

/-- Ids of the timers can be told apart. -/
theorem Identified.decode (hids : Identified w h) {timer : ℕ} (htimer : timer < h.adds) :
    ∃ i < w.entriesSize, ∃ generation ≤ (w.entries i).generation,
      h.ids timer = makeId ⟨i, generation⟩ ∧ decodeId (h.ids timer) = ⟨i, generation⟩ := by
  obtain ⟨i, hi, generation, hle, hid⟩ := hids.issued timer htimer
  have hindex : i < INDEX_WORD := hi.trans_le hids.size
  have hgeneration : generation < INDEX_WORD := hle.trans_lt (hids.generation_lt hi)
  refine ⟨i, hi, generation, hle, hid, ?_⟩
  rw [hid, decodeId_makeId hindex hgeneration]

/-- An id that says what an entry says belongs to the timer of the entry. -/
theorem Identified.holder_eq (hids : Identified w h) {i timer other : ℕ} (hi : w.Holds i timer)
    (htimer : timer < h.adds) (hother : other < h.adds)
    (hid : decodeId (h.ids other) = ⟨i, (w.entries i).generation⟩) : other = timer := by
  obtain ⟨j, -, generation, -, hmade, hdecoded⟩ := hids.decode hother
  apply hids.different other hother timer htimer
  rw [hids.holder i timer hi, hmade, ← hdecoded, hid]

theorem Identified.keep (hids : Identified w h)
    (hgeneration : ∀ i, (w'.entries i).generation = (w.entries i).generation)
    (hholds : ∀ i timer, w'.Holds i timer → w.Holds i timer)
    (hsize : w'.entriesSize = w.entriesSize) (hadds : h'.adds = h.adds) (hnames : h'.ids = h.ids)
    (hreused : h'.reused = h.reused)
    (hcancelled : ∀ e ∈ h'.cancelled, e ∈ h.cancelled ∨ ∃ timer < h.adds, e.2 = some timer ∧
      h.ids timer = makeId (decodeId e.1)) : Identified w' h' := by
  constructor
  · rw [hsize]
    exact hids.size
  · simp only [hsize, hgeneration, hreused]
    exact hids.generation
  · simp only [hsize, hreused]
    exact hids.unused
  · rw [hreused]
    exact hids.bound
  · simp only [hsize, hadds, hnames, hgeneration]
    exact hids.issued
  · intro i timer hi
    rw [hnames, hgeneration]
    exact hids.holder i timer (hholds i timer hi)
  · rw [hadds, hnames]
    exact hids.different
  · rw [hadds, hnames]
    intro e he
    rcases hcancelled e he with hold | hnew
    · exact hids.cancelled e hold
    · exact hnew

/-- A new timer gets an id that no timer had. -/
theorem Identified.add (hids : Identified w h) (hheld : Held w h) {index generation : ℕ}
    (hentry : (w'.entries index).owner = (some h.adds, generation, true, false))
    (hentries : ∀ i, i ≠ index → (w'.entries i).owner = (w.entries i).owner)
    (hsize : ∀ i, i < w'.entriesSize ↔ i < w.entriesSize ∨ i = index)
    (hsmall : w'.entriesSize ≤ INDEX_WORD)
    (hfresh : index < w.entriesSize → (w.entries index).generation < generation)
    (hadds : h'.adds = h.adds + 1)
    (hnames : h'.ids = Function.update h.ids h.adds (makeId ⟨index, generation⟩))
    (hcancelled : h'.cancelled = h.cancelled) (hbound : ∀ i, h'.reused i < INDEX_WORD - 1)
    (hgeneration : generation = 1 + h'.reused index)
    (hreused : ∀ i, i ≠ index → h'.reused i = h.reused i) : Identified w' h' := by
  simp only [EntryData.owner, Prod.mk.injEq] at hentry
  have hmine : (w'.entries index).generation = generation := hentry.2.1
  have hother {i : ℕ} (hne : i ≠ index) : (w'.entries i).generation = (w.entries i).generation := by
    have howner := hentries i hne
    simp only [EntryData.owner, Prod.mk.injEq] at howner
    exact howner.2.1
  have hindex : index < INDEX_WORD := ((hsize index).mpr (.inr rfl)).trans_le hsmall
  have hword : generation < INDEX_WORD := by
    have := hbound index
    omega
  have hold {timer : ℕ} (htimer : timer < h.adds) : h'.ids timer = h.ids timer := by
    rw [hnames, Function.update_of_ne (by omega)]
  have hnew {timer : ℕ} (htimer : timer < h.adds) : h.ids timer ≠ makeId ⟨index, generation⟩ := by
    intro hsame
    obtain ⟨i, hi, g, hle, -, hdecoded⟩ := hids.decode htimer
    rw [hsame, decodeId_makeId hindex hword] at hdecoded
    cases hdecoded
    have := hfresh hi
    omega
  constructor
  · exact hsmall
  · intro i hi
    by_cases heq : i = index
    · rw [heq, hmine, hgeneration]
    · rw [hother heq, hreused i heq]
      exact hids.generation i (((hsize i).mp hi).resolve_right heq)
  · intro i hi
    have hnot := mt (hsize i).mpr (Nat.not_lt.mpr hi)
    rw [not_or] at hnot
    rw [hreused i hnot.2]
    exact hids.unused i (Nat.not_lt.mp hnot.1)
  · exact hbound
  · intro timer htimer
    by_cases heq : timer = h.adds
    · rw [heq, hnames, Function.update_self]
      exact ⟨index, (hsize index).mpr (.inr rfl), generation, hmine.ge, rfl⟩
    · have hlt : timer < h.adds := by omega
      obtain ⟨i, hi, g, hle, hid⟩ := hids.issued timer hlt
      rw [hold hlt]
      refine ⟨i, (hsize i).mpr (.inl hi), g, ?_, hid⟩
      by_cases hsame : i = index
      · rw [hsame] at hi hle ⊢
        have := hfresh hi
        omega
      · rwa [hother hsame]
  · intro i timer hi
    by_cases heq : i = index
    · rw [heq] at hi ⊢
      have htimer : some h.adds = some timer := hentry.1.symm.trans hi.2.2
      cases htimer
      rw [hmine, hnames, Function.update_self]
    · have hbefore : w.Holds i timer :=
        (holds_congr (hentries i heq) (by rw [hsize]; simp [heq]) timer).mp hi
      have hid := hids.holder i timer hbefore
      rw [hother heq, ← hid, hnames]
      exact Function.update_of_ne (hheld.lt_adds hbefore).ne ..
  · intro a ha b hb hsame
    by_cases hlast : a = h.adds
    · by_cases hlast' : b = h.adds
      · rw [hlast, hlast']
      · have hlt : b < h.adds := by omega
        rw [hlast, hold hlt, hnames, Function.update_self] at hsame
        exact absurd hsame.symm (hnew hlt)
    · have hlt : a < h.adds := by omega
      by_cases hlast' : b = h.adds
      · rw [hlast', hold hlt, hnames, Function.update_self] at hsame
        exact absurd hsame (hnew hlt)
      · have hlt' : b < h.adds := by omega
        rw [hold hlt, hold hlt'] at hsame
        exact hids.different a hlt b hlt' hsame
  · rw [hcancelled]
    intro e he
    obtain ⟨timer, hlt, htimer, hid⟩ := hids.cancelled e he
    exact ⟨timer, hadds ▸ hlt.trans (Nat.lt_succ_self _), htimer, (hold hlt).trans hid⟩

theorem recordAdd_reused (timeout : Int64) (id : ℕ) (hfree : w.freeList = []) :
    (TimerRun.recordAdd timeout id w h).reused = h.reused := by
  simp [TimerRun.recordAdd, hfree]

theorem recordAdd_reused_cons (timeout : Int64) (id : ℕ) {index : ℕ} {rest : List ℕ}
    (hfree : w.freeList = index :: rest) : (TimerRun.recordAdd timeout id w h).reused =
      Function.update h.reused index (h.reused index + 1) := by
  simp [TimerRun.recordAdd, hfree]

theorem generation_release (index i : ℕ) :
    ((w.releaseEntry index).entries i).generation = (w.entries i).generation := by
  unfold WheelTimer.releaseEntry
  by_cases heq : i = index
  · simp [heq]
  · simp [heq]

theorem Identified.step (hids : Identified w h) (hheld : Held w h) (hstep : EntryStep w h w' h')
    (hbound : ∀ i, h'.reused i < INDEX_WORD - 1) : Identified w' h' := by
  cases hstep with
  | quiet hentries hsize hfree hhistory =>
      have hgeneration (i : ℕ) : (w'.entries i).generation = (w.entries i).generation := by
        have howner := hentries i
        simp only [EntryData.owner, Prod.mk.injEq] at howner
        exact howner.2.1
      rw [hhistory]
      apply hids.keep hgeneration
      · exact fun i timer => (holds_congr (hentries i) (by rw [hsize]) timer).mp
      · exact hsize
      · rfl
      · rfl
      · rfl
      · exact fun e he => .inl he
  | reuse index rest timeout hfree hentry hentries hsize hrest hhistory =>
      have hmem : index ∈ w.freeList := by simp [hfree]
      obtain ⟨hlt, -, hflag⟩ := hheld.free index hmem
      have hreused : h'.reused = Function.update h.reused index (h.reused index + 1) := by
        rw [hhistory, recordAdd_reused_cons _ _ hfree]
      have hgeneration := hids.generation index hlt
      have hnext : WheelTimer.nextGeneration (w.entries index).generation =
          (w.entries index).generation + 1 := by
        apply nextGeneration_eq
        have := hbound index
        rw [hreused, Function.update_self] at this
        omega
      rw [hnext, hflag] at hentry
      apply hids.add hheld hentry hentries
      · intro i
        rw [hsize]
        constructor
        · exact .inl
        · rintro (hi | rfl)
          · exact hi
          · exact hlt
      · rw [hsize]
        exact hids.size
      · exact fun _ => Nat.lt_succ_self _
      · rw [hhistory]
        rfl
      · rw [hhistory, hnext]
        rfl
      · rw [hhistory]
        rfl
      · exact hbound
      · rw [hreused, Function.update_self, hgeneration]
        omega
      · intro i hne
        rw [hreused, Function.update_of_ne hne]
  | grow timeout hfree hroom hentry hentries hsize hrest hhistory =>
      have hreused : h'.reused = h.reused := by
        rw [hhistory, recordAdd_reused _ _ hfree]
      apply hids.add hheld hentry hentries
      · intro i
        rw [hsize]
        omega
      · rw [hsize]
        exact hroom
      · exact fun hlt => absurd hlt (lt_irrefl _)
      · rw [hhistory]
        rfl
      · rw [hhistory]
        rfl
      · rw [hhistory]
        rfl
      · exact hbound
      · rw [hreused, hids.unused _ le_rfl]
      · exact fun i _ => by rw [hreused]
  | mark id index hid hindex hactive hentry hhistory =>
      have hgeneration (i : ℕ) : (w'.entries i).generation = (w.entries i).generation := by
        rw [hentry]
        unfold WheelTimer.setEntry
        by_cases heq : i = index
        · simp [heq]
        · simp [heq]
      have hholds (i timer : ℕ) (hi : w'.Holds i timer) : w.Holds i timer := by
        rw [hentry] at hi
        unfold WheelTimer.Holds WheelTimer.setEntry at hi
        by_cases heq : i = index
        · rw [heq] at hi ⊢
          simp only [Function.update_self] at hi
          exact hi
        · simp only [Function.update_of_ne heq] at hi
          exact hi
      rw [hhistory]
      apply hids.keep hgeneration hholds
      · rw [hentry]
        rfl
      · rfl
      · rfl
      · rfl
      · intro e he
        rcases List.mem_cons.mp he with rfl | hold
        · obtain ⟨timer, hlt, hcallback⟩ := hheld.owner index hindex hactive
          refine .inr ⟨timer, hlt, hcallback, ?_⟩
          dsimp only
          rw [hid]
          exact hids.holder index timer ⟨hindex, hactive, hcallback⟩
        · exact .inl hold
  | release index hindex hactive hcancelled hwheel hhistory =>
      rw [hwheel, hhistory]
      apply hids.keep (generation_release index)
      · exact fun i timer hi => ((holds_release i timer).mp hi).2
      · rfl
      · rfl
      · rfl
      · rfl
      · exact fun e he => .inl he
  | fire index timer hindex hactive hcancelled hcallback hwheel hhistory =>
      rw [hwheel, hhistory]
      apply hids.keep (generation_release index)
      · exact fun i timer hi => ((holds_release i timer).mp hi).2
      · rfl
      · rfl
      · rfl
      · rfl
      · exact fun e he => .inl he

/-! ## Steps of a run -/

end

namespace TimerRun

variable {r next : TimerRun numSlots slotMs}

/-- No timer takes a new entry that an index cannot tell from another one. -/
def roomy (r : TimerRun numSlots slotMs) : TimerLabel → Bool
  | .add _ => !r.wheel.freeList.isEmpty || r.wheel.entriesSize < INDEX_WORD
  | _ => true

theorem entryStep_add {w : WheelTimer numSlots slotMs} {h : TimerHistory}
    (hroomy : w.freeList = [] → w.entriesSize < INDEX_WORD) {timeout : Int64}
    {result : ℕ × WheelTimer numSlots slotMs} (hadd : w.add timeout (some h.adds) = some result) :
    EntryStep w h result.2 (recordAdd timeout result.1 w h) := by
  unfold WheelTimer.add WheelTimer.acquireEntry at hadd
  cases hfree : w.freeList with
  | nil =>
      have hroom := hroomy hfree
      rw [hfree] at hadd
      simp only [Option.isNone_some, Bool.false_eq_true, if_false, Nat.mod_eq_of_lt hroom] at hadd
      cases hadd
      apply EntryStep.grow timeout hfree hroom
      · simp [WheelTimer.pushHandle, WheelTimer.setEntry, EntryData.owner]
      · intro i hne
        simp [WheelTimer.pushHandle, WheelTimer.setEntry, hne]
      · rfl
      · rfl
      · simp
  | cons index rest =>
      rw [hfree] at hadd
      simp only [Option.isNone_some, Bool.false_eq_true, if_false] at hadd
      cases hadd
      apply EntryStep.reuse index rest timeout hfree
      · simp [WheelTimer.pushHandle, WheelTimer.setEntry, EntryData.owner]
      · intro i hne
        simp [WheelTimer.pushHandle, WheelTimer.setEntry, hne]
      · rfl
      · rfl
      · simp

theorem entryStep_cancel (id : ℕ) (w : WheelTimer numSlots slotMs) (h : TimerHistory) :
    EntryStep w h (w.cancel id).2 (recordCancel id w h) := by
  have hquiet (hfalse : w.cancel id = (false, w)) :
      EntryStep w h (w.cancel id).2 (recordCancel id w h) := by
    unfold recordCancel
    rw [hfalse]
    exact .quiet (fun _ => rfl) rfl rfl rfl
  by_cases hsize : w.entriesSize ≤ (decodeId id).index
  · exact hquiet (by simp [WheelTimer.cancel, hsize])
  by_cases hstale : (!(w.entries (decodeId id).index).active ||
      (w.entries (decodeId id).index).generation ≠ (decodeId id).generation) = true
  · exact hquiet (by simp only [WheelTimer.cancel, if_neg hsize, if_pos hstale])
  · have hdone : w.cancel id = (true, w.setEntry (decodeId id).index
        { w.entries (decodeId id).index with cancelled := true }) := by
      simp only [WheelTimer.cancel, if_neg hsize, if_neg hstale]
    simp only [Bool.or_eq_true, Bool.not_eq_true', decide_eq_true_eq, not_or,
      Bool.not_eq_false, not_not] at hstale
    unfold recordCancel
    rw [hdone]
    apply EntryStep.mark id (decodeId id).index
    · rw [hstale.2]
    · exact Nat.not_le.mp hsize
    · exact hstale.1
    · rfl
    · rfl

/-- What is known of a handle that is not stale. -/
theorem visit_live {w : WheelTimer numSlots slotMs} {handle : SlotHandle} {compact : Bool}
    (hvisit : w.visit handle compact ≠ .stale) : handle.index < w.entriesSize ∧
      (w.entries handle.index).active = true ∧
        (w.entries handle.index).generation = handle.generation := by
  unfold WheelTimer.visit at hvisit
  dsimp only at hvisit
  split_ifs at hvisit with hsize hstale <;> try exact absurd rfl hvisit
  all_goals
    simp only [Bool.or_eq_true, Bool.not_eq_true', decide_eq_true_eq, not_or,
      Bool.not_eq_false, not_not] at hstale
    exact ⟨Nat.not_le.mp hsize, hstale⟩

theorem visit_cancelled {w : WheelTimer numSlots slotMs} {handle : SlotHandle} {compact : Bool}
    (hvisit : w.visit handle compact ≠ .stale) : (w.entries handle.index).cancelled = true ↔
      w.visit handle compact = .release ∨ w.visit handle compact = .keep := by
  unfold WheelTimer.visit at hvisit ⊢
  dsimp only at hvisit ⊢
  split_ifs at hvisit ⊢ with hsize hstale hcancelled <;>
    first
    | exact absurd rfl hvisit
    | simp [hcancelled]

theorem entryStep_visit {w : WheelTimer numSlots slotMs} {h : TimerHistory} (hheld : Held w h)
    (handle : SlotHandle) (compact : Bool) :
    EntryStep w h (w.visited handle compact) (recordVisit handle compact w h) := by
  unfold WheelTimer.visited recordVisit
  cases hvisit : w.visit handle compact with
  | stale => exact .quiet (fun _ => rfl) rfl rfl rfl
  | keep => exact .quiet (fun _ => rfl) rfl rfl rfl
  | count =>
      apply EntryStep.quiet
      · intro i
        unfold WheelTimer.pushHandle WheelTimer.setEntry
        by_cases heq : i = handle.index
        · simp [heq, EntryData.owner]
        · simp [heq]
      · rfl
      · rfl
      · rfl
  | release =>
      have hne : w.visit handle compact ≠ .stale := by simp [hvisit]
      have hlive := visit_live hne
      have hflag := (visit_cancelled hne).mpr (.inl hvisit)
      cases hcallback : (w.entries handle.index).callback <;>
        exact .release handle.index hlive.1 hlive.2.1 hflag rfl (by simp [hcallback])
  | fire =>
      have hne : w.visit handle compact ≠ .stale := by simp [hvisit]
      have hlive := visit_live hne
      have hflag := visit_cancelled hne
      obtain ⟨timer, -, hcallback⟩ := hheld.owner handle.index hlive.1 hlive.2.1
      rw [hcallback]
      exact .fire handle.index timer hlive.1 hlive.2.1 (by simpa [hvisit] using hflag) hcallback rfl rfl

/-- What a step does to the entries. -/
theorem entryStep (hheld : Held r.wheel r.history) {label : TimerLabel}
    (hroomy : r.roomy label = true) (hstep : r.step label = some next) :
    EntryStep r.wheel r.history next.wheel next.history := by
  cases label with
  | add timeout =>
      unfold step at hstep
      dsimp only at hstep
      split at hstep
      · obtain ⟨result, hadd, rfl⟩ := Option.map_eq_some_iff.mp hstep
        apply entryStep_add _ hadd
        intro hfree
        simpa [roomy, hfree] using hroomy
      · cases hstep
  | cancel id =>
      unfold step at hstep
      dsimp only at hstep
      split at hstep
      · cases hstep
        exact entryStep_cancel id r.wheel r.history
      · cases hstep
  | tick now =>
      cases hactivity : r.activity <;> simp only [step, hactivity] at hstep <;> cases hstep
      exact .quiet (fun _ => rfl) rfl rfl rfl
  | throw =>
      unfold step at hstep
      dsimp only at hstep
      split at hstep
      · cases hstep
        exact .quiet (fun _ => rfl) rfl rfl rfl
      · cases hstep
  | proceed =>
      unfold step at hstep
      dsimp only at hstep
      split at hstep
      · cases hstep
      · cases hstep
        exact .quiet (fun _ => rfl) rfl rfl rfl
      · cases hstep
        unfold WheelTimer.startSlot
        dsimp only
        split <;> exact .quiet (fun _ => rfl) rfl rfl rfl
      · cases hstep
        exact .quiet (fun _ => rfl) rfl rfl rfl
      · cases hstep
        exact entryStep_visit hheld ..
      · cases hstep
        exact .quiet (fun _ => rfl) rfl rfl rfl

theorem recordAdd_reused_le (timeout : Int64) (id : ℕ) (w : WheelTimer numSlots slotMs)
    (h : TimerHistory) (i : ℕ) : h.reused i ≤ (recordAdd timeout id w h).reused i := by
  cases hfree : w.freeList with
  | nil => rw [recordAdd_reused timeout id hfree]
  | cons index rest =>
      rw [recordAdd_reused_cons timeout id hfree]
      by_cases heq : i = index
      · simp [heq]
      · simp [heq]

theorem entryStep_reused {w w' : WheelTimer numSlots slotMs} {h h' : TimerHistory}
    (hstep : EntryStep w h w' h') (i : ℕ) : h.reused i ≤ h'.reused i := by
  cases hstep with
  | quiet hentries hsize hfree hhistory => rw [hhistory]
  | reuse index rest timeout hfree hentry hentries hsize hrest hhistory =>
      rw [hhistory]
      exact recordAdd_reused_le ..
  | grow timeout hfree hroom hentry hentries hsize hrest hhistory =>
      rw [hhistory]
      exact recordAdd_reused_le ..
  | mark id index hid hindex hactive hentry hhistory => rw [hhistory]
  | release index hindex hactive hcancelled hwheel hhistory => rw [hhistory]
  | fire index timer hindex hactive hcancelled hcallback hwheel hhistory => rw [hhistory]

/-- Timers are told apart by their ids, and a timer that is over cannot be
reached any more. -/
structure Safe (r : TimerRun numSlots slotMs) : Prop where
  accepted : ∀ timer ∈ r.history.invoked.map (·.1), timer < r.history.adds
  once : (r.history.invoked.map (·.1)).Nodup
  cancelled : ∀ timer < r.history.adds, r.history.ids timer ∈ r.history.cancelled.map (·.1) →
    timer ∉ r.history.invoked.map (·.1)
  different : ∀ a b, r.history.Pending a → r.history.Pending b →
    r.history.ids a = r.history.ids b → a = b
  stale : ∀ timer < r.history.adds, ¬ r.history.Pending timer →
    r.wheel.cancel (r.history.ids timer) = (false, r.wheel)

theorem cancel_stale {w : WheelTimer numSlots slotMs} {h : TimerHistory} (hheld : Held w h)
    (hids : Identified w h) {timer : ℕ} (htimer : timer < h.adds) (hover : ¬ h.Pending timer) :
    w.cancel (h.ids timer) = (false, w) := by
  obtain ⟨i, hi, generation, -, -, hdecoded⟩ := hids.decode htimer
  have hstale : (!(w.entries i).active || (w.entries i).generation ≠ generation) = true := by
    by_contra hlive
    simp only [Bool.or_eq_true, Bool.not_eq_true', decide_eq_true_eq, not_or, Bool.not_eq_false,
      not_not] at hlive
    obtain ⟨other, hother, hcallback⟩ := hheld.owner i hi hlive.1
    have hholds : w.Holds i other := ⟨hi, hlive.1, hcallback⟩
    have hsame : timer = other := by
      apply hids.holder_eq hholds hother htimer
      rw [hdecoded, hlive.2]
    rw [hsame] at hover
    exact hover ⟨hother, hheld.not_invoked hholds, hheld.not_released hholds⟩
  unfold WheelTimer.cancel
  rw [hdecoded]
  dsimp only
  rw [if_neg (Nat.not_le.mpr hi), if_pos hstale]

theorem safe_of_identified (hheld : Held r.wheel r.history) (hids : Identified r.wheel r.history) :
    r.Safe := by
  constructor
  · exact fun timer hmem => (hheld.invoked timer hmem).1
  · exact hheld.once
  · intro timer htimer hmem
    obtain ⟨e, he, hid⟩ := List.mem_map.mp hmem
    obtain ⟨other, hother, hcallback, hmade⟩ := hids.cancelled e he
    obtain ⟨i, -, generation, -, hmade', hdecoded⟩ := hids.decode htimer
    have hsame : timer = other := by
      apply hids.different timer htimer other hother
      rw [hmade, hid, hdecoded, hmade']
    have hmarked : some other ∈ r.history.cancelled.map (·.2) :=
      List.mem_map.mpr ⟨e, he, hcallback⟩
    rw [hsame]
    exact (hheld.cancelled other hmarked).2
  · exact fun a b ha hb hsame => hids.different a ha.1 b hb.1 hsame
  · exact fun timer htimer hover => cancel_stale hheld hids htimer hover

/-- In a run in which every timer finds an entry and no entry is reused until its
generations come round, timers are told apart. -/
theorem exec_safe {now : ℕ} {labels : List TimerLabel} {final : TimerRun numSlots slotMs}
    (hroomy : Along step (fun r label => r.roomy label = true)
      (initial now : TimerRun numSlots slotMs) labels)
    (hexec : exec step (initial now) labels = some final)
    (hreused : ∀ index, final.history.reused index < INDEX_WORD - 1) : final.Safe := by
  have hboth : Held final.wheel final.history ∧
      ((∀ i, final.history.reused i < INDEX_WORD - 1) → Identified final.wheel final.history) := by
    have hkeep : ∀ (r : TimerRun numSlots slotMs) label next,
        (Held r.wheel r.history ∧
          ((∀ i, r.history.reused i < INDEX_WORD - 1) → Identified r.wheel r.history)) →
        r.roomy label = true → r.step label = some next → Held next.wheel next.history ∧
          ((∀ i, next.history.reused i < INDEX_WORD - 1) →
            Identified next.wheel next.history) := by
      intro r label next hgood hlabel hstep
      have hentry := entryStep hgood.1 hlabel hstep
      refine ⟨hgood.1.step hentry, fun hbound => ?_⟩
      have hbefore (i : ℕ) : r.history.reused i < INDEX_WORD - 1 :=
        (entryStep_reused hentry i).trans_lt (hbound i)
      exact (hgood.2 hbefore).step hgood.1 hentry hbound
    exact exec_invariant_along hkeep ⟨held_initial now, fun _ => identified_initial now⟩ hroomy hexec
  exact safe_of_identified hboth.1 (hboth.2 hreused)

/-- An entry is reused at most once in a step. -/
theorem exec_reused_le {labels : List TimerLabel} {final : TimerRun numSlots slotMs}
    (hheld : Held r.wheel r.history)
    (hroomy : Along step (fun r label => r.roomy label = true) r labels)
    (hexec : exec step r labels = some final) (i : ℕ) :
    final.history.reused i ≤ r.history.reused i + labels.length := by
  induction labels generalizing r with
  | nil =>
      cases hexec
      exact le_rfl
  | cons label rest ih =>
      obtain ⟨next, hnext, hrest⟩ := (exec_cons).mp hexec
      have hentry := entryStep hheld hroomy.1 hnext
      have hle := ih (hheld.step hentry) (hroomy.2 next hnext) hrest
      have hone : next.history.reused i ≤ r.history.reused i + 1 := by
        have hadd (timeout : Int64) (id : ℕ) :
            (recordAdd timeout id r.wheel r.history).reused i ≤ r.history.reused i + 1 := by
          cases hfree : r.wheel.freeList with
          | nil => simp [recordAdd_reused timeout id hfree]
          | cons index rest =>
              rw [recordAdd_reused_cons timeout id hfree]
              by_cases heq : i = index
              · simp [heq]
              · simp [heq]
        cases hentry with
        | quiet hentries hsize hfree hhistory =>
            rw [hhistory]
            exact Nat.le_succ _
        | reuse index rest timeout hfree hentry hentries hsize hrest hhistory =>
            rw [hhistory]
            exact hadd ..
        | grow timeout hfree hroom hentry hentries hsize hrest hhistory =>
            rw [hhistory]
            exact hadd ..
        | mark id index hid hindex hactive hentry hhistory =>
            rw [hhistory]
            exact Nat.le_succ _
        | release index hindex hactive hcancelled hwheel hhistory =>
            rw [hhistory]
            exact Nat.le_succ _
        | fire index timer hindex hactive hcancelled hcallback hwheel hhistory =>
            rw [hhistory]
            exact Nat.le_succ _
      rw [List.length_cons]
      omega

/-- Two timers of one tick; the first cancels the second and adds a third, which
takes the entry of the first. -/
def cancellingRun : List TimerLabel :=
  [.add 1, .add 1, .tick 1000000, .proceed, .proceed, .cancel (makeId ⟨1, 1⟩), .add 2, .proceed,
    .proceed, .proceed, .proceed, .cancel (makeId ⟨0, 1⟩)]

theorem exec_safe_cancelling :
    ∃ final : TimerRun 4 1, exec step (initial 0) cancellingRun = some final ∧ final.Safe := by
  have hlast : (exec step (initial 0 : TimerRun 4 1) cancellingRun).isSome = true := by
    decide +kernel
  have hroomy : Along step (fun r label => r.roomy label = true) (initial 0 : TimerRun 4 1)
      cancellingRun := by
    decide +kernel
  cases hexec : exec step (initial 0 : TimerRun 4 1) cancellingRun with
  | none =>
      rw [hexec] at hlast
      cases hlast
  | some final =>
      refine ⟨final, rfl, exec_safe hroomy hexec fun index => ?_⟩
      have hle := exec_reused_le (held_initial 0) hroomy hexec index
      exact hle.trans_lt (show 0 + 12 < INDEX_WORD - 1 by decide)

/-! ## More timers than ids -/

/-- So many timers have been added and nothing else has happened. -/
structure Filled (k : ℕ) (r : TimerRun numSlots slotMs) : Prop where
  idle : r.activity = .idle
  size : r.wheel.entriesSize = k
  free : r.wheel.freeList = []
  generation : 0 < k → (r.wheel.entries 0).generation = 1
  adds : r.history.adds = k
  ids : ∀ timer < k, r.history.ids timer = makeId ⟨timer, 1⟩
  invoked : r.history.invoked = []
  released : r.history.released = []
  reused : ∀ i, r.history.reused i = 0

theorem Filled.add {k : ℕ} (h : r.Filled k) (hk : k < INDEX_WORD) (timeout : Int64) :
    ∃ next, r.step (.add timeout) = some next ∧ next.Filled (k + 1) := by
  have hmod : k % INDEX_WORD = k := Nat.mod_eq_of_lt hk
  have hstep : r.step (.add timeout) = some { r with
      wheel := (WheelTimer.setEntry k
        { callback := some k, remainingRounds := WheelTimer.ticks slotMs timeout / numSlots,
          active := true }
        { r.wheel with
          entries := Function.update r.wheel.entries k {}
          entriesSize := k + 1
          pendingEntries := r.wheel.pendingEntries + 1 }).pushHandle
        ((r.wheel.currentSlot + WheelTimer.ticks slotMs timeout % numSlots) % numSlots) ⟨k, 1⟩
      history := recordAdd timeout (makeId ⟨k, 1⟩) r.wheel r.history } := by
    simp [step, outside, h.idle, WheelTimer.add, WheelTimer.acquireEntry, h.free, h.size, hmod,
      h.adds, WheelTimer.setEntry]
  refine ⟨_, hstep, ?_⟩
  constructor
  · exact h.idle
  · rfl
  · exact h.free
  · intro _
    by_cases hzero : k = 0
    · simp [WheelTimer.pushHandle, WheelTimer.setEntry, hzero]
    · have hne : 0 ≠ k := Ne.symm hzero
      simpa [WheelTimer.pushHandle, WheelTimer.setEntry, hne] using
        h.generation (Nat.pos_of_ne_zero hzero)
  · exact congrArg (· + 1) h.adds
  · intro timer htimer
    dsimp only [recordAdd]
    rw [h.adds]
    by_cases heq : timer = k
    · simp [heq]
    · rw [Function.update_of_ne heq]
      exact h.ids timer (by omega)
  · exact h.invoked
  · exact h.released
  · intro i
    rw [recordAdd_reused _ _ h.free]
    exact h.reused i

theorem Filled.run {k : ℕ} (hk : k ≤ INDEX_WORD) (now : ℕ) (timeout : Int64) :
    ∃ final : TimerRun numSlots slotMs,
      exec step (initial now) (List.replicate k (.add timeout)) = some final ∧ final.Filled k := by
  induction k with
  | zero =>
      refine ⟨initial now, rfl, ?_⟩
      constructor
      · rfl
      · rfl
      · rfl
      · exact fun h => absurd h (lt_irrefl 0)
      · rfl
      · exact fun _ h => absurd h (Nat.not_lt_zero _)
      · rfl
      · rfl
      · exact fun _ => rfl
  | succ k ih =>
      obtain ⟨middle, hmiddle, hfilled⟩ := ih (by omega)
      obtain ⟨final, hfinal, hfilled'⟩ := hfilled.add hk timeout
      refine ⟨final, ?_, hfilled'⟩
      rw [List.replicate_succ', exec_append]
      exact ⟨middle, hmiddle, by simp [exec, hfinal]⟩

/-- The timer that comes after as many as an index can tell apart gets the id of
the first one. -/
theorem Filled.overflow (h : r.Filled INDEX_WORD) (timeout : Int64) :
    ∃ next, r.step (.add timeout) = some next ∧ next.history.Pending 0 ∧
      next.history.Pending INDEX_WORD ∧ next.history.ids 0 = next.history.ids INDEX_WORD ∧
        ∀ i, next.history.reused i = 0 := by
  have hzero : INDEX_WORD % INDEX_WORD = 0 := Nat.mod_self _
  have hpos : 0 < INDEX_WORD := by decide
  have hne : 0 ≠ INDEX_WORD := hpos.ne
  obtain ⟨result, hresult, hid⟩ : ∃ result, r.wheel.add timeout (some r.history.adds) = some result ∧
      result.1 = makeId ⟨0, 1⟩ := by
    refine ⟨_, rfl, ?_⟩
    simp only [WheelTimer.acquireEntry, h.free, h.size, hzero, Function.update_of_ne hne]
    rw [h.generation hpos]
  refine ⟨{ r with
    wheel := result.2
    history := recordAdd timeout result.1 r.wheel r.history }, ?_, ?_, ?_, ?_, ?_⟩
  · simp only [step, outside, h.idle, if_true, hresult, Option.map_some]
  · refine ⟨Nat.succ_pos _, ?_, ?_⟩
    · simp [recordAdd, h.invoked]
    · simp [recordAdd, h.released]
  · refine ⟨h.adds ▸ Nat.lt_succ_self _, ?_, ?_⟩
    · simp [recordAdd, h.invoked]
    · simp [recordAdd, h.released]
  · dsimp only [recordAdd]
    rw [h.adds, Function.update_self, Function.update_of_ne hne, h.ids 0 hpos, hid]
  · intro i
    rw [recordAdd_reused _ _ h.free]
    exact h.reused i

def overflowingRun : List TimerLabel :=
  List.replicate INDEX_WORD (.add 1) ++ [.add 1]

theorem overflowingRun_confuses :
    ∃ final : TimerRun 512 100, exec step (initial 0) overflowingRun = some final ∧
      (∀ index, final.history.reused index < INDEX_WORD - 1) ∧ ¬ final.Safe := by
  obtain ⟨middle, hmiddle, hfilled⟩ := @Filled.run 512 100 INDEX_WORD le_rfl 0 1
  obtain ⟨final, hfinal, hfirst, hlast, hsame, hreused⟩ := hfilled.overflow 1
  refine ⟨final, ?_, ?_, ?_⟩
  · exact (exec_append).mpr ⟨middle, hmiddle, by simp [exec, hfinal]⟩
  · intro index
    rw [hreused]
    decide
  · intro hsafe
    have heq := hsafe.different 0 INDEX_WORD hfirst hlast hsame
    revert heq
    decide

end TimerRun

end Timer
end Katana
