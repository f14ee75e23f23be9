import Katana.Concurrent.RingQueue
import Katana.Library.TicketQueue

/-!
# The ring buffer queue as a ticket queue

While no thread of one algorithm claims a position that a thread of the other
has already claimed, each atomic step of the ring buffer queue is a step of the
ticket queue or leaves it alone.  A thread of the single producer algorithm has
claimed its position before it moves the index, so the end of the ticket queue
may be one ahead of the index.
-/

namespace Katana
namespace Concurrent

open Library RingBufferQueue

/-! ## Capacity -/

/-- Each bit is spread over the places below it, `width` of them. -/
def SpreadOver (n m width : ℕ) : Prop :=
  ∀ i, m.testBit i = true ↔ ∃ d < width, n.testBit (i + d) = true

theorem SpreadOver.double {n m width : ℕ} (h : SpreadOver n m width) :
    SpreadOver n (m ||| m >>> width) (width + width) := by
  intro i
  rw [Nat.testBit_or, Nat.testBit_shiftRight, Bool.or_eq_true, h i, h (width + i)]
  constructor
  · rintro (⟨d, hd, hbit⟩ | ⟨d, hd, hbit⟩)
    · exact ⟨d, by omega, hbit⟩
    · exact ⟨width + d, by omega, by rwa [← Nat.add_assoc, Nat.add_comm i width]⟩
  · rintro ⟨d, hd, hbit⟩
    by_cases hlow : d < width
    · exact .inl ⟨d, hlow, hbit⟩
    · refine .inr ⟨d - width, by omega, ?_⟩
      rwa [show width + i + (d - width) = i + d by omega]

theorem SpreadOver.self (n : ℕ) : SpreadOver n n 1 := by
  intro i
  constructor
  · exact fun hbit => ⟨0, Nat.one_pos, hbit⟩
  · rintro ⟨d, hd, hbit⟩
    rwa [Nat.lt_one_iff.mp hd] at hbit

/-- All bits below the highest one are set. -/
theorem SpreadOver.eq_two_pow {n m : ℕ} (h : SpreadOver n m 64) (hn : n < 2 ^ 64) :
    ∃ k ≤ 64, m + 1 = 2 ^ k ∧ n < 2 ^ k := by
  by_cases hzero : n = 0
  · refine ⟨0, by omega, ?_, by omega⟩
    have hm : m = 0 := by
      apply Nat.eq_of_testBit_eq
      intro i
      rw [Nat.zero_testBit, ← Bool.not_eq_true, h i, hzero]
      simp
    rw [hm]
    rfl
  have hlog : n.log2 < 64 := (Nat.log2_lt hzero).mpr hn
  refine ⟨n.log2 + 1, by omega, ?_, Nat.lt_log2_self⟩
  have hm : m = 2 ^ (n.log2 + 1) - 1 := by
    apply Nat.eq_of_testBit_eq
    intro i
    rw [Nat.testBit_two_pow_sub_one, Bool.eq_iff_iff, h i, decide_eq_true_iff]
    constructor
    · rintro ⟨d, -, hbit⟩
      have := (Nat.le_log2 hzero).mpr (Nat.ge_two_pow_of_testBit hbit)
      omega
    · intro hi
      refine ⟨n.log2 - i, by omega, ?_⟩
      rw [Nat.add_sub_cancel' (by omega)]
      exact Nat.testBit_log2 hzero
  have := Nat.one_le_two_pow (n := n.log2 + 1)
  omega

/-- The rounded number before it is cut to a word. -/
theorem nextPowerOfTwo_rounds {n : ℕ} (hn : n < WORD) :
    ∃ k ≤ 64, nextPowerOfTwo n = 2 ^ k % WORD ∧ n ≤ 2 ^ k ∧ (n ≤ 2 ^ 63 → k ≤ 63) := by
  unfold nextPowerOfTwo
  split
  · exact ⟨0, by omega, rfl, by omega, by omega⟩
  next hzero =>
    have hspread := (SpreadOver.self (n - 1)).double.double.double.double.double.double
    obtain ⟨k, hk, hpow, hlt⟩ := hspread.eq_two_pow (lt_of_le_of_lt (Nat.sub_le n 1) hn)
    dsimp only
    norm_num only at hspread hpow
    refine ⟨k, hk, by rw [hpow], by omega, fun hsmall => ?_⟩
    have hk64 : k ≠ 64 := by
      intro hk64
      have hbit := hspread 63
      rw [Nat.eq_sub_of_add_eq hpow, hk64, Nat.testBit_two_pow_sub_one] at hbit
      obtain ⟨d, -, hd⟩ := hbit.mp rfl
      have hlarge : 2 ^ 63 ≤ 2 ^ (63 + d) := Nat.pow_le_pow_right (by omega) (by omega)
      have := Nat.ge_two_pow_of_testBit hd
      omega
    omega

theorem two_pow_lt_word {k : ℕ} (hk : k ≤ 63) : 2 ^ k < WORD :=
  Nat.pow_lt_pow_right (by omega) (by omega)

/-- Requested capacities up to the greatest power of two are rounded up to one. -/
theorem nextPowerOfTwo_pow {n : ℕ} (hn : n ≤ 2 ^ 63) :
    ∃ k ≤ 63, nextPowerOfTwo n = 2 ^ k ∧ n ≤ 2 ^ k := by
  obtain ⟨k, -, hrounded, hle, hsmall⟩ := nextPowerOfTwo_rounds
    (lt_of_le_of_lt hn (two_pow_lt_word le_rfl))
  refine ⟨k, hsmall hn, ?_, hle⟩
  rw [hrounded, Nat.mod_eq_of_lt (two_pow_lt_word (hsmall hn))]

/-- Above it, the next power of two is no word. -/
theorem nextPowerOfTwo_wraps {n : ℕ} (hn : n < WORD) (hlarge : 2 ^ 63 < n) :
    nextPowerOfTwo n = 0 := by
  obtain ⟨k, hk, hrounded, hle, -⟩ := nextPowerOfTwo_rounds hn
  have hk64 : k = 64 := by
    by_contra hother
    have hpow : 2 ^ k ≤ 2 ^ 63 := Nat.pow_le_pow_right (by omega) (by omega)
    omega
  rw [hrounded, hk64]
  exact Nat.mod_self _

theorem nextPowerOfTwo_eq {n : ℕ} (hn : n < WORD) (hlarge : 2 ≤ nextPowerOfTwo n) :
    ∃ k, nextPowerOfTwo n = 2 ^ k ∧ 0 < k ∧ k ≤ 63 ∧ n ≤ 2 ^ k := by
  have hsmall : n ≤ 2 ^ 63 := by
    by_contra hn63
    rw [nextPowerOfTwo_wraps hn (by omega)] at hlarge
    omega
  obtain ⟨k, hk63, hrounded, hle⟩ := nextPowerOfTwo_pow hsmall
  refine ⟨k, hrounded, ?_, hk63, hle⟩
  rw [Nat.pos_iff_ne_zero]
  rintro rfl
  omega

/-! ## Words -/

theorem slot_eq {k : ℕ} {T : Type*} {q : RingBufferQueue T} (hmask : q.mask + 1 = 2 ^ k) (i : ℕ) :
    q.slot i = i % 2 ^ k := by
  unfold slot
  rw [show q.mask = 2 ^ k - 1 by omega, Nat.and_two_pow_sub_one_eq_mod]

theorem signedDiff_eq_zero {a b : ℕ} (ha : a < WORD) (hb : b < WORD) :
    signedDiff a b = 0 ↔ a = b := by
  have hword : WORD = 2 ^ 64 := rfl
  unfold signedDiff
  split <;> split <;> omega

variable {T : Type*}

/-! ## Claims of the threads -/

def Op.value : Op T → Option T
  | .push value => some value
  | .pop => none

/-- The claim of a thread that stands at this place. -/
def Pc.claim : Pc T → Option (Claim T)
  | .move op index | .spscMove op index => some ⟨op.value, index, false⟩
  | .storeSequence op index | .spscStoreSequence op index => some ⟨op.value, index, true⟩
  | _ => none

/-- The thread has claimed a position that the index does not show yet. -/
def Pc.ahead (side : Side) : Pc T → Bool
  | .spscMove op _ | .spscStoreSequence op _ | .spscStoreIndex op _ => op.side = side
  | _ => false

/-- The position of such a thread. -/
def Pc.aheadAt : Pc T → Option (Side × ℕ)
  | .spscMove op index | .spscStoreSequence op index | .spscStoreIndex op index =>
      some (op.side, index)
  | _ => none

/-- The operation of a thread that has passed the test for its own thread id. -/
def Pc.owner : Pc T → Option Side
  | .choosing .availableOther op => some op.side
  | .spscLoadIndex op | .spscLoadSequence op _ | .spscMove op _ | .spscStoreSequence op _
  | .spscStoreIndex op _ => some op.side
  | _ => none

/-- The index that a thread has loaded and not claimed yet. -/
def Pc.loaded : Pc T → Option (Side × ℕ)
  | .loadSequence op index | .exchange op index => some (op.side, index)
  | _ => none

/-- The operation of a thread that has not moved the index yet. -/
def Pc.unclaimed : Pc T → Option Side
  | .choosing _ op | .loadIndex op | .loadSequence op _ | .exchange op _ | .spscLoadIndex op
  | .spscLoadSequence op _ | .spscMove op _ | .spscStoreSequence op _ | .spscStoreIndex op _ =>
      some op.side
  | _ => none

/-- The operation of a thread that has moved its value and not returned. -/
def Pc.finishing : Pc T → Option (Op T × ℕ)
  | .storeSequence op index | .spscStoreSequence op index | .spscStoreIndex op index =>
      some (op, index)
  | _ => none

def Pc.pending (side : Side) (pc : Pc T) : ℕ :=
  if pc.unclaimed = some side then 1 else 0

/-- A place at which a thread has no claim and is not ahead. -/
structure Pc.Plain (pc : Pc T) : Prop where
  claim : pc.claim = none
  ahead : ∀ side, pc.ahead side = false
  aheadAt : pc.aheadAt = none
  finishing : pc.finishing = none

namespace QueueSystem

/-- Number of claimed positions at one end. -/
def reach (s : QueueSystem T) (side : Side) : ℕ :=
  s.queue.index side + ((s.threads (s.queue.last side)).ahead side).toNat

/-- The step does not claim a position that another thread has claimed: no
exchange succeeds while a thread of the single producer or single consumer
algorithm is ahead of the index, and no such thread goes ahead of an index that
has moved. -/
def apart (s : QueueSystem T) : QueueLabel T → Bool
  | .call _ _ => true
  | .step t spurious =>
      match s.threads t with
      | .exchange op index =>
          spurious || s.queue.index op.side ≠ index ||
            !(s.threads (s.queue.last op.side)).ahead op.side
      | .spscLoadSequence op index =>
          s.queue.sequence (s.queue.slot index) ≠ ready index op.side ||
            s.queue.index op.side = index
      | _ => true

/-- Number of operations that have been started. -/
def operations (s : QueueSystem T) : ℕ :=
  (s.history.calls .producer).length + (s.history.calls .consumer).length

/-! ## Invariant -/

structure Refines (capacity : ℕ) (s : QueueSystem T) (q : TicketQueue T) : Prop where
  head : q.head = s.reach .producer
  tail : q.tail = s.reach .consumer
  sequence : ∀ i < capacity, s.queue.sequence i = (q.cells i).sequence
  storage : q.storage = s.queue.storage
  claims : ∀ t, q.claims t = (s.threads t).claim
  stored : q.stored = s.history.stored
  taken : q.taken = s.history.taken
  released : q.released = s.history.released
  overwritten : q.overwritten = s.history.overwritten

/-- Sequence number for which the operation waits, without wrapping. -/
def awaited (index : ℕ) : Side → ℕ
  | .producer => index
  | .consumer => index + 1

structure Invariant (k : ℕ) (s : QueueSystem T) : Prop where
  mask : s.queue.mask + 1 = 2 ^ k
  refined : ∃ q : TicketQueue T, q.Sound (2 ^ k) ∧ Refines (2 ^ k) s q
  resting : s.threads 0 = .idle
  owner : ∀ t side, (s.threads t).owner = some side → s.queue.last side = t
  aheadAt : ∀ t side i, (s.threads t).aheadAt = some (side, i) → s.queue.index side = i
  loaded : ∀ t side i, (s.threads t).loaded = some (side, i) → i ≤ s.queue.index side
  ready : ∀ t op i, s.threads t = .exchange op i → s.reach op.side = i →
    s.queue.sequence (i % 2 ^ k) = awaited i op.side
  order : ∀ side, (s.history.claimed side).map (·.1) = List.range (s.queue.index side)
  accepted : ∀ e ∈ s.history.accepted, e ∈ s.history.stored
  finishing : ∀ t v i, (s.threads t).finishing = some (.push v, i) → (i, v) ∈ s.history.stored
  counted : ∀ side t, ((s.history.claimed side).map (·.2)).count t + (s.threads t).pending side ≤
    (s.history.calls side).count t

theorem invariant_initial {k : ℕ} {capacity : ℕ} (hcapacity : nextPowerOfTwo capacity = 2 ^ k)
    (fast : Bool) : (QueueSystem.initial capacity fast : QueueSystem T).Invariant k := by
  have hmask : nextPowerOfTwo capacity - 1 + 1 = 2 ^ k := by
    have := Nat.one_le_two_pow (n := k)
    omega
  constructor
  · exact hmask
  · refine ⟨.empty, TicketQueue.sound_empty, ?_⟩
    constructor
    · rfl
    · rfl
    · exact fun _ _ => rfl
    · rfl
    · exact fun _ => rfl
    · rfl
    · rfl
    · rfl
    · rfl
  · rfl
  · exact fun _ _ h => by cases h
  · exact fun _ _ _ h => by cases h
  · exact fun _ _ _ h => by cases h
  · exact fun _ _ _ h => by cases h
  · intro side
    cases side <;> rfl
  · exact fun _ h => by cases h
  · exact fun _ _ _ h => by cases h
  · exact fun _ _ => le_rfl

section

variable {k : ℕ} {s : QueueSystem T}

/-- A thread claims at most once in an operation. -/
theorem Invariant.index_le (h : s.Invariant k) (side : Side) :
    s.queue.index side ≤ (s.history.calls side).length := by
  have hlength : s.queue.index side = ((s.history.claimed side).map (·.2)).length := by
    have horder := congrArg List.length (h.order side)
    rw [List.length_map, List.length_range] at horder
    rw [List.length_map, horder]
  have hle : (((s.history.claimed side).map (·.2) : List ℕ) : Multiset ℕ) ≤
      (s.history.calls side : Multiset ℕ) := by
    rw [Multiset.le_iff_count]
    intro t
    rw [Multiset.coe_count, Multiset.coe_count]
    exact (Nat.le_add_right _ _).trans (h.counted side t)
  rw [hlength]
  simpa using Multiset.card_le_card hle

theorem Invariant.index_lt (h : s.Invariant k) (hfew : s.operations < 2 ^ 63) (side : Side) :
    s.queue.index side < 2 ^ 63 := by
  have hle := h.index_le side
  unfold operations at hfew
  cases side <;> omega

end

/-- The ends of the ring move with the indices and with the threads ahead of
them. -/
theorem reach_eq {s s' : QueueSystem T} {side : Side} {t : ℕ} {pc : Pc T}
    (hthreads : s'.threads = Function.update s.threads t pc)
    (hindex : s'.queue.index side = s.queue.index side)
    (hlast : s'.queue.last side = s.queue.last side)
    (hahead : pc.ahead side = (s.threads t).ahead side) : s'.reach side = s.reach side := by
  unfold reach
  rw [hindex, hlast, hthreads]
  by_cases heq : s.queue.last side = t
  · rw [heq, Function.update_self, hahead]
  · rw [Function.update_of_ne heq]

/-- What holds of every thread holds after one thread has moved, if it holds of
that one. -/
theorem forall_update {α : Type*} {P : ℕ → α → Prop} {threads : ℕ → α} {t : ℕ} {pc : α}
    (hothers : ∀ u, u ≠ t → P u (threads u)) (hpc : P t pc) (u : ℕ) :
    P u (Function.update threads t pc u) := by
  by_cases heq : u = t
  · rw [heq, Function.update_self]
    exact hpc
  · rw [Function.update_of_ne heq]
    exact hothers u heq

/-! ## Steps that leave the ring alone -/

/-- The ring is the same in both queues, and at most the owner of an end has been
set. -/
structure SameRing (t : ℕ) (q q' : RingBufferQueue T) : Prop where
  head : q'.head = q.head
  tail : q'.tail = q.tail
  mask : q'.mask = q.mask
  sequence : q'.sequence = q.sequence
  storage : q'.storage = q.storage
  last : ∀ side, q'.last side = q.last side ∨ q.last side = 0 ∧ q'.last side = t

theorem SameRing.refl (t : ℕ) (q : RingBufferQueue T) : SameRing t q q :=
  ⟨rfl, rfl, rfl, rfl, rfl, fun _ => .inl rfl⟩

theorem SameRing.index {t : ℕ} {q q' : RingBufferQueue T} (h : SameRing t q q') (side : Side) :
    q'.index side = q.index side := by
  cases side
  · exact h.head
  · exact h.tail

theorem Invariant.quiet {k : ℕ} {s : QueueSystem T} (h : s.Invariant k) {t : ℕ} (ht : t ≠ 0)
    {q' : RingBufferQueue T} {pc : Pc T} {calls : Side → List ℕ}
    (hring : SameRing t s.queue q') (hplain : (s.threads t).Plain) (hplain' : pc.Plain)
    (howner : ∀ side, pc.owner = some side → q'.last side = t)
    (hloaded : ∀ side i, pc.loaded = some (side, i) → i ≤ s.queue.index side)
    (hready : ∀ op i, pc = .exchange op i →
      s.queue.sequence (i % 2 ^ k) = awaited i op.side)
    (hcalls : ∀ side u, u ≠ t → (s.history.calls side).count u ≤ (calls side).count u)
    (hcounted : ∀ side, (s.history.calls side).count t + pc.pending side ≤
      (calls side).count t + (s.threads t).pending side) :
    ({ queue := q'
       threads := Function.update s.threads t pc
       history := { s.history with calls := calls } } : QueueSystem T).Invariant k := by
  have hreach (side : Side) : ({ queue := q'
                                 threads := Function.update s.threads t pc
                                 history := { s.history with calls := calls } } :
      QueueSystem T).reach side = s.reach side := by
    rcases hring.last side with hlast | ⟨hzero, hlast⟩
    · exact reach_eq rfl (hring.index side) hlast
        ((hplain'.ahead side).trans (hplain.ahead side).symm)
    · -- the end had no owner, so nobody was ahead, and the owner is not ahead yet
      unfold reach
      dsimp only
      rw [hring.index side, hlast, hzero, Function.update_self, hplain'.ahead, h.resting]
      rfl
  constructor
  · exact (congrArg (· + 1) hring.mask).trans h.mask
  · obtain ⟨q, hsound, hrefines⟩ := h.refined
    refine ⟨q, hsound, ?_⟩
    constructor
    · exact hrefines.head.trans (hreach .producer).symm
    · exact hrefines.tail.trans (hreach .consumer).symm
    · intro i hi
      exact (congrFun hring.sequence i).trans (hrefines.sequence i hi)
    · exact hrefines.storage.trans hring.storage.symm
    · apply forall_update (P := fun u (pc : Pc T) => q.claims u = pc.claim)
      · exact fun u _ => hrefines.claims u
      · rw [hrefines.claims, hplain.claim, hplain'.claim]
    · exact hrefines.stored
    · exact hrefines.taken
    · exact hrefines.released
    · exact hrefines.overwritten
  · exact (Function.update_of_ne ht.symm ..).trans h.resting
  · apply forall_update (P := fun u (pc : Pc T) => ∀ side, pc.owner = some side → q'.last side = u)
    · intro u _ side hu
      have howns := h.owner u side hu
      rcases hring.last side with hlast | ⟨hzero, hlast⟩
      · exact hlast.trans howns
      · -- thread 0 never runs
        rw [← howns, hzero, h.resting] at hu
        cases hu
    · exact howner
  · apply forall_update (P := fun u (pc : Pc T) => ∀ side i, pc.aheadAt = some (side, i) →
      q'.index side = i)
    · intro u _ side i hu
      exact (hring.index side).trans (h.aheadAt u side i hu)
    · intro side i hpc
      rw [hplain'.aheadAt] at hpc
      cases hpc
  · apply forall_update (P := fun u (pc : Pc T) => ∀ side i, pc.loaded = some (side, i) →
      i ≤ q'.index side)
    · intro u _ side i hu
      exact (h.loaded u side i hu).trans (hring.index side).ge
    · intro side i hpc
      exact (hloaded side i hpc).trans (hring.index side).ge
  · intro u op i hu hi
    rw [hreach] at hi
    dsimp only at hu
    refine (congrFun hring.sequence _).trans ?_
    by_cases heq : u = t
    · rw [heq, Function.update_self] at hu
      exact hready op i hu
    · rw [Function.update_of_ne heq] at hu
      exact h.ready u op i hu hi
  · intro side
    exact (h.order side).trans (congrArg List.range (hring.index side).symm)
  · exact h.accepted
  · apply forall_update (P := fun u (pc : Pc T) => ∀ v i, pc.finishing = some (.push v, i) →
      (i, v) ∈ s.history.stored)
    · exact fun u _ => h.finishing u
    · intro v i hpc
      rw [hplain'.finishing] at hpc
      cases hpc
  · intro side
    apply forall_update (P := fun u (pc : Pc T) => ((s.history.claimed side).map (·.2)).count u +
      pc.pending side ≤ (calls side).count u)
    · intro u hu
      exact (h.counted side u).trans (hcalls side u hu)
    · have hbefore := h.counted side t
      have hafter := hcounted side
      omega

/-! ## Steps of the ticket queue -/

/-- The ticket queue behind the state. -/
def Refined (k : ℕ) (s : QueueSystem T) : Prop :=
  ∃ q : TicketQueue T, q.Sound (2 ^ k) ∧ Refines (2 ^ k) s q

theorem two_le_two_pow {k : ℕ} (hk : 0 < k) : 2 ≤ 2 ^ k :=
  le_self_pow₀ (by omega) hk.ne'

section

variable {k : ℕ} {s s' : QueueSystem T} {t : ℕ} {pc : Pc T} {op : Op T}

theorem Refines.claims_update {q : TicketQueue T} {claim : Option (Claim T)}
    (hrefines : Refines (2 ^ k) s q) (hthreads : s'.threads = Function.update s.threads t pc)
    (hclaim : pc.claim = claim) (u : ℕ) :
    Function.update q.claims t claim u = (s'.threads u).claim := by
  rw [hthreads]
  by_cases heq : u = t
  · rw [heq, Function.update_self, Function.update_self, hclaim]
  · rw [Function.update_of_ne heq, Function.update_of_ne heq, hrefines.claims]

theorem Refined.claim (h : s.Refined k) (hk : 0 < k)
    (hready : s.queue.sequence (s.reach op.side % 2 ^ k) = awaited (s.reach op.side) op.side)
    (hthreads : s'.threads = Function.update s.threads t pc)
    (hclaim : pc.claim = some ⟨op.value, s.reach op.side, false⟩)
    (hreach : s'.reach op.side = s.reach op.side + 1)
    (hother : s'.reach op.side.other = s.reach op.side.other)
    (hsequence : s'.queue.sequence = s.queue.sequence)
    (hstorage : s'.queue.storage = s.queue.storage)
    (hstored : s'.history.stored = s.history.stored) (htaken : s'.history.taken = s.history.taken)
    (hreleased : s'.history.released = s.history.released)
    (hoverwritten : s'.history.overwritten = s.history.overwritten) : s'.Refined k := by
  obtain ⟨q, hsound, hrefines⟩ := h
  have hcapacity := two_le_two_pow hk
  have hslot (p : ℕ) : p % 2 ^ k < 2 ^ k := Nat.mod_lt _ (by omega)
  cases op with
  | push v =>
      have hnumber : (q.cells (q.head % 2 ^ k)).sequence = q.head := by
        rw [← hrefines.sequence _ (hslot _), hrefines.head]
        exact hready
      have hcell := hsound.ring.free_of_sequence hcapacity hnumber
      refine ⟨q.claimHead (2 ^ k) t v, hsound.claimHead hcapacity v hnumber, ?_⟩
      constructor
      · exact (congrArg (· + 1) hrefines.head).trans hreach.symm
      · exact hrefines.tail.trans hother.symm
      · intro i hi
        rw [hsequence, hrefines.sequence i hi]
        dsimp only [TicketQueue.claimHead]
        by_cases heq : i = q.head % 2 ^ k
        · rw [heq, hcell, Function.update_self]
          rfl
        · rw [Function.update_of_ne heq]
      · exact hrefines.storage.trans hstorage.symm
      · apply hrefines.claims_update hthreads
        rw [hclaim, hrefines.head]
        rfl
      · exact hrefines.stored.trans hstored.symm
      · exact hrefines.taken.trans htaken.symm
      · exact hrefines.released.trans hreleased.symm
      · exact hrefines.overwritten.trans hoverwritten.symm
  | pop =>
      have hnumber : (q.cells (q.tail % 2 ^ k)).sequence = q.tail + 1 := by
        rw [← hrefines.sequence _ (hslot _), hrefines.tail]
        exact hready
      have hcell := hsound.ring.full_of_sequence hcapacity hnumber
      refine ⟨q.claimTail (2 ^ k) t, hsound.claimTail hcapacity hnumber, ?_⟩
      constructor
      · exact hrefines.head.trans hother.symm
      · exact (congrArg (· + 1) hrefines.tail).trans hreach.symm
      · intro i hi
        rw [hsequence, hrefines.sequence i hi]
        dsimp only [TicketQueue.claimTail]
        by_cases heq : i = q.tail % 2 ^ k
        · rw [heq, hcell, Function.update_self]
          rfl
        · rw [Function.update_of_ne heq]
      · exact hrefines.storage.trans hstorage.symm
      · apply hrefines.claims_update hthreads
        rw [hclaim, hrefines.tail]
        rfl
      · exact hrefines.stored.trans hstored.symm
      · exact hrefines.taken.trans htaken.symm
      · exact hrefines.released.trans hreleased.symm
      · exact hrefines.overwritten.trans hoverwritten.symm

theorem Refined.move {i : ℕ} (h : s.Refined k) (hk : 0 < k) (hmask : s.queue.mask + 1 = 2 ^ k)
    (hbefore : (s.threads t).claim = some ⟨op.value, i, false⟩)
    (hafter : pc.claim = some ⟨op.value, i, true⟩)
    (hthreads : s'.threads = Function.update s.threads t pc)
    (hqueue : s'.queue = (moveValue op i s.queue s.history).1)
    (hhistory : s'.history = (moveValue op i s.queue s.history).2)
    (hreach : ∀ side, s'.reach side = s.reach side) : s'.Refined k := by
  obtain ⟨q, hsound, hrefines⟩ := h
  have hcapacity := two_le_two_pow hk
  have hslot := slot_eq hmask i
  have hclaim := (hrefines.claims t).trans hbefore
  cases op with
  | push v =>
      refine ⟨q.fill (2 ^ k) t v i, hsound.fill hcapacity hclaim, ?_⟩
      constructor
      · exact hrefines.head.trans (hreach .producer).symm
      · exact hrefines.tail.trans (hreach .consumer).symm
      · intro j hj
        rw [hqueue]
        exact hrefines.sequence j hj
      · rw [hqueue]
        dsimp only [TicketQueue.fill, moveValue]
        rw [hslot, hrefines.storage]
      · exact hrefines.claims_update hthreads hafter
      · rw [hhistory]
        exact congrArg (· ++ [(i, v)]) hrefines.stored
      · rw [hhistory]
        exact hrefines.taken
      · rw [hhistory]
        exact hrefines.released
      · rw [hhistory]
        dsimp only [TicketQueue.fill, moveValue]
        rw [hslot, hrefines.storage, hrefines.overwritten]
  | pop =>
      refine ⟨q.drain (2 ^ k) t i, hsound.drain hcapacity hclaim, ?_⟩
      constructor
      · exact hrefines.head.trans (hreach .producer).symm
      · exact hrefines.tail.trans (hreach .consumer).symm
      · intro j hj
        rw [hqueue]
        exact hrefines.sequence j hj
      · rw [hqueue]
        dsimp only [TicketQueue.drain, moveValue]
        rw [hslot, hrefines.storage]
      · exact hrefines.claims_update hthreads hafter
      · rw [hhistory]
        exact hrefines.stored
      · rw [hhistory]
        dsimp only [TicketQueue.drain, moveValue]
        rw [hslot, hrefines.storage, hrefines.taken]
      · rw [hhistory]
        exact hrefines.released
      · rw [hhistory]
        exact hrefines.overwritten

theorem Refined.handOver {i : ℕ} (h : s.Refined k) (hk : 0 < k) (hk63 : k ≤ 63)
    (hi : i < 2 ^ 63) (hmask : s.queue.mask + 1 = 2 ^ k)
    (hbefore : (s.threads t).claim = some ⟨op.value, i, true⟩) (hafter : pc.claim = none)
    (hthreads : s'.threads = Function.update s.threads t pc)
    (hsequence : s'.queue.sequence = (handOver op i s.queue s.history).1.sequence)
    (hstorage : s'.queue.storage = s.queue.storage)
    (hstored : s'.history.stored = s.history.stored) (htaken : s'.history.taken = s.history.taken)
    (hreleased : s'.history.released = (handOver op i s.queue s.history).2.released)
    (hoverwritten : s'.history.overwritten = s.history.overwritten)
    (hreach : ∀ side, s'.reach side = s.reach side) : s'.Refined k := by
  obtain ⟨q, hsound, hrefines⟩ := h
  have hcapacity := two_le_two_pow hk
  have hslot := slot_eq hmask i
  have hword : 2 ^ k ≤ 2 ^ 63 := Nat.pow_le_pow_right (by omega) hk63
  have hclaim := (hrefines.claims t).trans hbefore
  cases op with
  | push v =>
      refine ⟨q.publish (2 ^ k) t i, hsound.publish hcapacity hclaim, ?_⟩
      constructor
      · exact hrefines.head.trans (hreach .producer).symm
      · exact hrefines.tail.trans (hreach .consumer).symm
      · intro j hj
        rw [hsequence]
        dsimp only [TicketQueue.publish, Concurrent.handOver]
        rw [hslot]
        by_cases heq : j = i % 2 ^ k
        · rw [heq, Function.update_self, Function.update_self]
          exact Nat.mod_eq_of_lt (show i + 1 < 2 ^ 64 by omega)
        · rw [Function.update_of_ne heq, Function.update_of_ne heq]
          exact hrefines.sequence j hj
      · exact hrefines.storage.trans hstorage.symm
      · exact hrefines.claims_update hthreads hafter
      · exact hrefines.stored.trans hstored.symm
      · exact hrefines.taken.trans htaken.symm
      · exact hrefines.released.trans hreleased.symm
      · exact hrefines.overwritten.trans hoverwritten.symm
  | pop =>
      refine ⟨q.release (2 ^ k) t i, hsound.release hcapacity hclaim, ?_⟩
      constructor
      · exact hrefines.head.trans (hreach .producer).symm
      · exact hrefines.tail.trans (hreach .consumer).symm
      · intro j hj
        rw [hsequence]
        dsimp only [TicketQueue.release, Concurrent.handOver]
        rw [hslot]
        by_cases heq : j = i % 2 ^ k
        · rw [heq, Function.update_self, Function.update_self]
          show (i + s.queue.mask + 1) % WORD = i + 2 ^ k
          rw [Nat.add_assoc, hmask]
          exact Nat.mod_eq_of_lt (show i + 2 ^ k < 2 ^ 64 by omega)
        · rw [Function.update_of_ne heq, Function.update_of_ne heq]
          exact hrefines.sequence j hj
      · exact hrefines.storage.trans hstorage.symm
      · exact hrefines.claims_update hthreads hafter
      · exact hrefines.stored.trans hstored.symm
      · exact hrefines.taken.trans htaken.symm
      · rw [hreleased]
        exact congrArg (· ++ [i]) hrefines.released
      · exact hrefines.overwritten.trans hoverwritten.symm

/-- A cell that is ready for the next position of an end is not claimed. -/
theorem Refined.claim_ne {side : Side} {c : Claim T} (h : s.Refined k) (hk : 0 < k)
    (hclaim : (s.threads t).claim = some c)
    (hready : s.queue.sequence (s.reach side % 2 ^ k) = awaited (s.reach side) side) :
    s.reach side % 2 ^ k ≠ c.position % 2 ^ k := by
  obtain ⟨q, hsound, hrefines⟩ := h
  have hcapacity := two_le_two_pow hk
  have hslot (p : ℕ) : p % 2 ^ k < 2 ^ k := Nat.mod_lt _ (by omega)
  have hclaims := (hrefines.claims t).trans hclaim
  rw [hrefines.sequence _ (hslot _)] at hready
  cases side with
  | producer =>
      rw [← hrefines.head] at hready ⊢
      have hcell := hsound.ring.free_of_sequence hcapacity hready
      exact (hsound.ne_of_stage hclaims (.inl (by rw [hcell]))).symm
  | consumer =>
      rw [← hrefines.tail] at hready ⊢
      have hcell := hsound.ring.full_of_sequence hcapacity hready
      exact (hsound.ne_of_stage hclaims (.inr (by rw [hcell]))).symm

/-- A claimed position is below the end of the ring. -/
theorem Refined.claim_lt {i : ℕ} {moved : Bool} (h : s.Refined k)
    (hclaim : (s.threads t).claim = some ⟨op.value, i, moved⟩) : i < s.reach op.side := by
  obtain ⟨q, hsound, hrefines⟩ := h
  have hcell := (hsound.backed t _ ((hrefines.claims t).trans hclaim))
  have hwithin := hsound.ring.within (i % 2 ^ k) (Nat.mod_lt _ (Nat.two_pow_pos k))
  cases op with
  | push v =>
      have hcell : q.cells (i % 2 ^ k) = ⟨i, .filling⟩ := by
        cases moved <;> exact hcell.1
      rw [hcell] at hwithin
      exact hwithin.2.1.trans_eq hrefines.head
  | pop =>
      have hcell : q.cells (i % 2 ^ k) = ⟨i, .draining⟩ := by
        cases moved <;> exact hcell.1
      rw [hcell] at hwithin
      exact hwithin.1.trans_eq hrefines.tail

/-- A thread ahead of the index of an end owns the end. -/
theorem Pc.ahead_iff {pc : Pc T} {side : Side} :
    pc.ahead side = true ↔ ∃ i, pc.aheadAt = some (side, i) := by
  cases pc <;> simp [Pc.ahead, Pc.aheadAt]

theorem Pc.owner_of_aheadAt {pc : Pc T} {side : Side} {i : ℕ}
    (h : pc.aheadAt = some (side, i)) : pc.owner = some side := by
  cases pc <;> simp [Pc.aheadAt] at h <;> simp [Pc.owner, h.1]

/-- A step that changes the ring keeps the invariant if the ring remains a ticket
queue and the thread leaves the others' knowledge valid. -/
theorem Invariant.active (h : s.Invariant k) (ht : t ≠ 0)
    (hthreads : s'.threads = Function.update s.threads t pc) (hrefined : s'.Refined k)
    (hmask : s'.queue.mask = s.queue.mask)
    (hlast : ∀ side, s'.queue.last side = s.queue.last side)
    (hindex : ∀ side, s.queue.index side ≤ s'.queue.index side)
    (howner : ∀ side, pc.owner = some side → s.queue.last side = t)
    (haheadAt : ∀ side i, pc.aheadAt = some (side, i) → s'.queue.index side = i)
    (hothers : ∀ u side i, u ≠ t → (s.threads u).aheadAt = some (side, i) →
      s'.queue.index side = i)
    (hloaded : pc.loaded = none)
    (hready : ∀ u op i, s.threads u = .exchange op i → s'.reach op.side = i →
      s'.queue.sequence (i % 2 ^ k) = awaited i op.side)
    (horder : ∀ side, (s'.history.claimed side).map (·.1) = List.range (s'.queue.index side))
    (hstored : ∀ e ∈ s.history.stored, e ∈ s'.history.stored)
    (haccepted : ∀ e ∈ s'.history.accepted, e ∈ s.history.accepted ∨ e ∈ s'.history.stored)
    (hfinishing : ∀ v i, pc.finishing = some (.push v, i) → (i, v) ∈ s'.history.stored)
    (hcalls : s'.history.calls = s.history.calls)
    (hcounted : ∀ side u, u ≠ t → ((s'.history.claimed side).map (·.2)).count u =
      ((s.history.claimed side).map (·.2)).count u)
    (hpending : ∀ side, ((s'.history.claimed side).map (·.2)).count t + pc.pending side ≤
      ((s.history.claimed side).map (·.2)).count t + (s.threads t).pending side) :
    s'.Invariant k := by
  constructor
  · rw [hmask, h.mask]
  · exact hrefined
  · rw [hthreads, Function.update_of_ne ht.symm, h.resting]
  · rw [hthreads]
    apply forall_update (P := fun u (pc : Pc T) => ∀ side, pc.owner = some side → s'.queue.last side = u)
    · intro u _ side hu
      rw [hlast, h.owner u side hu]
    · intro side hpc
      rw [hlast, howner side hpc]
  · rw [hthreads]
    apply forall_update (P := fun u (pc : Pc T) => ∀ side i, pc.aheadAt = some (side, i) →
      s'.queue.index side = i)
    · exact fun u hu side i => hothers u side i hu
    · exact haheadAt
  · rw [hthreads]
    apply forall_update (P := fun u (pc : Pc T) => ∀ side i, pc.loaded = some (side, i) →
      i ≤ s'.queue.index side)
    · exact fun u _ side i hu => (h.loaded u side i hu).trans (hindex side)
    · intro side i hpc
      rw [hloaded] at hpc
      cases hpc
  · intro u op i hu hi
    rw [hthreads] at hu
    by_cases heq : u = t
    · rw [heq, Function.update_self] at hu
      rw [hu] at hloaded
      cases hloaded
    · rw [Function.update_of_ne heq] at hu
      exact hready u op i hu hi
  · exact horder
  · intro e he
    rcases haccepted e he with hold | hnew
    · exact hstored e (h.accepted e hold)
    · exact hnew
  · rw [hthreads]
    apply forall_update (P := fun u (pc : Pc T) => ∀ v i, pc.finishing = some (.push v, i) →
      (i, v) ∈ s'.history.stored)
    · exact fun u _ v i hu => hstored _ (h.finishing u v i hu)
    · exact hfinishing
  · intro side
    rw [hthreads, hcalls]
    apply forall_update (P := fun u (pc : Pc T) => ((s'.history.claimed side).map (·.2)).count u +
      pc.pending side ≤ (s.history.calls side).count u)
    · intro u hu
      rw [hcounted side u hu]
      exact h.counted side u
    · exact (hpending side).trans (h.counted side t)

end

end QueueSystem

end Concurrent
end Katana
