import Katana.Concurrent.BatchQueue
import Katana.Concurrent.RingSafety

/-!
# Batches as claims of a ticket queue

A thread in a batch has claimed several positions of the ring and fills or drains them
one after the other.  Each position that a thread has claimed is a claim of the ticket
queue, in the name of an agent that stands for the thread and the position.
-/

namespace Katana
namespace Concurrent

open Library RingBufferQueue
open Library.TicketQueue (fillClaims drainClaims fillClaims_nil fillClaims_cons
  fillClaims_passed drainClaims_zero drainClaims_succ drainClaims_passed)

variable {T : Type*}

/-! ## What a thread has claimed -/

/-- The only claim is this one. -/
def oneClaim : Option (Claim T) → ℕ → Option (Claim T)
  | none => fun _ => none
  | some c => Function.update (fun _ => none) c.position (some c)

/-- The claims of a thread that stands at this place, by their positions. -/
def BatchPc.claimAt : BatchPc T → ℕ → Option (Claim T)
  | .single pc => oneClaim pc.claim
  | .pushMove pending index _ => fillClaims pending index
  | .pushStoreSequence [] _ _ => fun _ => none
  | .pushStoreSequence (value :: rest) index _ =>
      Function.update (fillClaims rest (index + 1)) index (some ⟨some value, index, true⟩)
  | .popMove index left _ => drainClaims index left
  | .popStoreSequence index left _ =>
      Function.update (drainClaims (index + 1) (left - 1)) index (some ⟨none, index, true⟩)
  | _ => fun _ => none

theorem position_claimAt {pc : BatchPc T} {p : ℕ} {c : Claim T} (h : pc.claimAt p = some c) :
    c.position = p := by
  have hfill {values : List T} {index : ℕ} (h : fillClaims values index p = some c) :
      c.position = p := by
    unfold fillClaims at h
    split at h
    · rcases Option.map_eq_some_iff.mp h with ⟨v, -, rfl⟩
      rfl
    · cases h
  have hdrain {index count : ℕ} (h : drainClaims index count p = some c) : c.position = p := by
    unfold drainClaims at h
    split at h
    · cases h
      rfl
    · cases h
  cases pc with
  | single pc =>
      simp only [BatchPc.claimAt] at h
      cases hclaim : pc.claim with
      | none =>
          rw [hclaim] at h
          cases h
      | some d =>
          rw [hclaim, oneClaim] at h
          by_cases heq : p = d.position
          · rw [heq, Function.update_self] at h
            cases h
            exact heq.symm
          · rw [Function.update_of_ne heq] at h
            cases h
  | pushMove pending index toPush => exact hfill h
  | pushStoreSequence pending index toPush =>
      cases pending with
      | nil => cases h
      | cons value rest =>
          simp only [BatchPc.claimAt] at h
          by_cases heq : p = index
          · rw [heq, Function.update_self] at h
            cases h
            exact heq.symm
          · rw [Function.update_of_ne heq] at h
            exact hfill h
  | popMove index left toPop => exact hdrain h
  | popStoreSequence index left toPop =>
      simp only [BatchPc.claimAt] at h
      by_cases heq : p = index
      · rw [heq, Function.update_self] at h
        cases h
        exact heq.symm
      · rw [Function.update_of_ne heq] at h
        exact hdrain h
  | _ => cases h

/-! ## The ticket queue behind the state -/

namespace BatchSystem

structure Refines (capacity : ℕ) (s : BatchSystem T) (q : TicketQueue T) : Prop where
  head : q.head = s.queue.head
  tail : q.tail = s.queue.tail
  sequence : ∀ i < capacity, s.queue.sequence i = (q.cells i).sequence
  storage : q.storage = s.queue.storage
  claims : ∀ t p, q.claims (Nat.pair t p) = (s.threads t).claimAt p
  stored : q.stored = s.history.stored
  taken : q.taken = s.history.taken
  released : q.released = s.history.released
  overwritten : q.overwritten = s.history.overwritten

def Refined (k : ℕ) (s : BatchSystem T) : Prop :=
  ∃ q : TicketQueue T, q.Sound (2 ^ k) ∧ Refines (2 ^ k) s q

/-- The number for which a position waits at an end. -/
def Numbered (k : ℕ) (q : RingBufferQueue T) (side : Side) (p : ℕ) : Prop :=
  q.sequence (p % 2 ^ k) = QueueSystem.awaited p side

section

variable {k : ℕ} {s s' : BatchSystem T} {t i : ℕ} {pc : BatchPc T} {op : Op T}

theorem pair_ne {t u : ℕ} (hu : u ≠ t) (p j : ℕ) : Nat.pair u p ≠ Nat.pair t j := by
  intro heq
  exact hu (Nat.pair_eq_pair.mp heq).1

theorem pair_injective (t : ℕ) : Function.Injective (Nat.pair t) := by
  intro p j heq
  exact (Nat.pair_eq_pair.mp heq).2

/-- The claims of one thread have changed. -/
theorem Refines.claims_thread {q : TicketQueue T} {claims : ℕ → Option (Claim T)}
    (hrefines : Refines (2 ^ k) s q) (hthreads : s'.threads = Function.update s.threads t pc)
    (hmine : ∀ p, claims (Nat.pair t p) = pc.claimAt p)
    (hothers : ∀ u p, u ≠ t → claims (Nat.pair u p) = q.claims (Nat.pair u p)) (u p : ℕ) :
    claims (Nat.pair u p) = (s'.threads u).claimAt p := by
  rw [hthreads]
  by_cases heq : u = t
  · rw [heq, Function.update_self, hmine]
  · rw [Function.update_of_ne heq, hothers u p heq, hrefines.claims]

/-- One claim of a thread has changed. -/
theorem Refines.claims_update {q : TicketQueue T} {claim : Option (Claim T)}
    (hrefines : Refines (2 ^ k) s q) (hthreads : s'.threads = Function.update s.threads t pc)
    (hclaim : pc.claimAt = Function.update (s.threads t).claimAt i claim) (u p : ℕ) :
    Function.update q.claims (Nat.pair t i) claim (Nat.pair u p) = (s'.threads u).claimAt p := by
  apply hrefines.claims_thread hthreads
  · intro p
    rw [hclaim]
    by_cases heq : p = i
    · rw [heq, Function.update_self, Function.update_self]
    · rw [Function.update_of_ne heq, Function.update_of_ne ((pair_injective t).ne heq),
        hrefines.claims]
  · intro u p hu
    exact Function.update_of_ne (pair_ne hu p i) ..

theorem Refined.quiet (h : s.Refined k) (hthreads : s'.threads = Function.update s.threads t pc)
    (hclaim : pc.claimAt = (s.threads t).claimAt) (hqueue : s'.queue = s.queue)
    (hstored : s'.history.stored = s.history.stored) (htaken : s'.history.taken = s.history.taken)
    (hreleased : s'.history.released = s.history.released)
    (hoverwritten : s'.history.overwritten = s.history.overwritten) : s'.Refined k := by
  rcases h with ⟨q, hsound, hrefines⟩
  refine ⟨q, hsound, ?_⟩
  constructor
  · rw [hqueue, hrefines.head]
  · rw [hqueue, hrefines.tail]
  · intro i hi
    rw [hqueue, hrefines.sequence i hi]
  · rw [hqueue, hrefines.storage]
  · apply hrefines.claims_thread hthreads
    · intro p
      rw [hclaim, hrefines.claims]
    · exact fun _ _ _ => rfl
  · rw [hstored, hrefines.stored]
  · rw [htaken, hrefines.taken]
  · rw [hreleased, hrefines.released]
  · rw [hoverwritten, hrefines.overwritten]

/-! ## Claims -/

/-- Positions from the head on are claimed for these values. -/
theorem Refined.claimHeads (h : s.Refined k) (hk : 0 < k) {values : List T}
    (hready : ∀ j < values.length, Numbered k s.queue .producer (s.queue.head + j))
    (hthreads : s'.threads = Function.update s.threads t pc)
    (hbefore : (s.threads t).claimAt = fun _ => none)
    (hclaims : pc.claimAt = fillClaims values s.queue.head)
    (hqueue : s'.queue = { s.queue with head := s.queue.head + values.length })
    (hstored : s'.history.stored = s.history.stored) (htaken : s'.history.taken = s.history.taken)
    (hreleased : s'.history.released = s.history.released)
    (hoverwritten : s'.history.overwritten = s.history.overwritten) : s'.Refined k := by
  rcases h with ⟨q, hsound, hrefines⟩
  have hcapacity := QueueSystem.two_le_two_pow hk
  have hslot (p : ℕ) : p % 2 ^ k < 2 ^ k := Nat.mod_lt _ (by omega)
  have hnumbers : ∀ j < values.length,
      (q.cells ((q.head + j) % 2 ^ k)).sequence = q.head + j := by
    intro j hj
    rw [← hrefines.sequence _ (hslot _), hrefines.head]
    exact hready j hj
  have hclaimed := hsound.claimHeads hcapacity (Nat.pair t) hnumbers
  have hsame := TicketQueue.sameContents_claimHeads (2 ^ k) (Nat.pair t) values q
  have hends := TicketQueue.ends_claimHeads (2 ^ k) (Nat.pair t) values q
  refine ⟨q.claimHeads (2 ^ k) (Nat.pair t) values, hclaimed.1, ?_⟩
  constructor
  · rw [hends.1, hrefines.head, hqueue]
  · rw [hends.2, hrefines.tail, hqueue]
  · intro i hi
    rw [hclaimed.2, hqueue]
    exact hrefines.sequence i hi
  · rw [hsame.storage, hrefines.storage, hqueue]
  · apply hrefines.claims_thread hthreads
    · intro p
      rw [TicketQueue.claims_claimHeads (pair_injective t), hrefines.claims, hbefore, hclaims,
        hrefines.head, Option.or_none]
    · intro u p hu
      exact TicketQueue.claims_claimHeads_other (pair_ne hu p) values q
  · rw [hsame.stored, hrefines.stored, hstored]
  · rw [hsame.taken, hrefines.taken, htaken]
  · rw [hsame.released, hrefines.released, hreleased]
  · rw [hsame.overwritten, hrefines.overwritten, hoverwritten]

/-- So many positions from the tail on are claimed. -/
theorem Refined.claimTails (h : s.Refined k) (hk : 0 < k) {count : ℕ}
    (hready : ∀ j < count, Numbered k s.queue .consumer (s.queue.tail + j))
    (hthreads : s'.threads = Function.update s.threads t pc)
    (hbefore : (s.threads t).claimAt = fun _ => none)
    (hclaims : pc.claimAt = drainClaims s.queue.tail count)
    (hqueue : s'.queue = { s.queue with tail := s.queue.tail + count })
    (hstored : s'.history.stored = s.history.stored) (htaken : s'.history.taken = s.history.taken)
    (hreleased : s'.history.released = s.history.released)
    (hoverwritten : s'.history.overwritten = s.history.overwritten) : s'.Refined k := by
  rcases h with ⟨q, hsound, hrefines⟩
  have hcapacity := QueueSystem.two_le_two_pow hk
  have hslot (p : ℕ) : p % 2 ^ k < 2 ^ k := Nat.mod_lt _ (by omega)
  have hnumbers : ∀ j < count,
      (q.cells ((q.tail + j) % 2 ^ k)).sequence = q.tail + j + 1 := by
    intro j hj
    rw [← hrefines.sequence _ (hslot _), hrefines.tail]
    exact hready j hj
  have hclaimed := hsound.claimTails hcapacity (Nat.pair t) hnumbers
  have hsame := TicketQueue.sameContents_claimTails (2 ^ k) (Nat.pair t) count q
  have hends := TicketQueue.ends_claimTails (2 ^ k) (Nat.pair t) count q
  refine ⟨q.claimTails (2 ^ k) (Nat.pair t) count, hclaimed.1, ?_⟩
  constructor
  · rw [hends.1, hrefines.head, hqueue]
  · rw [hends.2, hrefines.tail, hqueue]
  · intro i hi
    rw [hclaimed.2, hqueue]
    exact hrefines.sequence i hi
  · rw [hsame.storage, hrefines.storage, hqueue]
  · apply hrefines.claims_thread hthreads
    · intro p
      rw [TicketQueue.claims_claimTails (pair_injective t), hrefines.claims, hbefore, hclaims,
        hrefines.tail, Option.or_none]
    · intro u p hu
      exact TicketQueue.claims_claimTails_other (pair_ne hu p) count q
  · rw [hsame.stored, hrefines.stored, hstored]
  · rw [hsame.taken, hrefines.taken, htaken]
  · rw [hsame.released, hrefines.released, hreleased]
  · rw [hsame.overwritten, hrefines.overwritten, hoverwritten]

/-! ## Values and slots -/

theorem Refined.move (h : s.Refined k) (hk : 0 < k) (hmask : s.queue.mask + 1 = 2 ^ k)
    (hbefore : (s.threads t).claimAt i = some ⟨op.value, i, false⟩)
    (hafter : pc.claimAt =
      Function.update (s.threads t).claimAt i (some ⟨op.value, i, true⟩)) :
    ({ queue := (moveValue op i s.queue s.history).1
       threads := Function.update s.threads t pc
       history := (moveValue op i s.queue s.history).2 } : BatchSystem T).Refined k := by
  rcases h with ⟨q, hsound, hrefines⟩
  have hcapacity := QueueSystem.two_le_two_pow hk
  have hslot := slot_eq hmask i
  have hclaim := (hrefines.claims t i).trans hbefore
  cases op with
  | push v =>
      refine ⟨q.fill (2 ^ k) (Nat.pair t i) v i, hsound.fill hcapacity hclaim, ?_⟩
      constructor
      · exact hrefines.head
      · exact hrefines.tail
      · exact hrefines.sequence
      · dsimp only [TicketQueue.fill, moveValue]
        rw [hslot, hrefines.storage]
      · exact hrefines.claims_update rfl hafter
      · exact congrArg (· ++ [(i, v)]) hrefines.stored
      · exact hrefines.taken
      · exact hrefines.released
      · dsimp only [TicketQueue.fill, moveValue]
        rw [hslot, hrefines.storage, hrefines.overwritten]
  | pop =>
      refine ⟨q.drain (2 ^ k) (Nat.pair t i) i, hsound.drain hcapacity hclaim, ?_⟩
      constructor
      · exact hrefines.head
      · exact hrefines.tail
      · exact hrefines.sequence
      · dsimp only [TicketQueue.drain, moveValue]
        rw [hslot, hrefines.storage]
      · exact hrefines.claims_update rfl hafter
      · exact hrefines.stored
      · dsimp only [TicketQueue.drain, moveValue]
        rw [hslot, hrefines.storage, hrefines.taken]
      · exact hrefines.released
      · exact hrefines.overwritten

theorem Refined.handOver (h : s.Refined k) (hk : 0 < k) (hk63 : k ≤ 63) (hi : i < 2 ^ 63)
    (hmask : s.queue.mask + 1 = 2 ^ k)
    (hbefore : (s.threads t).claimAt i = some ⟨op.value, i, true⟩)
    (hafter : pc.claimAt = Function.update (s.threads t).claimAt i none) {history : History T}
    (hstored : history.stored = s.history.stored) (htaken : history.taken = s.history.taken)
    (hreleased : history.released = (handOver op i s.queue s.history).2.released)
    (hoverwritten : history.overwritten = s.history.overwritten) :
    ({ queue := (handOver op i s.queue s.history).1
       threads := Function.update s.threads t pc
       history := history } : BatchSystem T).Refined k := by
  rcases h with ⟨q, hsound, hrefines⟩
  have hcapacity := QueueSystem.two_le_two_pow hk
  have hslot := slot_eq hmask i
  have hword : 2 ^ k ≤ 2 ^ 63 := Nat.pow_le_pow_right (by omega) hk63
  have hclaim := (hrefines.claims t i).trans hbefore
  cases op with
  | push v =>
      refine ⟨q.publish (2 ^ k) (Nat.pair t i) i, hsound.publish hcapacity hclaim, ?_⟩
      constructor
      · exact hrefines.head
      · exact hrefines.tail
      · intro j hj
        dsimp only [TicketQueue.publish, Concurrent.handOver]
        rw [hslot]
        by_cases heq : j = i % 2 ^ k
        · rw [heq, Function.update_self, Function.update_self]
          exact Nat.mod_eq_of_lt (show i + 1 < 2 ^ 64 by omega)
        · rw [Function.update_of_ne heq, Function.update_of_ne heq]
          exact hrefines.sequence j hj
      · exact hrefines.storage
      · exact hrefines.claims_update rfl hafter
      · exact hrefines.stored.trans hstored.symm
      · exact hrefines.taken.trans htaken.symm
      · exact hrefines.released.trans hreleased.symm
      · exact hrefines.overwritten.trans hoverwritten.symm
  | pop =>
      refine ⟨q.release (2 ^ k) (Nat.pair t i) i, hsound.release hcapacity hclaim, ?_⟩
      constructor
      · exact hrefines.head
      · exact hrefines.tail
      · intro j hj
        dsimp only [TicketQueue.release, Concurrent.handOver]
        rw [hslot]
        by_cases heq : j = i % 2 ^ k
        · rw [heq, Function.update_self, Function.update_self]
          show (i + s.queue.mask + 1) % WORD = i + 2 ^ k
          rw [Nat.add_assoc, hmask]
          exact Nat.mod_eq_of_lt (show i + 2 ^ k < 2 ^ 64 by omega)
        · rw [Function.update_of_ne heq, Function.update_of_ne heq]
          exact hrefines.sequence j hj
      · exact hrefines.storage
      · exact hrefines.claims_update rfl hafter
      · exact hrefines.stored.trans hstored.symm
      · exact hrefines.taken.trans htaken.symm
      · rw [hreleased]
        exact congrArg (· ++ [i]) hrefines.released
      · exact hrefines.overwritten.trans hoverwritten.symm

/-! ## What the ticket queue says about the state -/

/-- A position that is not passed and has the number it waits for is not claimed. -/
theorem Refined.claim_ne {side : Side} {p : ℕ} {c : Claim T} (h : s.Refined k) (hk : 0 < k)
    (hclaim : (s.threads t).claimAt i = some c) (hle : s.queue.index side ≤ p)
    (hnumber : Numbered k s.queue side p) : p % 2 ^ k ≠ i % 2 ^ k := by
  rcases h with ⟨q, hsound, hrefines⟩
  have hcapacity := QueueSystem.two_le_two_pow hk
  have hclaims := (hrefines.claims t i).trans hclaim
  have hposition := position_claimAt hclaim
  unfold Numbered at hnumber
  rw [hrefines.sequence _ (Nat.mod_lt _ (by omega))] at hnumber
  rw [← hposition]
  cases side with
  | producer =>
      have hcell := hsound.ring.free_of_le hcapacity (hrefines.head.trans_le hle) hnumber
      exact (hsound.ne_of_stage hclaims (.inl (by rw [hcell]))).symm
  | consumer =>
      have hcell := hsound.ring.full_of_le hcapacity (hrefines.tail.trans_le hle) hnumber
      exact (hsound.ne_of_stage hclaims (.inr (by rw [hcell]))).symm

/-- A slot that is ready for the next round holds no value. -/
theorem Refined.vacant {p : ℕ} (h : s.Refined k) (hk : 0 < k) (hle : s.queue.head ≤ p)
    (hnumber : Numbered k s.queue .producer p) : s.queue.storage (p % 2 ^ k) = none := by
  rcases h with ⟨q, hsound, hrefines⟩
  have hcapacity := QueueSystem.two_le_two_pow hk
  have hslot : p % 2 ^ k < 2 ^ k := Nat.mod_lt _ (by omega)
  unfold Numbered at hnumber
  rw [hrefines.sequence _ hslot] at hnumber
  have hcell := hsound.ring.free_of_le hcapacity (hrefines.head.trans_le hle) hnumber
  rw [← hrefines.storage]
  exact hsound.vacant _ hslot (by rw [hcell])

theorem Refined.claim_lt {moved : Bool} (h : s.Refined k)
    (hclaim : (s.threads t).claimAt i = some ⟨op.value, i, moved⟩) :
    i < s.queue.index op.side := by
  rcases h with ⟨q, hsound, hrefines⟩
  have hcell := hsound.backed _ _ ((hrefines.claims t i).trans hclaim)
  have hwithin := hsound.ring.within (i % 2 ^ k) (Nat.mod_lt _ (Nat.two_pow_pos k))
  cases op with
  | push v =>
      have hcell : q.cells (i % 2 ^ k) = ⟨i, .filling⟩ := by
        cases moved <;> exact hcell.1
      rw [hcell] at hwithin
      exact hwithin.2.1.trans_eq hrefines.head
  | pop =>
      have hcell : q.cells (i % 2 ^ k) = ⟨i, .draining⟩ := by
        cases moved <;> exact hcell.1
      rw [hcell] at hwithin
      exact hwithin.1.trans_eq hrefines.tail

/-- No position is claimed by two threads. -/
theorem Refined.unshared {u : ℕ} {c d : Claim T} (h : s.Refined k)
    (ht : (s.threads t).claimAt i = some c) (hu : (s.threads u).claimAt i = some d) : u = t := by
  rcases h with ⟨q, hsound, hrefines⟩
  have hsame := hsound.distinct _ _ _ _ ((hrefines.claims u i).trans hu)
    ((hrefines.claims t i).trans ht) (by rw [position_claimAt hu, position_claimAt ht])
  exact (Nat.pair_eq_pair.mp hsame).1

theorem Refined.stored_lt (h : s.Refined k) {e : ℕ × T} (he : e ∈ s.history.stored) :
    e.1 < s.queue.head := by
  rcases h with ⟨q, hsound, hrefines⟩
  rw [← hrefines.head]
  apply hsound.storedBelow
  rw [hrefines.stored]
  exact List.mem_map_of_mem he

theorem Refined.stored_mem {v : T} (h : s.Refined k)
    (hclaim : (s.threads t).claimAt i = some ⟨some v, i, true⟩) : (i, v) ∈ s.history.stored := by
  rcases h with ⟨q, hsound, hrefines⟩
  rw [← hrefines.stored]
  exact (hsound.backed _ _ ((hrefines.claims t i).trans hclaim)).2.2

theorem Refined.tail_le (h : s.Refined k) : s.queue.tail ≤ s.queue.head := by
  rcases h with ⟨q, hsound, hrefines⟩
  rw [← hrefines.head, ← hrefines.tail]
  exact hsound.ring.order

/-- Sequence numbers do not wrap. -/
theorem Refined.sequence_lt (h : s.Refined k) (hk63 : k ≤ 63) (hfew : s.queue.head < 2 ^ 63)
    (i : ℕ) : s.queue.sequence (i % 2 ^ k) < WORD := by
  have htail := h.tail_le
  rcases h with ⟨q, hsound, hrefines⟩
  have hslot : i % 2 ^ k < 2 ^ k := Nat.mod_lt _ (Nat.two_pow_pos k)
  have hword : 2 ^ k ≤ 2 ^ 63 := Nat.pow_le_pow_right (by omega) hk63
  have hvalue : WORD = 2 ^ 64 := rfl
  have hle := hsound.ring.sequence_lt hslot
  rw [hrefines.sequence _ hslot]
  rw [hrefines.head, hrefines.tail] at hle
  omega

end

end BatchSystem

end Concurrent
end Katana
