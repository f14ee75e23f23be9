import Katana.Concurrent.RingRefinement

/-!
# Steps of the ring buffer queue

Each atomic step keeps the invariant as long as fewer operations have been
started than half a word can count and the step does not claim a position that
another thread has claimed.
-/

namespace Katana
namespace Concurrent

open Library RingBufferQueue

variable {T : Type*}

namespace QueueSystem

variable {k : ℕ} {s : QueueSystem T} {t : ℕ} {op : Op T} {i : ℕ}

theorem index_setIndex_self (q : RingBufferQueue T) (index : ℕ) (side : Side) :
    (q.setIndex index side).index side = index := by
  cases side <;> rfl

theorem index_setIndex_other (q : RingBufferQueue T) (index : ℕ) {side other : Side}
    (hne : other ≠ side) : (q.setIndex index side).index other = q.index other := by
  cases side <;> cases other <;> first | rfl | exact absurd rfl hne

theorem last_setIndex (q : RingBufferQueue T) (index : ℕ) (side other : Side) :
    (q.setIndex index side).last other = q.last other := by
  cases side <;> cases other <;> rfl

theorem setIndex_same (q : RingBufferQueue T) (index : ℕ) (side : Side) :
    (q.setIndex index side).mask = q.mask ∧ (q.setIndex index side).sequence = q.sequence ∧
      (q.setIndex index side).storage = q.storage := by
  cases side <;> exact ⟨rfl, rfl, rfl⟩

theorem Side.other_ne (side : Side) : side.other ≠ side := by
  cases side <;> decide

theorem awaited_eq {i : ℕ} (hi : i < 2 ^ 63) (side : Side) : ready i side = awaited i side := by
  cases side
  · rfl
  · exact Nat.mod_eq_of_lt (show i + 1 < 2 ^ 64 by omega)

/-- The claim of a position at an end whose index shows it. -/
theorem claimed_append {history : History T} {side : Side} {queue : RingBufferQueue T}
    (horder : ∀ side, (history.claimed side).map (·.1) = List.range (queue.index side))
    (hindex : queue.index side = i) (other : Side) :
    ((history.claim side i t).claimed other).map (·.1) =
      List.range ((queue.setIndex (i + 1) side).index other) := by
  unfold History.claim
  dsimp only
  by_cases heq : other = side
  · rw [heq, Function.update_self, index_setIndex_self, List.map_append, horder, hindex,
      List.range_succ]
    rfl
  · rw [Function.update_of_ne heq, index_setIndex_other _ _ heq, horder]

theorem count_claimed {history : History T} {side : Side} (other : Side) (u : ℕ) :
    (((history.claim side i t).claimed other).map (·.2)).count u =
      ((history.claimed other).map (·.2)).count u +
        if other = side ∧ u = t then 1 else 0 := by
  unfold History.claim
  dsimp only
  by_cases heq : other = side
  · rw [heq, Function.update_self, List.map_append, List.count_append]
    by_cases hut : u = t
    · simp [hut]
    · simp [hut, Ne.symm hut]
  · rw [Function.update_of_ne heq]
    simp [heq]

/-- No thread waits at an index that has been passed. -/
theorem Invariant.exchange_le (h : s.Invariant k) {u : ℕ} {op : Op T} {i : ℕ}
    (hu : s.threads u = .exchange op i) : i ≤ s.reach op.side := by
  have hle := h.loaded u op.side i (by rw [hu]; rfl)
  exact hle.trans (Nat.le_add_right _ _)

/-- A successful exchange. -/
theorem Invariant.exchange (h : s.Invariant k) (hk : 0 < k) (hfew : s.operations < 2 ^ 63)
    (ht : t ≠ 0) (hpc : s.threads t = .exchange op i) (hindex : s.queue.index op.side = i)
    (hapart : (s.threads (s.queue.last op.side)).ahead op.side = false) :
    ({ queue := s.queue.setIndex ((i + 1) % WORD) op.side
       threads := Function.update s.threads t (.move op i)
       history := s.history.claim op.side i t } : QueueSystem T).Invariant k := by
  have hlt := h.index_lt hfew op.side
  have hsucc : (i + 1) % WORD = i + 1 := Nat.mod_eq_of_lt (show i + 1 < 2 ^ 64 by omega)
  have hreach : s.reach op.side = i := by
    unfold reach
    rw [hapart, hindex]
    rfl
  have hsame := setIndex_same s.queue (i + 1) op.side
  have hahead (side : Side) : (Pc.move op i : Pc T).ahead side = (s.threads t).ahead side := by
    rw [hpc]
    rfl
  have hbits (side : Side) : (Function.update s.threads t (.move op i)
      (s.queue.last side)).ahead side = (s.threads (s.queue.last side)).ahead side := by
    by_cases heq : s.queue.last side = t
    · rw [heq, Function.update_self, hahead]
    · rw [Function.update_of_ne heq]
  rw [hsucc]
  have hreachSelf : ({ queue := s.queue.setIndex (i + 1) op.side
                       threads := Function.update s.threads t (.move op i)
                       history := s.history.claim op.side i t } : QueueSystem T).reach op.side =
      s.reach op.side + 1 := by
    rw [hreach]
    unfold reach
    dsimp only
    rw [index_setIndex_self, last_setIndex, hbits, hapart]
    rfl
  have hreachOther {side : Side} (hne : side ≠ op.side) :
      ({ queue := s.queue.setIndex (i + 1) op.side
         threads := Function.update s.threads t (.move op i)
         history := s.history.claim op.side i t } : QueueSystem T).reach side = s.reach side := by
    unfold reach
    dsimp only
    rw [index_setIndex_other _ _ hne, last_setIndex, hbits]
  have hready := h.ready t op i hpc hreach
  apply h.active ht rfl
  · apply Refined.claim h.refined hk (by rw [hreach]; exact hready) rfl
      (by rw [hreach]; rfl) hreachSelf (hreachOther (Side.other_ne _)) hsame.2.1 hsame.2.2
    · rfl
    · rfl
    · rfl
    · rfl
  · exact hsame.1
  · exact fun side => last_setIndex ..
  · intro side
    by_cases heq : side = op.side
    · rw [heq, index_setIndex_self, hindex]
      exact Nat.le_succ i
    · rw [index_setIndex_other _ _ heq]
  · exact fun _ hpc => by cases hpc
  · exact fun _ _ hpc => by cases hpc
  · intro u side j _ hu
    have hne : side ≠ op.side := by
      intro heq
      have howner := h.owner u side (Pc.owner_of_aheadAt hu)
      rw [← heq, howner, (Pc.ahead_iff).mpr ⟨j, hu⟩] at hapart
      cases hapart
    rw [index_setIndex_other _ _ hne]
    exact h.aheadAt u side j hu
  · rfl
  · intro u op' j hu hj
    rw [hsame.2.1]
    by_cases heq : op'.side = op.side
    · have hle := h.exchange_le hu
      rw [heq] at hj hle
      omega
    · rw [hreachOther heq] at hj
      exact h.ready u op' j hu hj
  · exact fun side => claimed_append h.order hindex side
  · exact fun _ he => he
  · exact fun _ he => .inl he
  · exact fun _ _ hpc => by cases hpc
  · rfl
  · intro side u hu
    simp [count_claimed, hu]
  · intro side
    rw [count_claimed, hpc]
    by_cases heq : side = op.side
    · simp [Pc.pending, Pc.unclaimed, heq]
    · simp [Pc.pending, Pc.unclaimed, heq, Ne.symm heq]

/-- The single producer or consumer claims the position it has found ready. -/
theorem Invariant.spscClaim (h : s.Invariant k) (hk : 0 < k) (hfew : s.operations < 2 ^ 63)
    (ht : t ≠ 0) (hpc : s.threads t = .spscLoadSequence op i)
    (hsequence : s.queue.sequence (s.queue.slot i) = RingBufferQueue.ready i op.side)
    (hindex : s.queue.index op.side = i) :
    ({ s with threads := Function.update s.threads t (.spscMove op i) } :
      QueueSystem T).Invariant k := by
  have howns : s.queue.last op.side = t := h.owner t op.side (by rw [hpc]; rfl)
  have hlt := h.index_lt hfew op.side
  have hreach : s.reach op.side = i := by
    unfold reach
    rw [howns, hpc, hindex]
    rfl
  have hreachSelf : ({ s with threads := Function.update s.threads t (.spscMove op i) } :
      QueueSystem T).reach op.side = s.reach op.side + 1 := by
    rw [hreach]
    unfold reach
    dsimp only
    rw [howns, Function.update_self, hindex]
    simp [Pc.ahead]
  have hreachOther {side : Side} (hne : side ≠ op.side) :
      ({ s with threads := Function.update s.threads t (.spscMove op i) } :
        QueueSystem T).reach side = s.reach side := by
    have hahead : (Pc.spscMove op i : Pc T).ahead side = (s.threads t).ahead side := by
      rw [hpc]
      simp [Pc.ahead, hne.symm]
    exact reach_eq rfl rfl rfl hahead
  apply h.active ht rfl
  · apply Refined.claim h.refined hk _ rfl (by rw [hreach]; rfl) hreachSelf
      (hreachOther (Side.other_ne _)) rfl rfl rfl rfl rfl rfl
    rw [hreach, ← slot_eq h.mask, hsequence, awaited_eq (by omega)]
  · rfl
  · exact fun _ => rfl
  · exact fun _ => le_rfl
  · intro side hside
    cases hside
    exact howns
  · intro side j hj
    cases hj
    exact hindex
  · exact fun u side j _ hu => h.aheadAt u side j hu
  · rfl
  · intro u op' j hu hj
    by_cases heq : op'.side = op.side
    · have hle := h.exchange_le hu
      rw [heq] at hj hle
      omega
    · rw [hreachOther heq] at hj
      exact h.ready u op' j hu hj
  · exact h.order
  · exact fun _ he => he
  · exact fun _ he => .inl he
  · exact fun _ _ hv => by cases hv
  · rfl
  · exact fun _ _ _ => rfl
  · intro side
    rw [hpc]
    exact le_rfl

/-- The value is moved, in either algorithm. -/
theorem Invariant.move (h : s.Invariant k) (hk : 0 < k) (ht : t ≠ 0) {pc : Pc T}
    (hpc : s.threads t = .move op i ∧ pc = .storeSequence op i ∨
      s.threads t = .spscMove op i ∧ pc = .spscStoreSequence op i) :
    ({ queue := (moveValue op i s.queue s.history).1
       threads := Function.update s.threads t pc
       history := (moveValue op i s.queue s.history).2 } : QueueSystem T).Invariant k := by
  have hbefore : (s.threads t).claim = some ⟨op.value, i, false⟩ := by
    rcases hpc with ⟨hpc, -⟩ | ⟨hpc, -⟩ <;> rw [hpc] <;> rfl
  have hafter : pc.claim = some ⟨op.value, i, true⟩ := by
    rcases hpc with ⟨-, rfl⟩ | ⟨-, rfl⟩ <;> rfl
  have hahead (side : Side) : pc.ahead side = (s.threads t).ahead side := by
    rcases hpc with ⟨hpc, rfl⟩ | ⟨hpc, rfl⟩ <;> rw [hpc] <;> rfl
  have haheadAt : pc.aheadAt = (s.threads t).aheadAt := by
    rcases hpc with ⟨hpc, rfl⟩ | ⟨hpc, rfl⟩ <;> rw [hpc] <;> rfl
  have hindex (side : Side) : (moveValue op i s.queue s.history).1.index side =
      s.queue.index side := by
    cases op <;> cases side <;> rfl
  have hlast (side : Side) : (moveValue op i s.queue s.history).1.last side =
      s.queue.last side := by
    cases op <;> cases side <;> rfl
  have hreach (side : Side) :
      ({ queue := (moveValue op i s.queue s.history).1
         threads := Function.update s.threads t pc
         history := (moveValue op i s.queue s.history).2 } : QueueSystem T).reach side =
      s.reach side :=
    reach_eq rfl (hindex side) (hlast side) (hahead side)
  have hstored : ∀ e ∈ s.history.stored, e ∈ (moveValue op i s.queue s.history).2.stored := by
    intro e he
    cases op
    · exact List.mem_append_left _ he
    · exact he
  have hhistory : (moveValue op i s.queue s.history).2.claimed = s.history.claimed ∧
      (moveValue op i s.queue s.history).2.accepted = s.history.accepted ∧
      (moveValue op i s.queue s.history).2.calls = s.history.calls := by
    cases op <;> exact ⟨rfl, rfl, rfl⟩
  apply h.active ht rfl
  · exact Refined.move h.refined hk h.mask hbefore hafter rfl rfl rfl hreach
  · cases op <;> rfl
  · exact hlast
  · exact fun side => (hindex side).ge
  · intro side hside
    apply h.owner t
    rcases hpc with ⟨hpc, rfl⟩ | ⟨hpc, rfl⟩
    · cases hside
    · rw [hpc]
      exact hside
  · intro side j hj
    rw [hindex]
    exact h.aheadAt t side j (haheadAt ▸ hj)
  · intro u side j _ hu
    rw [hindex]
    exact h.aheadAt u side j hu
  · rcases hpc with ⟨-, rfl⟩ | ⟨-, rfl⟩ <;> rfl
  · intro u op' j hu hj
    rw [hreach] at hj
    have hready := h.ready u op' j hu hj
    cases op <;> exact hready
  · intro side
    rw [hhistory.1, hindex]
    exact h.order side
  · exact hstored
  · intro e he
    rw [hhistory.2.1] at he
    exact .inl he
  · intro v j hv
    have hop : op = .push v ∧ i = j := by
      rcases hpc with ⟨-, rfl⟩ | ⟨-, rfl⟩ <;> simpa [Pc.finishing] using hv
    rw [hop.1, hop.2]
    exact List.mem_append_right _ (List.mem_singleton_self _)
  · exact hhistory.2.2
  · intro side u _
    rw [hhistory.1]
  · intro side
    rw [hhistory.1]
    rcases hpc with ⟨hpc, rfl⟩ | ⟨hpc, rfl⟩ <;> rw [hpc] <;> exact le_rfl

/-- A claimed position is a number below half a word. -/
theorem Invariant.claim_lt (h : s.Invariant k) (hfew : s.operations < 2 ^ 63) {moved : Bool}
    (hclaim : (s.threads t).claim = some ⟨op.value, i, moved⟩) : i < 2 ^ 63 := by
  have hlt := Refined.claim_lt h.refined hclaim
  have hindex := h.index_lt hfew op.side
  have hbit := Bool.toNat_le ((s.threads (s.queue.last op.side)).ahead op.side)
  unfold reach at hlt
  omega

/-- The slot is handed over, in either algorithm. -/
theorem Invariant.handOver (h : s.Invariant k) (hk : 0 < k) (hk63 : k ≤ 63)
    (hfew : s.operations < 2 ^ 63) (ht : t ≠ 0) {pc : Pc T} {history : History T}
    (hpc : s.threads t = .storeSequence op i ∧ pc = .returned true ∧
        history = (handOver op i s.queue s.history).2.finish op i ∨
      s.threads t = .spscStoreSequence op i ∧ pc = .spscStoreIndex op i ∧
        history = (handOver op i s.queue s.history).2) :
    ({ queue := (handOver op i s.queue s.history).1
       threads := Function.update s.threads t pc
       history := history } : QueueSystem T).Invariant k := by
  have hbefore : (s.threads t).claim = some ⟨op.value, i, true⟩ := by
    rcases hpc with ⟨hpc, -⟩ | ⟨hpc, -⟩ <;> rw [hpc] <;> rfl
  have hafter : pc.claim = none := by
    rcases hpc with ⟨-, rfl, -⟩ | ⟨-, rfl, -⟩ <;> rfl
  have hahead (side : Side) : pc.ahead side = (s.threads t).ahead side := by
    rcases hpc with ⟨hpc, rfl, -⟩ | ⟨hpc, rfl, -⟩ <;> rw [hpc] <;> rfl
  have haheadAt : pc.aheadAt = (s.threads t).aheadAt := by
    rcases hpc with ⟨hpc, rfl, -⟩ | ⟨hpc, rfl, -⟩ <;> rw [hpc] <;> rfl
  have hindex (side : Side) : (Concurrent.handOver op i s.queue s.history).1.index side =
      s.queue.index side := by
    cases side <;> rfl
  have hlast (side : Side) : (Concurrent.handOver op i s.queue s.history).1.last side =
      s.queue.last side := by
    cases side <;> rfl
  have hreach (side : Side) :
      ({ queue := (Concurrent.handOver op i s.queue s.history).1
         threads := Function.update s.threads t pc
         history := history } : QueueSystem T).reach side = s.reach side :=
    reach_eq rfl (hindex side) (hlast side) (hahead side)
  have hhistory : history.stored = s.history.stored ∧ history.taken = s.history.taken ∧
      history.overwritten = s.history.overwritten ∧ history.claimed = s.history.claimed ∧
      history.calls = s.history.calls ∧
      history.released = (Concurrent.handOver op i s.queue s.history).2.released := by
    rcases hpc with ⟨-, -, rfl⟩ | ⟨-, -, rfl⟩ <;> cases op <;>
      exact ⟨rfl, rfl, rfl, rfl, rfl, rfl⟩
  obtain ⟨hstored, htaken, hoverwritten, hclaimed, hcalls, hreleased⟩ := hhistory
  apply h.active ht rfl
  · exact Refined.handOver h.refined hk hk63 (h.claim_lt hfew hbefore) h.mask hbefore hafter rfl
      rfl rfl hstored htaken hreleased hoverwritten hreach
  · rfl
  · exact hlast
  · exact fun side => (hindex side).ge
  · intro side hside
    apply h.owner t
    rcases hpc with ⟨hpc, rfl, -⟩ | ⟨hpc, rfl, -⟩
    · cases hside
    · rw [hpc]
      exact hside
  · intro side j hj
    rw [hindex]
    exact h.aheadAt t side j (haheadAt ▸ hj)
  · intro u side j _ hu
    rw [hindex]
    exact h.aheadAt u side j hu
  · rcases hpc with ⟨-, rfl, -⟩ | ⟨-, rfl, -⟩ <;> rfl
  · intro u op' j hu hj
    rw [hreach] at hj
    have hready := h.ready u op' j hu hj
    rw [← hj] at hready ⊢
    have hne := Refined.claim_ne h.refined hk hbefore hready
    dsimp only [Concurrent.handOver]
    rw [slot_eq h.mask, Function.update_of_ne hne]
    exact hready
  · intro side
    rw [hclaimed, hindex]
    exact h.order side
  · intro e he
    rw [hstored]
    exact he
  · intro e he
    rw [hstored]
    rcases hpc with ⟨hpc, -, rfl⟩ | ⟨-, -, rfl⟩
    · cases op with
      | push v =>
          rcases List.mem_append.mp he with hold | hnew
          · exact .inl hold
          · rw [List.mem_singleton.mp hnew]
            exact .inr (h.finishing t v i (by rw [hpc]; rfl))
      | pop => exact .inl he
    · cases op <;> exact .inl he
  · intro v j hv
    rw [hstored]
    apply h.finishing t
    rcases hpc with ⟨-, rfl, -⟩ | ⟨hpc, rfl, -⟩
    · cases hv
    · rw [hpc]
      exact hv
  · exact hcalls
  · intro side u _
    rw [hclaimed]
  · intro side
    rw [hclaimed]
    rcases hpc with ⟨hpc, rfl, -⟩ | ⟨hpc, rfl, -⟩ <;> rw [hpc] <;> exact le_rfl

/-- The single producer or consumer moves its index on. -/
theorem Invariant.spscStoreIndex (h : s.Invariant k) (hfew : s.operations < 2 ^ 63) (ht : t ≠ 0)
    (hpc : s.threads t = .spscStoreIndex op i) :
    ({ queue := s.queue.setIndex ((i + 1) % WORD) op.side
       threads := Function.update s.threads t (.returned true)
       history := (s.history.claim op.side i t).finish op i } : QueueSystem T).Invariant k := by
  have howns : s.queue.last op.side = t := h.owner t op.side (by rw [hpc]; rfl)
  have hindex := h.aheadAt t op.side i (by rw [hpc]; rfl)
  have hlt := h.index_lt hfew op.side
  have hsucc : (i + 1) % WORD = i + 1 := Nat.mod_eq_of_lt (show i + 1 < 2 ^ 64 by omega)
  have hsame := setIndex_same s.queue (i + 1) op.side
  rw [hsucc]
  have hreach (side : Side) :
      ({ queue := s.queue.setIndex (i + 1) op.side
         threads := Function.update s.threads t (.returned true)
         history := (s.history.claim op.side i t).finish op i } : QueueSystem T).reach side =
      s.reach side := by
    by_cases heq : side = op.side
    · unfold reach
      dsimp only
      rw [heq, index_setIndex_self, last_setIndex, howns, Function.update_self, hpc, hindex]
      simp [Pc.ahead]
    · have hahead : (Pc.returned true : Pc T).ahead side = (s.threads t).ahead side := by
        rw [hpc]
        simp [Pc.ahead, Ne.symm heq]
      exact reach_eq rfl (index_setIndex_other _ _ heq) (last_setIndex ..) hahead
  have hhistory : ((s.history.claim op.side i t).finish op i).claimed =
      (s.history.claim op.side i t).claimed ∧
      ((s.history.claim op.side i t).finish op i).stored = s.history.stored ∧
      ((s.history.claim op.side i t).finish op i).taken = s.history.taken ∧
      ((s.history.claim op.side i t).finish op i).released = s.history.released ∧
      ((s.history.claim op.side i t).finish op i).overwritten = s.history.overwritten ∧
      ((s.history.claim op.side i t).finish op i).calls = s.history.calls := by
    cases op <;> exact ⟨rfl, rfl, rfl, rfl, rfl, rfl⟩
  obtain ⟨hclaimed, hstored, htaken, hreleased, hoverwritten, hcalls⟩ := hhistory
  apply h.active ht rfl
  · obtain ⟨q, hsound, hrefines⟩ := h.refined
    refine ⟨q, hsound, ?_⟩
    constructor
    · exact hrefines.head.trans (hreach .producer).symm
    · exact hrefines.tail.trans (hreach .consumer).symm
    · intro j hj
      dsimp only
      rw [hsame.2.1]
      exact hrefines.sequence j hj
    · exact hrefines.storage.trans hsame.2.2.symm
    · apply forall_update (P := fun u (pc : Pc T) => q.claims u = pc.claim)
      · exact fun u _ => hrefines.claims u
      · rw [hrefines.claims, hpc]
        rfl
    · exact hrefines.stored.trans hstored.symm
    · exact hrefines.taken.trans htaken.symm
    · exact hrefines.released.trans hreleased.symm
    · exact hrefines.overwritten.trans hoverwritten.symm
  · exact hsame.1
  · exact fun side => last_setIndex ..
  · intro side
    by_cases heq : side = op.side
    · rw [heq, index_setIndex_self, hindex]
      exact Nat.le_succ i
    · rw [index_setIndex_other _ _ heq]
  · exact fun _ hside => by cases hside
  · exact fun _ _ hj => by cases hj
  · intro u side j hne hu
    have howner := h.owner u side (Pc.owner_of_aheadAt hu)
    have hother : side ≠ op.side := by
      intro heq
      rw [heq, howns] at howner
      exact hne howner.symm
    rw [index_setIndex_other _ _ hother]
    exact h.aheadAt u side j hu
  · rfl
  · intro u op' j hu hj
    rw [hreach] at hj
    dsimp only
    rw [hsame.2.1]
    exact h.ready u op' j hu hj
  · intro side
    rw [hclaimed]
    exact claimed_append h.order hindex side
  · intro e he
    rw [hstored]
    exact he
  · intro e he
    rw [hstored]
    cases op with
    | push v =>
        rcases List.mem_append.mp he with hold | hnew
        · exact .inl hold
        · rw [List.mem_singleton.mp hnew]
          exact .inr (h.finishing t v i (by rw [hpc]; rfl))
    | pop => exact .inl he
  · exact fun _ _ hv => by cases hv
  · exact hcalls
  · intro side u hu
    rw [hclaimed]
    simp [count_claimed, hu]
  · intro side
    rw [hclaimed, count_claimed, hpc]
    by_cases heq : side = op.side
    · simp [Pc.pending, Pc.unclaimed, heq]
    · simp [Pc.pending, Pc.unclaimed, heq, Ne.symm heq]

/-! ## All steps -/

/-- A step on the way to one of the two algorithms changes at most the owner of
an end and the two flags. -/
theorem sameRing_choose (t : ℕ) (op : Op T) (q : RingBufferQueue T) (choice : Choice) :
    SameRing t q (q.choose t op choice).1 := by
  cases choice with
  | markExchange =>
      unfold choose
      dsimp only
      split
      next hzero =>
        constructor <;> try (cases op.side <;> rfl)
        intro side
        by_cases heq : side = op.side
        · right
          rw [heq]
          exact ⟨hzero, by cases op.side <;> rfl⟩
        · left
          revert heq
          cases side <;> cases op.side <;> simp [setLast, last]
      · exact .refl t q
  | markStore =>
      unfold choose
      constructor <;> try (cases op.side <;> rfl)
      intro side
      left
      cases side <;> cases op.side <;> rfl
  | _ => exact .refl t q

/-- Where a thread stands after such a step. -/
inductive Chosen (t : ℕ) (op : Op T) (q : RingBufferQueue T) (choice : Choice) : Pc T → Prop
  | choosing {choice'} (hother : choice' ≠ .availableOther) :
      Chosen t op q choice (.choosing choice' op)
  | owned (howns : q.last op.side = t) : Chosen t op q choice (.choosing .availableOther op)
  | multi : Chosen t op q choice (.loadIndex op)
  | single (hother : choice = .availableOther) : Chosen t op q choice (.spscLoadIndex op)

theorem chosen_choose (t : ℕ) (op : Op T) (q : RingBufferQueue T) (choice : Choice) :
    Chosen t op q choice (q.choose t op choice).2 := by
  cases choice with
  | seenProducers =>
      unfold choose
      dsimp only
      split
      · exact .multi
      · exact .choosing (by decide)
  | seenConsumers =>
      unfold choose
      dsimp only
      split
      · exact .multi
      · exact .choosing (by decide)
  | markSeen =>
      unfold choose
      dsimp only
      split
      · exact .choosing (by decide)
      · exact .choosing (by decide)
  | markLoad =>
      unfold choose
      dsimp only
      split
      · exact .choosing (by decide)
      split
      · exact .choosing (by decide)
      · exact .choosing (by decide)
  | markExchange => exact .choosing (by decide)
  | markStore => exact .choosing (by decide)
  | availableProducers =>
      unfold choose
      dsimp only
      split
      · exact .multi
      · exact .choosing (by decide)
  | availableConsumers =>
      unfold choose
      dsimp only
      split
      · exact .multi
      · exact .choosing (by decide)
  | availableOwn =>
      unfold choose
      dsimp only
      split
      next howns => exact .owned howns
      · exact .multi
  | availableOther =>
      unfold choose
      dsimp only
      split
      · exact .single rfl
      · exact .multi

theorem Chosen.plain {q : RingBufferQueue T} {choice : Choice} {pc : Pc T}
    (h : Chosen t op q choice pc) : pc.Plain := by
  cases h <;> exact ⟨rfl, fun _ => rfl, rfl, rfl⟩

theorem Chosen.loaded {q : RingBufferQueue T} {choice : Choice} {pc : Pc T}
    (h : Chosen t op q choice pc) : pc.loaded = none ∧ pc.unclaimed = some op.side := by
  cases h <;> exact ⟨rfl, rfl⟩

theorem Invariant.choose (h : s.Invariant k) (ht : t ≠ 0) {choice : Choice}
    (hpc : s.threads t = .choosing choice op) :
    ({ s with
        queue := (s.queue.choose t op choice).1
        threads := Function.update s.threads t (s.queue.choose t op choice).2 } :
      QueueSystem T).Invariant k := by
  have hsame := sameRing_choose t op s.queue choice
  have hchosen := chosen_choose t op s.queue choice
  have hplain : (s.threads t).Plain := by
    rw [hpc]
    exact ⟨rfl, fun _ => rfl, rfl, rfl⟩
  have hkeeps {side : Side} (howns : s.queue.last side = t) :
      (s.queue.choose t op choice).1.last side = t := by
    rcases hsame.last side with hlast | ⟨-, hlast⟩
    · exact hlast.trans howns
    · exact hlast
  apply h.quiet ht hsame hplain hchosen.plain
  · intro side hside
    apply hkeeps
    generalize (s.queue.choose t op choice).2 = pc at hchosen hside
    cases hchosen with
    | choosing hother =>
        rename_i choice'
        cases choice' <;> first | exact absurd rfl hother | cases hside
    | owned howns =>
        cases hside
        exact howns
    | multi => cases hside
    | single hother =>
        cases hside
        rw [hother] at hpc
        exact h.owner t op.side (by rw [hpc]; rfl)
  · intro side i hi
    rw [hchosen.loaded.1] at hi
    cases hi
  · intro op' i hi
    have hloaded := hchosen.loaded.1
    rw [hi] at hloaded
    cases hloaded
  · exact fun _ _ _ => le_rfl
  · intro side
    rw [hpc, Pc.pending, Pc.pending, hchosen.loaded.2]
    exact le_rfl

/-- Loading an index or a sequence number, or giving up. -/
theorem Invariant.load (h : s.Invariant k) (ht : t ≠ 0) {pc : Pc T}
    (hplain : (s.threads t).Plain) (hplain' : pc.Plain)
    (howner : ∀ side, pc.owner = some side → (s.threads t).owner = some side)
    (hloaded : ∀ side i, pc.loaded = some (side, i) → i ≤ s.queue.index side)
    (hready : ∀ op i, pc = .exchange op i → s.queue.sequence (i % 2 ^ k) = awaited i op.side)
    (hunclaimed : pc.unclaimed = none ∨ pc.unclaimed = (s.threads t).unclaimed) :
    ({ s with threads := Function.update s.threads t pc } : QueueSystem T).Invariant k := by
  apply h.quiet ht (.refl t s.queue) hplain hplain'
  · exact fun side hside => h.owner t side (howner side hside)
  · exact hloaded
  · exact hready
  · exact fun _ _ _ => le_rfl
  · intro side
    unfold Pc.pending
    rcases hunclaimed with hnone | hsame
    · simp [hnone]
    · rw [hsame]

/-- Sequence numbers do not wrap. -/
theorem Invariant.sequence_lt (h : s.Invariant k) (hk63 : k ≤ 63) (hfew : s.operations < 2 ^ 63)
    (i : ℕ) : s.queue.sequence (i % 2 ^ k) < WORD := by
  obtain ⟨q, hsound, hrefines⟩ := h.refined
  have hslot : i % 2 ^ k < 2 ^ k := Nat.mod_lt _ (Nat.two_pow_pos k)
  have hreach (side : Side) : s.reach side ≤ 2 ^ 63 := by
    have hindex := h.index_lt hfew side
    have hbit := Bool.toNat_le ((s.threads (s.queue.last side)).ahead side)
    unfold reach
    omega
  have hhead := hreach .producer
  have htail := hreach .consumer
  have hword : 2 ^ k ≤ 2 ^ 63 := Nat.pow_le_pow_right (by omega) hk63
  have hvalue : WORD = 2 ^ 64 := rfl
  rw [← hrefines.head] at hhead
  rw [← hrefines.tail] at htail
  rw [hrefines.sequence _ hslot]
  have := hsound.ring.sequence_lt hslot
  omega

theorem Pc.plain_of_claim {pc : Pc T} (hclaim : pc.claim = none) (haheadAt : pc.aheadAt = none) :
    pc.Plain := by
  cases pc <;>
    first
    | exact ⟨rfl, fun _ => rfl, rfl, rfl⟩
    | (cases hclaim; done)
    | cases haheadAt

theorem Invariant.advance (h : s.Invariant k) (hk : 0 < k) (hk63 : k ≤ 63)
    (hfew : s.operations < 2 ^ 63) (ht : t ≠ 0) {spurious : Bool}
    (hapart : s.apart (.step t spurious) = true)
    {result : RingBufferQueue T × History T × Pc T}
    (hstep : advance t spurious s.queue s.history (s.threads t) = some result) :
    ({ queue := result.1
       history := result.2.1
       threads := Function.update s.threads t result.2.2 } : QueueSystem T).Invariant k := by
  have hplain {pc : Pc T} (hclaim : pc.claim = none) (haheadAt : pc.aheadAt = none) :=
    Pc.plain_of_claim hclaim haheadAt
  unfold apart at hapart
  cases hpc : s.threads t with
  | idle =>
      rw [hpc] at hstep
      cases hstep
  | returned ok =>
      rw [hpc] at hstep
      cases hstep
  | choosing choice op =>
      rw [hpc] at hstep
      cases hstep
      exact h.choose ht hpc
  | loadIndex op =>
      rw [hpc] at hstep
      cases hstep
      have hplain' : (s.threads t).Plain := by
        rw [hpc]
        exact hplain rfl rfl
      apply h.load ht hplain' (hplain rfl rfl)
      · exact fun _ hside => by cases hside
      · intro side j hj
        cases hj
        exact le_rfl
      · exact fun _ _ hj => by cases hj
      · rw [hpc]
        exact .inr rfl
  | loadSequence op i =>
      rw [hpc] at hstep
      have hle := h.loaded t op.side i (by rw [hpc]; rfl)
      have hlt := h.index_lt hfew op.side
      have hawaited := awaited_eq (show i < 2 ^ 63 by omega) op.side
      have hplain' : (s.threads t).Plain := by
        rw [hpc]
        exact hplain rfl rfl
      unfold Concurrent.advance at hstep
      dsimp only at hstep
      rw [slot_eq h.mask, hawaited] at hstep
      split at hstep
      next hdiff =>
        cases hstep
        have hword : awaited i op.side < WORD := by
          have hvalue : WORD = 2 ^ 64 := rfl
          cases op.side <;> dsimp only [awaited] <;> omega
        have hsequence := (signedDiff_eq_zero (h.sequence_lt hk63 hfew i) hword).mp hdiff
        apply h.load ht hplain' (hplain rfl rfl)
        · exact fun _ hside => by cases hside
        · intro side j hj
          cases hj
          exact hle
        · intro op' j hj
          cases hj
          exact hsequence
        · rw [hpc]
          exact .inr rfl
      split at hstep
      · cases hstep
        apply h.load ht hplain' (hplain rfl rfl)
        · exact fun _ hside => by cases hside
        · exact fun _ _ hj => by cases hj
        · exact fun _ _ hj => by cases hj
        · exact .inl rfl
      · cases hstep
        apply h.load ht hplain' (hplain rfl rfl)
        · exact fun _ hside => by cases hside
        · exact fun _ _ hj => by cases hj
        · exact fun _ _ hj => by cases hj
        · rw [hpc]
          exact .inr rfl
  | exchange op i =>
      dsimp only at hapart
      rw [hpc] at hstep hapart
      have hplain' : (s.threads t).Plain := by
        rw [hpc]
        exact hplain rfl rfl
      unfold Concurrent.advance at hstep
      dsimp only at hstep
      split at hstep
      next hsuccess =>
        rw [Bool.and_eq_true, Bool.not_eq_true', decide_eq_true_iff] at hsuccess
        obtain ⟨hsure, hindex⟩ := hsuccess
        cases hstep
        apply h.exchange hk hfew ht hpc hindex
        simpa [hsure, hindex] using hapart
      · cases hstep
        apply h.load ht hplain' (hplain rfl rfl)
        · exact fun _ hside => by cases hside
        · intro side j hj
          cases hj
          exact le_rfl
        · exact fun _ _ hj => by cases hj
        · rw [hpc]
          exact .inr rfl
  | move op i =>
      rw [hpc] at hstep
      cases hstep
      exact h.move hk ht (.inl ⟨hpc, rfl⟩)
  | storeSequence op i =>
      rw [hpc] at hstep
      cases hstep
      exact h.handOver hk hk63 hfew ht (.inl ⟨hpc, rfl, rfl⟩)
  | spscLoadIndex op =>
      rw [hpc] at hstep
      have hplain' : (s.threads t).Plain := by
        rw [hpc]
        exact hplain rfl rfl
      cases hstep
      apply h.load ht hplain' (hplain rfl rfl)
      · intro side hside
        rw [hpc]
        exact hside
      · exact fun _ _ hj => by cases hj
      · exact fun _ _ hj => by cases hj
      · rw [hpc]
        exact .inr rfl
  | spscLoadSequence op i =>
      dsimp only at hapart
      rw [hpc] at hstep hapart
      have hplain' : (s.threads t).Plain := by
        rw [hpc]
        exact hplain rfl rfl
      unfold Concurrent.advance at hstep
      dsimp only at hstep
      split at hstep
      · cases hstep
        apply h.load ht hplain' (hplain rfl rfl)
        · exact fun _ hside => by cases hside
        · exact fun _ _ hj => by cases hj
        · exact fun _ _ hj => by cases hj
        · exact .inl rfl
      next hsequence =>
        have hsequence := not_not.mp hsequence
        cases hstep
        apply h.spscClaim hk hfew ht hpc hsequence
        simpa [hsequence] using hapart
  | spscMove op i =>
      rw [hpc] at hstep
      cases hstep
      exact h.move hk ht (.inr ⟨hpc, rfl⟩)
  | spscStoreSequence op i =>
      rw [hpc] at hstep
      cases hstep
      exact h.handOver hk hk63 hfew ht (.inr ⟨hpc, rfl, rfl⟩)
  | spscStoreIndex op i =>
      rw [hpc] at hstep
      cases hstep
      exact h.spscStoreIndex hfew ht hpc

/-- A call. -/
theorem Invariant.call (h : s.Invariant k) (ht : t ≠ 0) (houtside : (s.threads t).outside = true) :
    ({ s with
        threads := Function.update s.threads t (.choosing .seenProducers op)
        history := { s.history with
          calls := Function.update s.history.calls op.side (t :: s.history.calls op.side) } } :
      QueueSystem T).Invariant k := by
  have hplain : (s.threads t).Plain := by
    cases hpc : s.threads t <;> rw [hpc] at houtside <;>
      first
      | exact ⟨rfl, fun _ => rfl, rfl, rfl⟩
      | cases houtside
  apply h.quiet ht (.refl t s.queue) hplain ⟨rfl, fun _ => rfl, rfl, rfl⟩
  · exact fun _ hside => by cases hside
  · exact fun _ _ hi => by cases hi
  · exact fun _ _ hi => by cases hi
  · intro side u hu
    by_cases heq : side = op.side
    · rw [heq, Function.update_self, List.count_cons_of_ne hu.symm]
    · rw [Function.update_of_ne heq]
  · intro side
    unfold Pc.pending
    by_cases heq : side = op.side
    · rw [heq, Function.update_self, List.count_cons_self]
      have hone : (if (Pc.choosing .seenProducers op : Pc T).unclaimed = some op.side then 1 else 0)
          ≤ 1 := by
        split <;> simp
      omega
    · rw [Function.update_of_ne heq]
      simp [Pc.unclaimed, Ne.symm heq]

/-- Only a call starts an operation. -/
theorem calls_advance {spurious : Bool} {q : RingBufferQueue T} {history : History T} {pc : Pc T}
    {result : RingBufferQueue T × History T × Pc T}
    (hstep : advance t spurious q history pc = some result) :
    result.2.1.calls = history.calls := by
  have hmove (op : Op T) (i : ℕ) : (moveValue op i q history).2.calls = history.calls := by
    cases op <;> rfl
  have hfinish (op : Op T) (i : ℕ) (history : History T) :
      (history.finish op i).calls = history.calls := by
    cases op <;> rfl
  have hhand (op : Op T) (i : ℕ) : (handOver op i q history).2.calls = history.calls := by
    cases op <;> rfl
  cases pc with
  | idle | returned ok => cases hstep
  | choosing choice op | loadIndex op | spscLoadIndex op =>
      cases hstep
      rfl
  | loadSequence op i | exchange op i | spscLoadSequence op i =>
      unfold Concurrent.advance at hstep
      dsimp only at hstep
      split_ifs at hstep <;> cases hstep <;> rfl
  | move op i | spscMove op i =>
      cases hstep
      exact hmove op i
  | storeSequence op i =>
      cases hstep
      exact (hfinish op i _).trans (hhand op i)
  | spscStoreSequence op i =>
      cases hstep
      exact hhand op i
  | spscStoreIndex op i =>
      cases hstep
      exact hfinish op i _

theorem step_call {next : QueueSystem T} (hstep : s.step (.call t op) = some next) :
    (t ≠ 0 ∧ (s.threads t).outside = true) ∧ next = { s with
      threads := Function.update s.threads t (.choosing .seenProducers op)
      history := { s.history with
        calls := Function.update s.history.calls op.side (t :: s.history.calls op.side) } } := by
  have hstep : (if t ≠ 0 && (s.threads t).outside then some _ else none) = some next := hstep
  rw [Option.ite_none_right_eq_some, Bool.and_eq_true, decide_eq_true_iff] at hstep
  exact ⟨hstep.1, (Option.some_inj.mp hstep.2).symm⟩

theorem operations_le {label : QueueLabel T} {next : QueueSystem T}
    (hstep : s.step label = some next) : s.operations ≤ next.operations := by
  cases label with
  | call t op =>
      obtain ⟨-, rfl⟩ := step_call hstep
      unfold operations
      cases op <;> simp [Op.side]
  | step t spurious =>
      obtain ⟨result, hadvance, rfl⟩ := Option.map_eq_some_iff.mp hstep
      unfold operations
      rw [calls_advance hadvance]

/-- What one step preserves. -/
theorem Invariant.step (h : s.Invariant k) (hk : 0 < k) (hk63 : k ≤ 63)
    (hfew : s.operations < 2 ^ 63) {label : QueueLabel T} (hapart : s.apart label = true)
    {next : QueueSystem T} (hstep : s.step label = some next) : next.Invariant k := by
  cases label with
  | call t op =>
      obtain ⟨⟨ht, houtside⟩, rfl⟩ := step_call hstep
      exact h.call ht houtside
  | step t spurious =>
      obtain ⟨result, hadvance, rfl⟩ := Option.map_eq_some_iff.mp hstep
      have ht : t ≠ 0 := by
        rintro rfl
        rw [h.resting] at hadvance
        cases hadvance
      exact h.advance hk hk63 hfew ht hapart hadvance

/-- What a run preserves. -/
theorem Invariant.exec (h : s.Invariant k) (hk : 0 < k) (hk63 : k ≤ 63)
    {labels : List (QueueLabel T)} {final : QueueSystem T}
    (hapart : Along QueueSystem.step (fun s label => s.apart label = true) s labels)
    (hexec : exec QueueSystem.step s labels = some final) (hfew : final.operations < 2 ^ 63) :
    final.Invariant k := by
  have hkeep : ∀ (s : QueueSystem T) label next,
      (s.operations < 2 ^ 63 → s.Invariant k) → s.apart label = true →
      s.step label = some next → next.operations < 2 ^ 63 → next.Invariant k := by
    intro s label next hgood happly hstep hnext
    have hbefore := (operations_le hstep).trans_lt hnext
    exact (hgood hbefore).step hk hk63 hbefore happly hstep
  exact exec_invariant_along hkeep (fun _ => h) hapart hexec hfew

end QueueSystem

end Concurrent
end Katana
