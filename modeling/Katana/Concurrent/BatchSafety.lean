import Katana.Concurrent.BatchRefinement

/-!
# Safety of batches

`push_batch` does not look at the slots that it claims.  As long as each of them has
been given back, batches and single operations together keep every value in its place
until it is taken once.  A consumer moves `tail_` before it takes its value, so a slot
may be claimed that has not been given back.
-/

namespace Katana
namespace Concurrent

open Library RingBufferQueue
open Library.TicketQueue (fillClaims drainClaims fillClaims_nil fillClaims_cons
  fillClaims_passed drainClaims_zero drainClaims_succ drainClaims_passed)

variable {T : Type*}

/-! ## What a thread knows -/

/-- A copy of an index, with the number of slots behind it that have been found ready,
and a position that the head has reached. -/
structure IndexCopy where
  side : Side
  base : ℕ
  checked : ℕ := 0
  top : ℕ := 0

def BatchPc.copy : BatchPc T → Option IndexCopy
  | .single (.loadSequence op index) => some { side := op.side, base := index }
  | .single (.exchange op index) => some { side := op.side, base := index, checked := 1 }
  | .popLoadHead _ tail => some { side := .consumer, base := tail }
  | .popLoadSequence _ tail toPop i =>
      some { side := .consumer, base := tail, checked := i, top := tail + toPop }
  | .popExchange _ tail toPop =>
      some { side := .consumer, base := tail, checked := toPop, top := tail + toPop }
  | _ => none

/-- While the index is the copy, the slots are as they were found. -/
structure IndexCopy.Holds (k : ℕ) (q : RingBufferQueue T) (c : IndexCopy) : Prop where
  base : c.base ≤ q.index c.side
  top : c.top ≤ q.head
  ready : q.index c.side = c.base → ∀ j < c.checked,
    BatchSystem.Numbered k q c.side (c.base + j)

theorem IndexCopy.Holds.mono {k : ℕ} {q q' : RingBufferQueue T} {c : IndexCopy}
    (h : c.Holds k q)
    (hindex : ∀ side, q.index side ≤ q'.index side)
    (hnumbers : ∀ side p, q.index side ≤ p → BatchSystem.Numbered k q side p →
      BatchSystem.Numbered k q' side p) :
    c.Holds k q' := by
  constructor
  · exact h.base.trans (hindex c.side)
  · exact h.top.trans (hindex .producer)
  · intro hsame j hj
    -- an index that has moved is past the copy
    have hbefore : q.index c.side = c.base :=
      le_antisymm ((hindex c.side).trans hsame.le) h.base
    exact hnumbers c.side (c.base + j) (by omega) (h.ready hbefore j hj)

theorem IndexCopy.Holds.fresh {k : ℕ} {q : RingBufferQueue T} {side : Side} {base : ℕ}
    (hbase : base ≤ q.index side) :
    IndexCopy.Holds k q { side := side, base := base } := by
  constructor
  · exact hbase
  · exact Nat.zero_le _
  · intro _ j hj
    cases hj

theorem IndexCopy.Holds.one {k : ℕ} {q : RingBufferQueue T} {side : Side} {base : ℕ}
    (hbase : base ≤ q.index side) (hready : BatchSystem.Numbered k q side base) :
    IndexCopy.Holds k q { side := side, base := base, checked := 1 } := by
  constructor
  · exact hbase
  · exact Nat.zero_le _
  · intro _ j hj
    rw [Nat.lt_one_iff.mp hj]
    exact hready

/-- The slot of the copy is read. -/
theorem IndexCopy.Holds.next {k tail top i : ℕ} {q : RingBufferQueue T}
    (h : IndexCopy.Holds k q { side := .consumer, base := tail, checked := i, top := top })
    (hmask : q.mask + 1 = 2 ^ k) (hi : tail + i < top) (hfew : q.head < 2 ^ 63)
    (hnumber : q.sequence (q.slot (tail + i)) = (tail + i + 1) % WORD) :
    IndexCopy.Holds k q { side := .consumer, base := tail, checked := i + 1, top := top } := by
  have hword : (tail + i + 1) % WORD = tail + i + 1 := by
    have hsmall : tail + i + 1 < 2 ^ 64 := by
      have htop : top ≤ q.head := h.top
      omega
    exact Nat.mod_eq_of_lt hsmall
  rw [slot_eq hmask, hword] at hnumber
  constructor
  · exact h.base
  · exact h.top
  · intro hsame j hj
    rcases Nat.lt_succ_iff_lt_or_eq.mp hj with hbefore | rfl
    · exact h.ready hsame j hbefore
    · exact hnumber

/-- Fewer slots have been checked, and the head has reached less. -/
theorem IndexCopy.Holds.less {k : ℕ} {q : RingBufferQueue T} {side : Side} {base checked top : ℕ}
    (h : IndexCopy.Holds k q { side := side, base := base, checked := checked, top := top })
    {checked' top' : ℕ} (hchecked : checked' ≤ checked) (htop : top' ≤ q.head) :
    IndexCopy.Holds k q { side := side, base := base, checked := checked', top := top' } := by
  constructor
  · exact h.base
  · exact htop
  · exact fun hsame j hj => h.ready hsame j (hj.trans_le hchecked)

/-- The counts of a thread are as its loops have them, and it is not on the fast path. -/
def BatchPc.Proper : BatchPc T → Prop
  | .single pc => pc.multi = true
  | .pushExchange values _ toPush => toPush ≤ values.length
  | .popLoadSequence _ _ toPop i => i < toPop
  | .popExchange _ _ toPop => 1 ≤ toPop
  | .popMove _ left _ | .popStoreSequence _ left _ => 1 ≤ left
  | _ => True

namespace BatchSystem

/-- Values for which `push_batch` and `try_push` have claimed a position. -/
def pushed (s : BatchSystem T) : ℕ :=
  (s.history.claimed .producer).length

/-- If the step is the exchange of a `push_batch` that succeeds, every slot that is
claimed has the number of its position, as `try_push` asks for. -/
def claimsReleased (s : BatchSystem T) : BatchLabel T → Bool
  | .call _ _ => true
  | .step t spurious =>
      match s.threads t with
      | .pushExchange _ head toPush =>
          spurious || s.queue.head ≠ head || (List.range toPush).all fun j =>
            s.queue.sequence (s.queue.slot (head + j)) = (head + j) % WORD
      | _ => true

/-- If the step is the exchange of a `push_batch` that succeeds, the elements before
have been moved out of every slot that is claimed. -/
def claimsVacant (s : BatchSystem T) : BatchLabel T → Bool
  | .call _ _ => true
  | .step t spurious =>
      match s.threads t with
      | .pushExchange _ head toPush =>
          spurious || s.queue.head ≠ head || (List.range toPush).all fun j =>
            (s.queue.storage (s.queue.slot (head + j))).isNone
      | _ => true

/-- No value is lost, overwritten or delivered twice. -/
def InOrder (s : BatchSystem T) : Prop :=
  ({ queue := s.queue, history := s.history } : QueueSystem T).InOrder

/-! ## Invariant -/

/-- A push that has returned has its value stored, and its position is not claimed. -/
structure Settled (s : BatchSystem T) : Prop where
  stored : ∀ e ∈ s.history.accepted, e ∈ s.history.stored
  once : (s.history.accepted.map (·.1)).Nodup
  fresh : ∀ t p c, (s.threads t).claimAt p = some c → c.value.isSome →
    p ∉ s.history.accepted.map (·.1)

structure Invariant (k : ℕ) (s : BatchSystem T) : Prop where
  mask : s.queue.mask + 1 = 2 ^ k
  refined : s.Refined k
  multi : s.queue.multiProducerSeen = true
  proper : ∀ t, (s.threads t).Proper
  copies : ∀ t c, (s.threads t).copy = some c → c.Holds k s.queue
  order : ∀ side, (s.history.claimed side).map (·.1) = List.range (s.queue.index side)
  settled : s.Settled

theorem invariant_initial {k : ℕ} {capacity : ℕ} (hcapacity : nextPowerOfTwo capacity = 2 ^ k) :
    (BatchSystem.initial capacity false : BatchSystem T).Invariant k := by
  have hmask : nextPowerOfTwo capacity - 1 + 1 = 2 ^ k := by
    have := Nat.one_le_two_pow (n := k)
    omega
  constructor
  · exact hmask
  · refine ⟨.empty, TicketQueue.sound_empty, ?_⟩
    constructor
    · rfl
    · rfl
    · exact fun _ _ => rfl
    · rfl
    · exact fun _ _ => rfl
    · rfl
    · rfl
    · rfl
    · rfl
  · rfl
  · exact fun _ => rfl
  · exact fun _ _ h => by cases h
  · intro side
    cases side <;> rfl
  · constructor
    · exact fun _ h => by cases h
    · exact List.nodup_nil
    · exact fun _ _ _ h => by cases h

section

variable {k : ℕ} {s s' : BatchSystem T} {t i : ℕ} {pc : BatchPc T} {op : Op T}

theorem Settled.accepted_lt (h : s.Settled) (hrefined : s.Refined k) {p : ℕ}
    (hp : p ∈ s.history.accepted.map (·.1)) : p < s.queue.head := by
  rcases List.mem_map.mp hp with ⟨e, he, rfl⟩
  exact hrefined.stored_lt (h.stored e he)

/-- No push has returned. -/
theorem Settled.same (h : s.Settled) (hthreads : s'.threads = Function.update s.threads t pc)
    (hstored : ∀ e ∈ s.history.stored, e ∈ s'.history.stored)
    (haccepted : s'.history.accepted = s.history.accepted)
    (hfresh : ∀ p c, pc.claimAt p = some c → c.value.isSome →
      p ∉ s.history.accepted.map (·.1)) : s'.Settled := by
  constructor
  · rw [haccepted]
    exact fun e he => hstored e (h.stored e he)
  · rw [haccepted]
    exact h.once
  · rw [haccepted, hthreads]
    apply QueueSystem.forall_update (P := fun _ (pc : BatchPc T) => ∀ p c, pc.claimAt p = some c →
      c.value.isSome → p ∉ s.history.accepted.map (·.1))
    · exact fun u _ => h.fresh u
    · exact hfresh

/-- The push of a position returns, or the position has been drained. -/
theorem Settled.finish (h : s.Settled) (hrefined : s.Refined k)
    (hbefore : (s.threads t).claimAt i = some ⟨op.value, i, true⟩)
    (hafter : pc.claimAt = Function.update (s.threads t).claimAt i none)
    {queue : RingBufferQueue T} :
    ({ queue := queue
       threads := Function.update s.threads t pc
       history := (handOver op i s.queue s.history).2.finish op i } : BatchSystem T).Settled := by
  have hmine (p : ℕ) (c : Claim T) (hc : pc.claimAt p = some c) :
      p ≠ i ∧ (s.threads t).claimAt p = some c := by
    rw [hafter] at hc
    by_cases heq : p = i
    · rw [heq, Function.update_self] at hc
      cases hc
    · rw [Function.update_of_ne heq] at hc
      exact ⟨heq, hc⟩
  cases op with
  | pop =>
      apply h.same
      · rfl
      · exact fun _ he => he
      · rfl
      · exact fun p c hc => h.fresh t p c (hmine p c hc).2
  | push v =>
      have hnew := h.fresh t i _ hbefore rfl
      constructor
      · intro e he
        rcases List.mem_append.mp he with hold | hlast
        · exact h.stored e hold
        · rw [List.mem_singleton.mp hlast]
          exact hrefined.stored_mem hbefore
      · show ((s.history.accepted ++ [(i, v)]).map (·.1)).Nodup
        rw [List.map_append, List.nodup_append]
        refine ⟨h.once, List.nodup_singleton _, ?_⟩
        intro p hp q hq heq
        rw [List.map_singleton, List.mem_singleton] at hq
        have hpi : p = i := heq.trans hq
        exact hnew (hpi ▸ hp)
      · show ∀ u p c, (Function.update s.threads t pc u).claimAt p = some c → c.value.isSome →
          p ∉ (s.history.accepted ++ [(i, v)]).map (·.1)
        apply QueueSystem.forall_update (P := fun _ (pc : BatchPc T) => ∀ p c,
          pc.claimAt p = some c → c.value.isSome → p ∉ (s.history.accepted ++ [(i, v)]).map (·.1))
        · intro u hu p c hc hsome
          rw [List.map_append, List.mem_append, not_or, List.map_singleton, List.mem_singleton]
          refine ⟨h.fresh u p c hc hsome, ?_⟩
          rintro rfl
          exact hu (hrefined.unshared hbefore hc)
        · intro p c hc hsome
          rw [List.map_append, List.mem_append, not_or, List.map_singleton, List.mem_singleton]
          exact ⟨h.fresh t p c (hmine p c hc).2 hsome, (hmine p c hc).1⟩

/-- A step of one thread that leaves what the others know. -/
theorem Invariant.thread (h : s.Invariant k)
    (hthreads : s'.threads = Function.update s.threads t pc) (hrefined : s'.Refined k)
    (hmask : s'.queue.mask = s.queue.mask)
    (hmulti : s'.queue.multiProducerSeen = s.queue.multiProducerSeen) (hproper : pc.Proper)
    (hcopy : ∀ c, pc.copy = some c → c.Holds k s'.queue)
    (hindex : ∀ side, s.queue.index side ≤ s'.queue.index side)
    (hnumbers : ∀ side p, s.queue.index side ≤ p → Numbered k s.queue side p →
      Numbered k s'.queue side p)
    (horder : ∀ side, (s'.history.claimed side).map (·.1) = List.range (s'.queue.index side))
    (hsettled : s'.Settled) : s'.Invariant k := by
  constructor
  · rw [hmask, h.mask]
  · exact hrefined
  · rw [hmulti, h.multi]
  · rw [hthreads]
    apply QueueSystem.forall_update (P := fun _ (pc : BatchPc T) => pc.Proper)
    · exact fun u _ => h.proper u
    · exact hproper
  · rw [hthreads]
    apply QueueSystem.forall_update (P := fun _ (pc : BatchPc T) => ∀ c, pc.copy = some c →
      c.Holds k s'.queue)
    · intro u _ c hc
      exact (h.copies u c hc).mono hindex hnumbers
    · exact hcopy
  · exact horder
  · exact hsettled

/-! ## Steps that leave the ring alone -/

theorem Invariant.quiet (h : s.Invariant k) {calls : Side → List ℕ}
    (hbefore : (s.threads t).claimAt = fun _ => none) (hafter : pc.claimAt = fun _ => none)
    (hproper : pc.Proper) (hcopy : ∀ c, pc.copy = some c → c.Holds k s.queue) :
    ({ queue := s.queue
       threads := Function.update s.threads t pc
       history := { s.history with calls := calls } } : BatchSystem T).Invariant k := by
  apply h.thread rfl
  · exact h.refined.quiet rfl (hafter.trans hbefore.symm) rfl rfl rfl rfl rfl
  · rfl
  · rfl
  · exact hproper
  · exact hcopy
  · exact fun _ => le_rfl
  · exact fun _ _ _ hnumber => hnumber
  · exact h.order
  · apply h.settled.same
    · rfl
    · exact fun _ he => he
    · rfl
    · intro p c hc
      rw [hafter] at hc
      cases hc

/-- A step to a place where nothing is known. -/
theorem Invariant.plain (h : s.Invariant k) (hbefore : (s.threads t).claimAt = fun _ => none)
    (hafter : pc.claimAt = fun _ => none) (hproper : pc.Proper) (hcopy : pc.copy = none) :
    ({ queue := s.queue
       threads := Function.update s.threads t pc
       history := s.history } : BatchSystem T).Invariant k := by
  apply h.quiet hbefore hafter hproper
  intro c hc
  rw [hcopy] at hc
  cases hc

/-! ## Claims -/

theorem claimed_claimMany {history : History T} {side : Side} {queue : RingBufferQueue T}
    (horder : ∀ side, (history.claimed side).map (·.1) = List.range (queue.index side))
    (count : ℕ) (other : Side) :
    ((history.claimMany side (queue.index side) count t).claimed other).map (·.1) =
      List.range ((queue.setIndex (queue.index side + count) side).index other) := by
  unfold History.claimMany
  dsimp only
  by_cases heq : other = side
  · rw [heq, Function.update_self, QueueSystem.index_setIndex_self, List.map_append, horder,
      List.range_add, List.map_map]
    rfl
  · rw [Function.update_of_ne heq, QueueSystem.index_setIndex_other _ _ heq, horder]

theorem index_le_setIndex (q : RingBufferQueue T) (count : ℕ) (side other : Side) :
    q.index other ≤ (q.setIndex (q.index side + count) side).index other := by
  by_cases heq : other = side
  · rw [heq, QueueSystem.index_setIndex_self]
    exact Nat.le_add_right _ _
  · rw [QueueSystem.index_setIndex_other _ _ heq]

/-- Positions are claimed at an end. -/
theorem Invariant.claims (h : s.Invariant k) (side : Side) {count : ℕ}
    (hrefined : ({ queue := s.queue.setIndex (s.queue.index side + count) side
                   threads := Function.update s.threads t pc
                   history := s.history.claimMany side (s.queue.index side) count t } :
      BatchSystem T).Refined k)
    (hproper : pc.Proper) (hcopy : pc.copy = none)
    (hfresh : ∀ p c, pc.claimAt p = some c → c.value.isSome → s.queue.head ≤ p) :
    ({ queue := s.queue.setIndex (s.queue.index side + count) side
       threads := Function.update s.threads t pc
       history := s.history.claimMany side (s.queue.index side) count t } :
      BatchSystem T).Invariant k := by
  have hsame := QueueSystem.setIndex_same s.queue (s.queue.index side + count) side
  apply h.thread rfl hrefined
  · exact hsame.1
  · cases side <;> rfl
  · exact hproper
  · intro c hc
    rw [hcopy] at hc
    cases hc
  · exact index_le_setIndex s.queue count side
  · intro other p _ hnumber
    unfold Numbered
    rw [hsame.2.1]
    exact hnumber
  · exact claimed_claimMany h.order count
  · apply h.settled.same
    · rfl
    · exact fun _ he => he
    · rfl
    · intro p c hc hsome hp
      exact absurd (h.settled.accepted_lt h.refined hp) (Nat.not_lt.mpr (hfresh p c hc hsome))

theorem Invariant.fills (h : s.Invariant k) (hk : 0 < k) {values : List T}
    (hready : ∀ j < values.length, Numbered k s.queue .producer (s.queue.head + j))
    (hbefore : (s.threads t).claimAt = fun _ => none)
    (hclaims : pc.claimAt = fillClaims values s.queue.head) (hproper : pc.Proper)
    (hcopy : pc.copy = none) :
    ({ queue := s.queue.setIndex (s.queue.head + values.length) .producer
       threads := Function.update s.threads t pc
       history := s.history.claimMany .producer s.queue.head values.length t } :
      BatchSystem T).Invariant k := by
  apply h.claims .producer _ hproper hcopy
  · intro p c hc _
    rw [hclaims, TicketQueue.fillClaims] at hc
    split at hc
    next hle => exact hle
    next => cases hc
  · exact h.refined.claimHeads hk hready rfl hbefore hclaims rfl rfl rfl rfl rfl

theorem Invariant.drains (h : s.Invariant k) (hk : 0 < k) {count : ℕ}
    (hready : ∀ j < count, Numbered k s.queue .consumer (s.queue.tail + j))
    (hbefore : (s.threads t).claimAt = fun _ => none)
    (hclaims : pc.claimAt = drainClaims s.queue.tail count) (hproper : pc.Proper)
    (hcopy : pc.copy = none) :
    ({ queue := s.queue.setIndex (s.queue.tail + count) .consumer
       threads := Function.update s.threads t pc
       history := s.history.claimMany .consumer s.queue.tail count t } :
      BatchSystem T).Invariant k := by
  apply h.claims .consumer _ hproper hcopy
  · intro p c hc hsome
    rw [hclaims, TicketQueue.drainClaims] at hc
    split at hc
    · cases hc
      cases hsome
    · cases hc
  · exact h.refined.claimTails hk hready rfl hbefore hclaims rfl rfl rfl rfl rfl

/-! ## Values and slots -/

theorem Invariant.move (h : s.Invariant k) (hk : 0 < k)
    (hbefore : (s.threads t).claimAt i = some ⟨op.value, i, false⟩)
    (hafter : pc.claimAt = Function.update (s.threads t).claimAt i (some ⟨op.value, i, true⟩))
    (hproper : pc.Proper) (hcopy : pc.copy = none) :
    ({ queue := (moveValue op i s.queue s.history).1
       threads := Function.update s.threads t pc
       history := (moveValue op i s.queue s.history).2 } : BatchSystem T).Invariant k := by
  apply h.thread rfl (h.refined.move hk h.mask hbefore hafter)
  · cases op <;> rfl
  · cases op <;> rfl
  · exact hproper
  · intro c hc
    rw [hcopy] at hc
    cases hc
  · intro side
    cases op <;> cases side <;> exact le_rfl
  · intro side p _ hnumber
    cases op <;> exact hnumber
  · intro side
    have horder := h.order side
    cases op <;> cases side <;> exact horder
  · apply h.settled.same rfl
    · intro e he
      cases op
      · exact List.mem_append_left _ he
      · exact he
    · cases op <;> rfl
    · intro p c hc hsome
      rw [hafter] at hc
      by_cases heq : p = i
      · rw [heq, Function.update_self] at hc
        cases hc
        rw [heq]
        exact h.settled.fresh t i _ hbefore hsome
      · rw [Function.update_of_ne heq] at hc
        exact h.settled.fresh t p c hc hsome

theorem Invariant.handOver (h : s.Invariant k) (hk : 0 < k) (hk63 : k ≤ 63)
    (hfew : s.queue.head < 2 ^ 63)
    (hbefore : (s.threads t).claimAt i = some ⟨op.value, i, true⟩)
    (hafter : pc.claimAt = Function.update (s.threads t).claimAt i none)
    (hproper : pc.Proper) (hcopy : pc.copy = none) :
    ({ queue := (handOver op i s.queue s.history).1
       threads := Function.update s.threads t pc
       history := (handOver op i s.queue s.history).2.finish op i } :
      BatchSystem T).Invariant k := by
  have hlt : i < 2 ^ 63 := by
    have hindex := h.refined.claim_lt hbefore
    have htail := h.refined.tail_le
    cases op
    · exact hindex.trans hfew
    · exact hindex.trans (htail.trans_lt hfew)
  apply h.thread rfl
  · apply h.refined.handOver hk hk63 hlt h.mask hbefore hafter <;> cases op <;> rfl
  · rfl
  · rfl
  · exact hproper
  · intro c hc
    rw [hcopy] at hc
    cases hc
  · intro side
    cases side <;> exact le_rfl
  · intro side p hle hnumber
    have hne := h.refined.claim_ne hk hbefore hle hnumber
    unfold Numbered
    dsimp only [Concurrent.handOver]
    rw [slot_eq h.mask, Function.update_of_ne hne]
    exact hnumber
  · intro side
    have horder := h.order side
    cases op <;> cases side <;> exact horder
  · exact h.settled.finish h.refined hbefore hafter

/-! ## Steps of the single operations -/

theorem ready_lt {i : ℕ} (hi : i < 2 ^ 63) (side : Side) : ready i side < WORD := by
  cases side
  · exact hi.trans (by decide)
  · exact Nat.mod_lt _ (by decide)

/-- Outside a claim a thread of a single operation has none. -/
theorem claimAt_single {pc : Pc T} (h : pc.claim = none) :
    (BatchPc.single pc).claimAt = fun _ => none := by
  rw [BatchPc.claimAt, h, oneClaim]

theorem claimAt_moving {pc : Pc T} {c : Claim T} (h : pc.claim = some c) :
    (BatchPc.single pc).claimAt = Function.update (fun _ => none) c.position (some c) := by
  rw [BatchPc.claimAt, h, oneClaim]

/-- The step of a thread in `try_push` or `try_pop`. -/
theorem Invariant.single (h : s.Invariant k) (hk : 0 < k) (hk63 : k ≤ 63)
    (hfew : s.queue.head < 2 ^ 63) {single : Pc T} (hpc : s.threads t = .single single)
    {spurious : Bool} {result : RingBufferQueue T × History T × Pc T}
    (hstep : advance t spurious s.queue s.history single = some result) :
    ({ queue := result.1
       threads := Function.update s.threads t (.single result.2.2)
       history := result.2.1 } : BatchSystem T).Invariant k := by
  have hmulti : single.multi = true := by
    have hproper := h.proper t
    rw [hpc] at hproper
    exact hproper
  have hindex (side : Side) : s.queue.index side < 2 ^ 63 := by
    have htail := h.refined.tail_le
    cases side
    · exact hfew
    · exact htail.trans_lt hfew
  have hcopies (c : IndexCopy) (hc : (BatchPc.single single).copy = some c) :
      c.Holds k s.queue := h.copies t c (by rw [hpc, hc])
  have hquiet {pc : Pc T} (hplain : single.claim = none) (hplain' : pc.claim = none)
      (hmulti' : pc.multi = true)
      (hcopy : ∀ c, (BatchPc.single pc).copy = some c → c.Holds k s.queue) :
      ({ queue := s.queue
         threads := Function.update s.threads t (.single pc)
         history := s.history } : BatchSystem T).Invariant k := by
    apply h.quiet
    · rw [hpc, claimAt_single hplain]
    · exact claimAt_single hplain'
    · exact hmulti'
    · exact hcopy
  cases single with
  | idle => cases hstep
  | returned ok => cases hstep
  | choosing choice op =>
      cases choice <;> cases hmulti
      have hnext : (s.queue.choose t op .seenProducers).2 = .loadIndex op := if_pos h.multi
      cases hstep
      rw [hnext]
      exact hquiet rfl rfl rfl fun c hc => by cases hc
  | loadIndex op =>
      cases hstep
      exact hquiet rfl rfl rfl fun c hc => by
        cases hc
        exact .fresh le_rfl
  | loadSequence op i =>
      have hbase : i ≤ s.queue.index op.side := (hcopies _ rfl).base
      have hawaited := QueueSystem.awaited_eq (hbase.trans_lt (hindex op.side)) op.side
      unfold Concurrent.advance at hstep
      dsimp only at hstep
      rw [slot_eq h.mask, hawaited] at hstep
      split at hstep
      next hdiff =>
        cases hstep
        have hword : QueueSystem.awaited i op.side < WORD := by
          rw [← hawaited]
          exact ready_lt (hbase.trans_lt (hindex op.side)) op.side
        have hnumber : Numbered k s.queue op.side i :=
          (signedDiff_eq_zero (h.refined.sequence_lt hk63 hfew i) hword).mp hdiff
        exact hquiet rfl rfl rfl fun c hc => by
          cases hc
          exact .one hbase hnumber
      next =>
        split at hstep
        · cases hstep
          exact hquiet rfl rfl rfl fun c hc => by cases hc
        · cases hstep
          exact hquiet rfl rfl rfl fun c hc => by cases hc
  | exchange op i =>
      unfold Concurrent.advance at hstep
      dsimp only at hstep
      split at hstep
      next hsuccess =>
        rw [Bool.and_eq_true, Bool.not_eq_true', decide_eq_true_iff] at hsuccess
        rcases hsuccess with ⟨-, hsame⟩
        have hnumber : Numbered k s.queue op.side i := (hcopies _ rfl).ready hsame 0 Nat.one_pos
        have hbefore : (s.threads t).claimAt = fun _ => none := by
          rw [hpc, claimAt_single rfl]
        have hlt := hindex op.side
        have hsucc : (i + 1) % WORD = i + 1 := Nat.mod_eq_of_lt (show i + 1 < 2 ^ 64 by omega)
        cases hstep
        rw [hsucc]
        cases op with
        | push v =>
            have hhead : s.queue.head = i := hsame
            subst hhead
            have hclaims : (BatchPc.single (.move (.push v) s.queue.head)).claimAt =
                fillClaims [v] s.queue.head := by
              rw [fillClaims_cons, fillClaims_nil]
              rfl
            have hready : ∀ j < [v].length,
                Numbered k s.queue .producer (s.queue.head + j) := by
              intro j hj
              rw [Nat.lt_one_iff.mp hj]
              exact hnumber
            exact h.fills hk hready hbefore hclaims rfl rfl
        | pop =>
            have htail : s.queue.tail = i := hsame
            subst htail
            have hclaims : (BatchPc.single (.move .pop s.queue.tail) : BatchPc T).claimAt =
                drainClaims s.queue.tail 1 := by
              rw [drainClaims_succ, drainClaims_zero]
              rfl
            have hready : ∀ j < 1, Numbered k s.queue .consumer (s.queue.tail + j) := by
              intro j hj
              rw [Nat.lt_one_iff.mp hj]
              exact hnumber
            exact h.drains hk hready hbefore hclaims rfl rfl
      next =>
        cases hstep
        exact hquiet rfl rfl rfl fun c hc => by
          cases hc
          exact .fresh le_rfl
  | move op i =>
      cases hstep
      have hbefore : (s.threads t).claimAt =
          Function.update (fun _ => none) i (some ⟨op.value, i, false⟩) := by
        rw [hpc]
        rfl
      apply h.move hk
      · rw [hbefore, Function.update_self]
      · rw [hbefore, Function.update_idem]
        rfl
      · rfl
      · rfl
  | storeSequence op i =>
      cases hstep
      have hbefore : (s.threads t).claimAt =
          Function.update (fun _ => none) i (some ⟨op.value, i, true⟩) := by
        rw [hpc]
        rfl
      apply h.handOver hk hk63 hfew
      · rw [hbefore, Function.update_self]
      · rw [hbefore, Function.update_idem, Function.update_eq_self_iff.mpr rfl]
        rfl
      · rfl
      · rfl
  | spscLoadIndex op => cases hmulti
  | spscLoadSequence op i => cases hmulti
  | spscMove op i => cases hmulti
  | spscStoreSequence op i => cases hmulti
  | spscStoreIndex op i => cases hmulti

/-! ## Steps of a batch -/

theorem wordSub_eq {a b : ℕ} (hle : b ≤ a) (ha : a < 2 ^ 63) : wordSub a b = a - b := by
  unfold wordSub WORD
  omega

theorem pushed_eq (h : s.Invariant k) : s.pushed = s.queue.head := by
  have horder := congrArg List.length (h.order .producer)
  rw [List.length_map, List.length_range] at horder
  exact horder

/-- A batch claims positions that have been given back. -/
theorem Invariant.pushExchange (h : s.Invariant k) (hk : 0 < k) {values : List T} {toPush : ℕ}
    (hpc : s.threads t = .pushExchange values s.queue.head toPush)
    (hroom : s.queue.head + toPush < 2 ^ 63)
    (hready : ∀ j < toPush, s.queue.sequence (s.queue.slot (s.queue.head + j)) =
      (s.queue.head + j) % WORD) :
    ({ queue := s.queue.setIndex ((s.queue.head + toPush) % WORD) .producer
       threads := Function.update s.threads t
         (.pushMove (values.take toPush) s.queue.head toPush)
       history := s.history.claimMany .producer s.queue.head toPush t } :
      BatchSystem T).Invariant k := by
  have hproper := h.proper t
  rw [hpc] at hproper
  have hlength : (values.take toPush).length = toPush := List.length_take_of_le hproper
  have hword : (s.queue.head + toPush) % WORD = s.queue.head + toPush :=
    Nat.mod_eq_of_lt (hroom.trans (by decide))
  have hnumbers : ∀ j < (values.take toPush).length,
      Numbered k s.queue .producer (s.queue.head + j) := by
    intro j hj
    rw [hlength] at hj
    have hsmall : s.queue.head + j < 2 ^ 63 := (Nat.add_lt_add_left hj _).trans hroom
    have hsame : (s.queue.head + j) % WORD = s.queue.head + j :=
      Nat.mod_eq_of_lt (hsmall.trans (by decide))
    have hnumber := hready j hj
    rw [slot_eq h.mask, hsame] at hnumber
    exact hnumber
  have hbefore : (s.threads t).claimAt = fun _ => none := by
    rw [hpc]
    rfl
  have hclaims : (BatchPc.pushMove (values.take toPush) s.queue.head toPush).claimAt =
      fillClaims (values.take toPush) s.queue.head := rfl
  have hafter := h.fills hk hnumbers hbefore hclaims trivial rfl
  rw [hlength] at hafter
  rw [hword]
  exact hafter

theorem Invariant.popExchange (h : s.Invariant k) (hk : 0 < k) (hfew : s.queue.head < 2 ^ 63)
    {maxCount toPop : ℕ} (hpc : s.threads t = .popExchange maxCount s.queue.tail toPop) :
    ({ queue := s.queue.setIndex ((s.queue.tail + toPop) % WORD) .consumer
       threads := Function.update s.threads t (.popMove s.queue.tail toPop toPop)
       history := s.history.claimMany .consumer s.queue.tail toPop t } :
      BatchSystem T).Invariant k := by
  have hproper := h.proper t
  have hcopy := h.copies t _ (by rw [hpc]; rfl)
  rw [hpc] at hproper
  have hword : (s.queue.tail + toPop) % WORD = s.queue.tail + toPop :=
    Nat.mod_eq_of_lt ((hcopy.top.trans_lt hfew).trans (by decide))
  have hbefore : (s.threads t).claimAt = fun _ => none := by
    rw [hpc]
    rfl
  rw [hword]
  exact h.drains hk (hcopy.ready rfl) hbefore rfl hproper rfl

theorem Invariant.popLoadSequence (h : s.Invariant k) (hfew : s.queue.head < 2 ^ 63)
    {spurious : Bool} {maxCount tail toPop i : ℕ}
    (hpc : s.threads t = .popLoadSequence maxCount tail toPop i)
    {result : RingBufferQueue T × History T × BatchPc T}
    (hstep : advanceBatch t spurious s.queue s.history (.popLoadSequence maxCount tail toPop i) =
      some result) :
    ({ queue := result.1
       threads := Function.update s.threads t result.2.2
       history := result.2.1 } : BatchSystem T).Invariant k := by
  have hproper : i < toPop := by
    have hproper := h.proper t
    rw [hpc] at hproper
    exact hproper
  have hcopy := h.copies t _ (by rw [hpc]; rfl)
  have hbefore : (s.threads t).claimAt = fun _ => none := by
    rw [hpc]
    rfl
  have htop : tail + toPop ≤ s.queue.head := hcopy.top
  simp only [advanceBatch] at hstep
  split at hstep
  next hnumber =>
    cases hstep
    dsimp only
    split
    next hzero =>
      apply h.quiet hbefore
      · rfl
      · trivial
      · intro c hc
        cases hc
        exact hcopy.less (Nat.zero_le _) (Nat.zero_le _)
    next hpositive =>
      apply h.quiet hbefore
      · rfl
      · exact Nat.pos_of_ne_zero hpositive
      · intro c hc
        cases hc
        exact hcopy.less le_rfl (by omega)
  next hnumber =>
    have hnext := hcopy.next h.mask (by omega) hfew (not_not.mp hnumber)
    cases hstep
    dsimp only
    split
    next hmore =>
      apply h.quiet hbefore
      · rfl
      · exact hmore
      · intro c hc
        cases hc
        exact hnext
    next hlast =>
      apply h.quiet hbefore
      · rfl
      · exact Nat.one_le_of_lt hproper
      · intro c hc
        cases hc
        exact hnext.less (by omega) htop

/-- The step of any thread. -/
theorem Invariant.advance (h : s.Invariant k) (hk : 0 < k) (hk63 : k ≤ 63)
    (hfew : s.queue.head < 2 ^ 63) {spurious : Bool}
    (hreleased : s.claimsReleased (.step t spurious) = true)
    {result : RingBufferQueue T × History T × BatchPc T}
    (hroom : (result.2.1.claimed .producer).length < 2 ^ 63)
    (hstep : advanceBatch t spurious s.queue s.history (s.threads t) = some result) :
    ({ queue := result.1
       threads := Function.update s.threads t result.2.2
       history := result.2.1 } : BatchSystem T).Invariant k := by
  unfold claimsReleased at hreleased
  cases hpc : s.threads t with
  | single pc =>
      rw [hpc] at hstep
      rcases Option.map_eq_some_iff.mp hstep with ⟨r, hr, rfl⟩
      exact h.single hk hk63 hfew hpc hr
  | pushLoadHead values =>
      have hbefore : (s.threads t).claimAt = fun _ => none := by
        rw [hpc]
        rfl
      rw [hpc] at hstep
      cases hstep
      dsimp only
      split
      · exact h.plain hbefore rfl trivial rfl
      · exact h.plain hbefore rfl trivial rfl
  | pushLoadTail values head =>
      have hbefore : (s.threads t).claimAt = fun _ => none := by
        rw [hpc]
        rfl
      rw [hpc] at hstep
      cases hstep
      dsimp only
      split
      · exact h.plain hbefore rfl trivial rfl
      · exact h.plain hbefore rfl (min_le_left _ _) rfl
  | pushExchange values head toPush =>
      have hbefore : (s.threads t).claimAt = fun _ => none := by
        rw [hpc]
        rfl
      dsimp only at hreleased
      rw [hpc] at hstep hreleased
      simp only [advanceBatch] at hstep
      split at hstep
      next hsuccess =>
        rw [Bool.and_eq_true, Bool.not_eq_true', decide_eq_true_iff] at hsuccess
        rcases hsuccess with ⟨rfl, rfl⟩
        cases hstep
        have hlength : s.queue.head + toPush < 2 ^ 63 := by
          have horder := pushed_eq h
          unfold pushed at horder
          simp only [History.claimMany, Function.update_self, List.length_append,
            List.length_map, List.length_range] at hroom
          omega
        apply h.pushExchange hk hpc hlength
        simpa using hreleased
      next =>
        cases hstep
        exact h.plain hbefore rfl trivial rfl
  | pushMove pending index toPush =>
      rw [hpc] at hstep
      cases pending with
      | nil => cases hstep
      | cons value rest =>
          cases hstep
          have hbefore : (s.threads t).claimAt = Function.update (fillClaims rest (index + 1))
              index (some ⟨some value, index, false⟩) := by
            rw [hpc, BatchPc.claimAt, fillClaims_cons]
          apply h.move hk
          · rw [hbefore, Function.update_self]
            rfl
          · rw [hbefore, Function.update_idem]
            rfl
          · trivial
          · rfl
  | pushStoreSequence pending index toPush =>
      rw [hpc] at hstep
      cases pending with
      | nil => cases hstep
      | cons value rest =>
          cases hstep
          have hbefore : (s.threads t).claimAt = Function.update (fillClaims rest (index + 1))
              index (some ⟨some value, index, true⟩) := by
            rw [hpc, BatchPc.claimAt]
          have hclaim : (s.threads t).claimAt index =
              some ⟨(Op.push value).value, index, true⟩ := by
            rw [hbefore, Function.update_self]
            rfl
          have hdone : fillClaims rest (index + 1) =
              Function.update (s.threads t).claimAt index none := by
            rw [hbefore, Function.update_idem, Function.update_eq_self_iff.mpr]
            exact (fillClaims_passed rest index).symm
          have hlt := h.refined.claim_lt hclaim
          have hsucc : (index + 1) % WORD = index + 1 :=
            Nat.mod_eq_of_lt ((Nat.succ_le_of_lt hlt).trans_lt (hfew.trans (by decide)))
          rw [hsucc]
          cases rest with
          | nil =>
              rw [fillClaims_nil] at hdone
              apply h.handOver hk hk63 hfew hclaim
              · exact hdone
              · trivial
              · rfl
          | cons next rest =>
              apply h.handOver hk hk63 hfew hclaim
              · exact hdone
              · trivial
              · rfl
  | popLoadTail maxCount =>
      rw [hpc] at hstep
      cases hstep
      apply h.quiet
      · rw [hpc]
        rfl
      · rfl
      · trivial
      · intro c hc
        cases hc
        exact .fresh le_rfl
  | popLoadHead maxCount tail =>
      have hbefore : (s.threads t).claimAt = fun _ => none := by
        rw [hpc]
        rfl
      have hcopy := h.copies t _ (by rw [hpc]; rfl)
      have hbase : tail ≤ s.queue.tail := hcopy.base
      have hsub : wordSub s.queue.head tail = s.queue.head - tail :=
        wordSub_eq (hbase.trans h.refined.tail_le) hfew
      rw [hpc] at hstep
      cases hstep
      dsimp only
      split
      next => exact h.plain hbefore rfl trivial rfl
      next hsome =>
        apply h.quiet hbefore
        · rfl
        · exact Nat.pos_of_ne_zero hsome
        · intro c hc
          cases hc
          apply hcopy.less le_rfl
          have hmin := min_le_right maxCount (wordSub s.queue.head tail)
          have htail := h.refined.tail_le
          omega
  | popLoadSequence maxCount tail toPop i =>
      rw [hpc] at hstep
      exact h.popLoadSequence hfew hpc hstep
  | popExchange maxCount tail toPop =>
      rw [hpc] at hstep
      simp only [advanceBatch] at hstep
      split at hstep
      next hsuccess =>
        rw [Bool.and_eq_true, Bool.not_eq_true', decide_eq_true_iff] at hsuccess
        rcases hsuccess with ⟨-, rfl⟩
        cases hstep
        exact h.popExchange hk hfew hpc
      next =>
        cases hstep
        apply h.quiet
        · rw [hpc]
          rfl
        · rfl
        · trivial
        · intro c hc
          cases hc
          exact .fresh le_rfl
  | popMove index left toPop =>
      have hproper := h.proper t
      rw [hpc] at hproper hstep
      cases hstep
      rcases Nat.exists_eq_add_of_le' hproper with ⟨left, rfl⟩
      have hbefore : (s.threads t).claimAt = Function.update (drainClaims (index + 1) left)
          index (some ⟨none, index, false⟩) := by
        rw [hpc, BatchPc.claimAt, drainClaims_succ]
      apply h.move hk
      · rw [hbefore, Function.update_self]
        rfl
      · rw [hbefore, Function.update_idem]
        rfl
      · exact hproper
      · rfl
  | popStoreSequence index left toPop =>
      have hproper := h.proper t
      rw [hpc] at hproper hstep
      cases hstep
      rcases Nat.exists_eq_add_of_le' hproper with ⟨left, rfl⟩
      have hbefore : (s.threads t).claimAt = Function.update (drainClaims (index + 1) left)
          index (some ⟨none, index, true⟩) := by
        rw [hpc, BatchPc.claimAt, Nat.add_sub_cancel]
      have hclaim : (s.threads t).claimAt index = some ⟨(Op.pop : Op T).value, index, true⟩ := by
        rw [hbefore, Function.update_self]
        rfl
      have hdone : drainClaims (index + 1) left =
          Function.update (s.threads t).claimAt index none := by
        rw [hbefore, Function.update_idem, Function.update_eq_self_iff.mpr]
        exact (drainClaims_passed index left).symm
      have hlt : index < s.queue.tail := h.refined.claim_lt hclaim
      have htail := h.refined.tail_le
      have hsucc : (index + 1) % WORD = index + 1 :=
        Nat.mod_eq_of_lt ((Nat.succ_le_of_lt hlt).trans_lt
          ((htail.trans_lt hfew).trans (by decide)))
      dsimp only
      rw [hsucc, Nat.add_sub_cancel]
      split
      next hlast =>
        have hzero : left = 0 := by omega
        rw [hzero, drainClaims_zero] at hdone
        exact h.handOver hk hk63 hfew hclaim hdone trivial rfl
      next hmore =>
        exact h.handOver hk hk63 hfew hclaim hdone (show 1 ≤ left by omega) rfl
  | counted result =>
      rw [hpc] at hstep
      cases hstep

/-! ## Runs -/

theorem step_call {operation : QueueCall T} {next : BatchSystem T}
    (hstep : s.step (.call t operation) = some next) :
    (s.threads t).outside = true ∧ next = { s with
      threads := Function.update s.threads t operation.start
      history := { s.history with
        calls := Function.update s.history.calls operation.side
          (t :: s.history.calls operation.side) } } := by
  have hstep : (if t ≠ 0 && (s.threads t).outside then some _ else none) = some next := hstep
  rw [Option.ite_none_right_eq_some, Bool.and_eq_true] at hstep
  exact ⟨hstep.1.2, (Option.some_inj.mp hstep.2).symm⟩

theorem claimAt_outside (houtside : pc.outside = true) : pc.claimAt = fun _ => none := by
  cases pc with
  | single pc =>
      cases pc <;> first | rfl | cases houtside
  | counted result => rfl
  | _ => cases houtside

theorem length_claimMany (history : History T) (side : Side) (index count : ℕ) :
    (history.claimed .producer).length ≤
      ((history.claimMany side index count t).claimed .producer).length := by
  unfold History.claimMany
  cases side
  · simp
  · exact le_rfl

theorem claimed_advance {spurious : Bool} {q : RingBufferQueue T} {history : History T} {pc : Pc T}
    {result : RingBufferQueue T × History T × Pc T}
    (hstep : advance t spurious q history pc = some result) :
    (history.claimed .producer).length ≤ (result.2.1.claimed .producer).length := by
  have hclaim (side : Side) (i : ℕ) := length_claimMany (t := t) history side i 1
  cases pc with
  | idle | returned ok => cases hstep
  | choosing choice op | loadIndex op | spscLoadIndex op =>
      cases hstep
      exact le_rfl
  | loadSequence op i | spscLoadSequence op i =>
      unfold Concurrent.advance at hstep
      dsimp only at hstep
      split_ifs at hstep <;> cases hstep <;> exact le_rfl
  | exchange op i =>
      unfold Concurrent.advance at hstep
      dsimp only at hstep
      split_ifs at hstep <;> cases hstep
      · exact hclaim op.side i
      · exact le_rfl
  | move op i | spscMove op i =>
      cases hstep
      cases op <;> exact le_rfl
  | storeSequence op i | spscStoreSequence op i =>
      cases hstep
      cases op <;> exact le_rfl
  | spscStoreIndex op i =>
      cases hstep
      cases op
      · exact hclaim .producer i
      · exact hclaim .consumer i

/-- Claims are never taken back. -/
theorem claimed_advanceBatch {spurious : Bool} {q : RingBufferQueue T} {history : History T}
    {pc : BatchPc T} {result : RingBufferQueue T × History T × BatchPc T}
    (hstep : advanceBatch t spurious q history pc = some result) :
    (history.claimed .producer).length ≤ (result.2.1.claimed .producer).length := by
  cases pc with
  | single pc =>
      rcases Option.map_eq_some_iff.mp hstep with ⟨r, hr, rfl⟩
      exact claimed_advance hr
  | pushExchange values head toPush =>
      simp only [advanceBatch] at hstep
      split at hstep <;> cases hstep
      · exact length_claimMany history .producer head toPush
      · exact le_rfl
  | popExchange maxCount tail toPop =>
      simp only [advanceBatch] at hstep
      split at hstep <;> cases hstep
      · exact length_claimMany history .consumer tail toPop
      · exact le_rfl
  | pushMove pending index toPush | pushStoreSequence pending index toPush =>
      cases pending <;> cases hstep
      exact le_rfl
  | popLoadSequence maxCount tail toPop i =>
      simp only [advanceBatch] at hstep
      split at hstep <;> cases hstep <;> exact le_rfl
  | counted result => cases hstep
  | _ =>
      cases hstep
      exact le_rfl

theorem pushed_le {label : BatchLabel T} {next : BatchSystem T}
    (hstep : s.step label = some next) : s.pushed ≤ next.pushed := by
  cases label with
  | call t operation =>
      rcases step_call hstep with ⟨-, rfl⟩
      exact le_rfl
  | step t spurious =>
      rcases Option.map_eq_some_iff.mp hstep with ⟨result, hadvance, rfl⟩
      exact claimed_advanceBatch hadvance

theorem pushed_le_exec {labels : List (BatchLabel T)} {final : BatchSystem T}
    (hexec : exec BatchSystem.step s labels = some final) : s.pushed ≤ final.pushed := by
  have hkeep : ∀ (middle : BatchSystem T) label next, s.pushed ≤ middle.pushed →
      middle.step label = some next → s.pushed ≤ next.pushed := by
    intro middle label next hle hstep
    exact hle.trans (pushed_le hstep)
  exact exec_invariant hkeep le_rfl hexec

/-- What one step preserves. -/
theorem Invariant.step (h : s.Invariant k) (hk : 0 < k) (hk63 : k ≤ 63) {label : BatchLabel T}
    (hreleased : s.claimsReleased label = true) {next : BatchSystem T}
    (hstep : s.step label = some next) (hfew : next.pushed < 2 ^ 63) : next.Invariant k := by
  have hhead : s.queue.head < 2 ^ 63 := by
    rw [← pushed_eq h]
    exact (pushed_le hstep).trans_lt hfew
  cases label with
  | call t operation =>
      rcases step_call hstep with ⟨houtside, rfl⟩
      apply h.quiet (claimAt_outside houtside)
      · cases operation <;> rfl
      · cases operation <;> trivial
      · intro c hc
        cases operation <;> cases hc
  | step t spurious =>
      rcases Option.map_eq_some_iff.mp hstep with ⟨result, hadvance, rfl⟩
      exact h.advance hk hk63 hhead hreleased hfew hadvance

/-- A slot that has been given back holds nothing. -/
theorem Invariant.vacant (h : s.Invariant k) (hk : 0 < k) {label : BatchLabel T}
    (hreleased : s.claimsReleased label = true) {next : BatchSystem T}
    (hstep : s.step label = some next) (hfew : next.pushed < 2 ^ 63) :
    s.claimsVacant label = true := by
  cases label with
  | call t operation => rfl
  | step t spurious =>
      rcases Option.map_eq_some_iff.mp hstep with ⟨result, hadvance, rfl⟩
      unfold claimsReleased at hreleased
      unfold claimsVacant
      dsimp only at hreleased ⊢
      split at hreleased
      next values head toPush hpc =>
        rw [hpc] at hadvance
        simp only [advanceBatch] at hadvance
        split at hadvance
        next hsuccess =>
          rw [Bool.and_eq_true, Bool.not_eq_true', decide_eq_true_iff] at hsuccess
          rcases hsuccess with ⟨rfl, rfl⟩
          cases hadvance
          have hlength : s.queue.head + toPush < 2 ^ 63 := by
            have horder := pushed_eq h
            unfold pushed at horder hfew
            simp only [History.claimMany, Function.update_self, List.length_append,
              List.length_map, List.length_range] at hfew
            omega
          have hready : ∀ j < toPush, s.queue.sequence (s.queue.slot (s.queue.head + j)) =
              (s.queue.head + j) % WORD := by
            simpa using hreleased
          simp only [Bool.false_or, ne_eq, not_true_eq_false, decide_false, List.all_eq_true,
            List.mem_range, Option.isNone_iff_eq_none]
          intro j hj
          have hword : (s.queue.head + j) % WORD = s.queue.head + j :=
            Nat.mod_eq_of_lt (((Nat.add_lt_add_left hj _).trans hlength).trans (by decide))
          have hnumber := hready j hj
          rw [hword, slot_eq h.mask] at hnumber
          rw [slot_eq h.mask]
          exact h.refined.vacant hk (Nat.le_add_right _ _) hnumber
        next hfailed =>
          have hfailed : spurious = true ∨ s.queue.head ≠ head := by
            by_contra hboth
            simp only [not_or, not_not, Bool.not_eq_true] at hboth
            exact hfailed (by simp [hboth])
          rcases hfailed with rfl | hmoved
          · rfl
          · simp [hmoved]
      next => rfl

theorem Invariant.exec (h : s.Invariant k) (hk : 0 < k) (hk63 : k ≤ 63)
    {labels : List (BatchLabel T)} {final : BatchSystem T}
    (hreleased : Along BatchSystem.step (fun s label => s.claimsReleased label = true) s labels)
    (hexec : exec BatchSystem.step s labels = some final) (hfew : final.pushed < 2 ^ 63) :
    Along BatchSystem.step (fun s label => s.claimsVacant label = true) s labels ∧
      final.Invariant k := by
  induction labels generalizing s with
  | nil =>
      cases hexec
      exact ⟨trivial, h⟩
  | cons label rest ih =>
      rcases exec_cons.mp hexec with ⟨next, hstep, hrest⟩
      have hnext : next.pushed < 2 ^ 63 := (pushed_le_exec hrest).trans_lt hfew
      have hafter := h.step hk hk63 hreleased.1 hstep hnext
      rcases ih hafter (hreleased.2 next hstep) hrest with ⟨hvacant, hfinal⟩
      refine ⟨⟨h.vacant hk hreleased.1 hstep hnext, ?_⟩, hfinal⟩
      intro other hother
      rw [hstep] at hother
      cases hother
      exact hvacant

theorem Invariant.inOrder (h : s.Invariant k) : s.InOrder := by
  rcases h.refined with ⟨q, hsound, hrefines⟩
  constructor
  · exact h.order
  · exact hrefines.overwritten ▸ hsound.intact
  · exact hrefines.stored ▸ hsound.storedOnce
  · exact hrefines.taken ▸ hsound.takenOnce
  · intro p v hmem
    rw [← hrefines.taken] at hmem
    rw [← hrefines.stored]
    exact hsound.takenStored p v hmem
  · intro p v hmem
    rw [← hrefines.stored] at hmem
    rw [← hrefines.taken, ← hrefines.storage, slot_eq h.mask]
    exact (hsound.kept p v hmem).imp_right And.left
  · exact h.settled.stored
  · exact h.settled.once

end

/-- In a run in which every slot that a batch claims has been given back, batches and
single operations together claim only empty slots and keep every value in order. -/
theorem batch_inOrder {capacity : ℕ} (hcapacity : capacity < WORD)
    (hlarge : 2 ≤ nextPowerOfTwo capacity) {labels : List (BatchLabel T)} {final : BatchSystem T}
    (hreleased : Along BatchSystem.step (fun s label => s.claimsReleased label = true)
      (.initial capacity false) labels)
    (hexec : exec BatchSystem.step (.initial capacity false) labels = some final)
    (hfew : final.pushed < 2 ^ 63) :
    Along BatchSystem.step (fun s label => s.claimsVacant label = true)
      (.initial capacity false) labels ∧ final.InOrder := by
  rcases nextPowerOfTwo_eq hcapacity hlarge with ⟨k, hpower, hk, hk63, -⟩
  rcases (invariant_initial hpower).exec hk hk63 hreleased hexec hfew with ⟨hvacant, hfinal⟩
  exact ⟨hvacant, hfinal.inOrder⟩

/-- So many steps of one thread. -/
def batchSteps (t n : ℕ) : List (BatchLabel T) :=
  List.replicate n (.step t false)

/-- A batch fills the ring, another one takes a value of it and a single push puts one
behind it. -/
def mixedRun : List (BatchLabel ℕ) :=
  .call 1 (.pushBatch [10, 20]) :: batchSteps 1 7 ++ .call 2 (.popBatch 1) :: batchSteps 2 6 ++
    .call 3 (.pushBatch [30]) :: batchSteps 3 5 ++ .call 4 .tryPop :: batchSteps 4 6

theorem batch_inOrder_mixedRun :
    ∃ final, exec BatchSystem.step (.initial 2 false) mixedRun = some final ∧ final.InOrder := by
  have hrun : ((exec BatchSystem.step (.initial 2 false) mixedRun).any fun final =>
      final.pushed < 2 ^ 63) = true := by
    decide +kernel
  cases hexec : exec BatchSystem.step (.initial 2 false) mixedRun with
  | none =>
      rw [hexec] at hrun
      cases hrun
  | some final =>
      rw [hexec] at hrun
      have hboth := batch_inOrder (by decide +kernel) (by decide +kernel) (by decide +kernel)
        hexec (of_decide_eq_true hrun)
      exact ⟨final, rfl, hboth.2⟩

/-- Thread 2 has moved the tail and not taken its value when thread 3 claims the slot. -/
def earlyBatchRun : List (BatchLabel ℕ) :=
  .call 1 (.pushBatch [10, 20]) :: batchSteps 1 7 ++ .call 2 .tryPop :: batchSteps 2 4 ++
    .call 3 (.pushBatch [30]) :: batchSteps 3 5 ++ batchSteps 2 2

theorem earlyBatchRun_overwrites :
    ∃ final, exec BatchSystem.step (.initial 2 false) earlyBatchRun = some final ∧
      final.history.taken = [(0, some 30)] ∧ ¬ final.InOrder := by
  have hrun : ((exec BatchSystem.step (.initial 2 false) earlyBatchRun).any fun final =>
      final.history.taken = [(0, some 30)] ∧ final.history.overwritten) = true := by
    decide +kernel
  cases hexec : exec BatchSystem.step (.initial 2 false) earlyBatchRun with
  | none =>
      rw [hexec] at hrun
      cases hrun
  | some final =>
      rw [hexec] at hrun
      have hboth := of_decide_eq_true hrun
      refine ⟨final, rfl, hboth.1, ?_⟩
      intro h
      have hintact := h.intact
      rw [hboth.2] at hintact
      cases hintact

end BatchSystem

end Concurrent
end Katana
