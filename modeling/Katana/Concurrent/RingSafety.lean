import Katana.Concurrent.RingSteps

/-!
# Safety of the ring buffer queue

Every position is claimed once and in order at both ends, a value put at a
position stays there until it is taken, and it is taken once.  Without the fast
path this holds in every run of fewer than half a word of operations.  With the
fast path it holds in the runs in which the two algorithms never claim the same
position, and fails in others.
-/

namespace Katana
namespace Concurrent

open Library RingBufferQueue

variable {T : Type*}

/-- The value and position of a push that has stored and not returned. -/
def Pc.pushed (pc : Pc T) : Option (ℕ × T) :=
  match pc.finishing with
  | some (.push value, index) => some (index, value)
  | _ => none

/-- The thread stands outside the operations or in the algorithm for many
threads. -/
def Pc.multi : Pc T → Bool
  | .idle | .returned _ | .choosing .seenProducers _ | .loadIndex _ | .loadSequence _ _
  | .exchange _ _ | .move _ _ | .storeSequence _ _ => true
  | _ => false

namespace QueueSystem

/-- No value is lost, duplicated or overwritten, and positions are used in
order. -/
structure InOrder (s : QueueSystem T) : Prop where
  claimed : ∀ side, (s.history.claimed side).map (·.1) = List.range (s.queue.index side)
  intact : s.history.overwritten = false
  storedOnce : (s.history.stored.map (·.1)).Nodup
  takenOnce : (s.history.taken.map (·.1)).Nodup
  takenStored : ∀ p v, (p, v) ∈ s.history.taken →
    ∃ value, v = some value ∧ (p, value) ∈ s.history.stored
  kept : ∀ p v, (p, v) ∈ s.history.stored →
    p ∈ s.history.taken.map (·.1) ∨ s.queue.storage (s.queue.slot p) = some v
  accepted : ∀ e ∈ s.history.accepted, e ∈ s.history.stored
  acceptedOnce : (s.history.accepted.map (·.1)).Nodup

/-- Positions claimed by pushes whose slot has not been given back. -/
def unreleased (s : QueueSystem T) : List ℕ :=
  ((s.history.claimed .producer).map (·.1)).filter (· ∉ s.history.released)

/-! ## Pushes that have returned -/

/-- Pushes that have stored have different positions, whether they have returned
or not. -/
structure Settled (s : QueueSystem T) : Prop where
  once : (s.history.accepted.map (·.1)).Nodup
  fresh : ∀ t e, (s.threads t).pushed = some e → e.1 ∉ s.history.accepted.map (·.1)
  different : ∀ t u e f, (s.threads t).pushed = some e → (s.threads u).pushed = some f →
    e.1 = f.1 → t = u

/-- What a step does to the push of its thread: nothing, the value is stored, or
the push returns. -/
inductive PushStep (history : History T) (pc : Pc T) (history' : History T) (pc' : Pc T) : Prop where
  | other (hpushed : pc'.pushed = none ∨ pc'.pushed = pc.pushed)
      (haccepted : history'.accepted = history.accepted)
  | store (e : ℕ × T) (hpushed : pc'.pushed = some e)
      (hstored : history'.stored = history.stored ++ [e])
      (haccepted : history'.accepted = history.accepted)
  | accept (e : ℕ × T) (hbefore : pc.pushed = some e) (hpushed : pc'.pushed = none)
      (haccepted : history'.accepted = history.accepted ++ [e])

theorem pushed_choose (t : ℕ) (op : Op T) (q : RingBufferQueue T) (choice : Choice) :
    (q.choose t op choice).2.pushed = none := by
  have hloaded := chosen_choose t op q choice
  generalize (q.choose t op choice).2 = pc at hloaded
  cases hloaded <;> rfl

theorem pushStep {t : ℕ} {spurious : Bool} {q : RingBufferQueue T} {history : History T}
    {pc : Pc T} {result : RingBufferQueue T × History T × Pc T}
    (hstep : advance t spurious q history pc = some result) :
    PushStep history pc result.2.1 result.2.2 := by
  cases pc with
  | idle | returned ok => cases hstep
  | choosing choice op =>
      cases hstep
      exact .other (.inl (pushed_choose t op q choice)) rfl
  | loadIndex op | spscLoadIndex op =>
      cases hstep
      exact .other (.inl rfl) rfl
  | loadSequence op i | exchange op i | spscLoadSequence op i =>
      unfold Concurrent.advance at hstep
      dsimp only at hstep
      split_ifs at hstep <;> cases hstep <;> exact .other (.inl rfl) rfl
  | move op i | spscMove op i =>
      cases hstep
      cases op with
      | push v => exact .store (i, v) rfl rfl rfl
      | pop => exact .other (.inl rfl) rfl
  | storeSequence op i | spscStoreIndex op i =>
      cases hstep
      cases op with
      | push v => exact .accept (i, v) rfl rfl rfl
      | pop => exact .other (.inl rfl) rfl
  | spscStoreSequence op i =>
      cases hstep
      cases op with
      | push v => exact .other (.inr rfl) rfl
      | pop => exact .other (.inl rfl) rfl

section

variable {k : ℕ} {s : QueueSystem T} {t : ℕ}

theorem Invariant.pushed_mem (h : s.Invariant k) {e : ℕ × T} (he : (s.threads t).pushed = some e) :
    e ∈ s.history.stored := by
  unfold Pc.pushed at he
  split at he
  next hfinishing =>
    cases he
    exact h.finishing t _ _ hfinishing
  · cases he

theorem Settled.update (h : s.Settled) {s' : QueueSystem T} {pc : Pc T}
    (hthreads : s'.threads = Function.update s.threads t pc)
    (honce : (s'.history.accepted.map (·.1)).Nodup)
    (hfresh : ∀ u e, u ≠ t → (s.threads u).pushed = some e →
      e.1 ∉ s'.history.accepted.map (·.1))
    (hown : ∀ e, pc.pushed = some e → e.1 ∉ s'.history.accepted.map (·.1) ∧
      ∀ u f, u ≠ t → (s.threads u).pushed = some f → f.1 ≠ e.1) : s'.Settled := by
  constructor
  · exact honce
  · rw [hthreads]
    apply forall_update (P := fun _ (pc : Pc T) => ∀ e, pc.pushed = some e →
      e.1 ∉ s'.history.accepted.map (·.1))
    · exact fun u hu e he => hfresh u e hu he
    · exact fun e he => (hown e he).1
  · intro u w e f hu hw heq
    rw [hthreads] at hu hw
    by_cases hut : u = t
    · by_cases hwt : w = t
      · rw [hut, hwt]
      · rw [hut, Function.update_self] at hu
        rw [Function.update_of_ne hwt] at hw
        exact absurd heq.symm ((hown e hu).2 w f hwt hw)
    · rw [Function.update_of_ne hut] at hu
      by_cases hwt : w = t
      · rw [hwt, Function.update_self] at hw
        exact absurd heq ((hown f hw).2 u e hut hu)
      · rw [Function.update_of_ne hwt] at hw
        exact h.different u w e f hu hw heq

/-- A position is stored at only once. -/
theorem Invariant.storedOnce (h : s.Invariant k) : (s.history.stored.map (·.1)).Nodup := by
  obtain ⟨q, hsound, hrefines⟩ := h.refined
  have honce := hsound.storedOnce
  rwa [hrefines.stored] at honce

theorem Settled.step (h : s.Settled) (hbefore : s.Invariant k) {label : QueueLabel T}
    {next : QueueSystem T} (hafter : next.Invariant k) (hstep : s.step label = some next) :
    next.Settled := by
  cases label with
  | call t op =>
      obtain ⟨-, rfl⟩ := step_call hstep
      apply h.update rfl
      · exact h.once
      · exact fun u e _ he => h.fresh u e he
      · exact fun e he => by cases he
  | step t spurious =>
      obtain ⟨result, hadvance, rfl⟩ := Option.map_eq_some_iff.mp hstep
      have hstoredOnce := hafter.storedOnce
      dsimp only at hstoredOnce
      cases pushStep hadvance with
      | other hpushed haccepted =>
          apply h.update rfl
          · dsimp only
            rw [haccepted]
            exact h.once
          · intro u e _ he
            dsimp only
            rw [haccepted]
            exact h.fresh u e he
          · intro e he
            have hmine : (s.threads t).pushed = some e := by
              rcases hpushed with hnone | hsame
              · rw [hnone] at he
                cases he
              · exact hsame ▸ he
            constructor
            · dsimp only
              rw [haccepted]
              exact h.fresh t e hmine
            · exact fun u f hu hf heq => hu (h.different u t f e hf hmine heq)
      | store e hpushed hstored haccepted =>
          rw [hstored, List.map_append, List.nodup_append] at hstoredOnce
          have hnew {f : ℕ × T} (hf : f ∈ s.history.stored) : f.1 ≠ e.1 :=
            hstoredOnce.2.2 f.1 (List.mem_map_of_mem hf) e.1 (by simp)
          apply h.update rfl
          · dsimp only
            rw [haccepted]
            exact h.once
          · intro u f _ hf
            dsimp only
            rw [haccepted]
            exact h.fresh u f hf
          · intro f hf
            rw [hpushed] at hf
            cases hf
            constructor
            · dsimp only
              rw [haccepted]
              intro hmem
              obtain ⟨f, hf, heq⟩ := List.mem_map.mp hmem
              exact hnew (hbefore.accepted f hf) heq
            · exact fun u f _ hf => hnew (hbefore.pushed_mem hf)
      | accept e hbefore hpushed haccepted =>
          apply h.update rfl
          · dsimp only
            rw [haccepted, List.map_append]
            apply List.Nodup.append h.once (List.nodup_singleton _)
            intro p hp hpe
            have heq : p = e.1 := List.mem_singleton.mp hpe
            exact h.fresh t e hbefore (heq ▸ hp)
          · intro u f hu hf
            dsimp only
            rw [haccepted, List.map_append, List.mem_append, List.map_singleton,
              List.mem_singleton]
            rintro (hmem | heq)
            · exact h.fresh u f hf hmem
            · exact hu (h.different u t f e hf hbefore heq)
          · intro f hf
            rw [hpushed] at hf
            cases hf

/-! ## What the invariant says about a run -/

theorem Invariant.inOrder (h : s.Invariant k) (hsettled : s.Settled) : s.InOrder := by
  obtain ⟨q, hsound, hrefines⟩ := h.refined
  constructor
  · exact h.order
  · exact hrefines.overwritten ▸ hsound.intact
  · exact h.storedOnce
  · exact hrefines.taken ▸ hsound.takenOnce
  · intro p v hmem
    rw [← hrefines.taken] at hmem
    rw [← hrefines.stored]
    exact hsound.takenStored p v hmem
  · intro p v hmem
    rw [← hrefines.stored] at hmem
    rw [← hrefines.taken, ← hrefines.storage, slot_eq h.mask]
    exact (hsound.kept p v hmem).imp_right And.left
  · exact h.accepted
  · exact hsettled.once

theorem Invariant.unreleased_le (h : s.Invariant k) (hk : 0 < k) :
    s.unreleased.length ≤ 2 ^ k := by
  obtain ⟨q, hsound, hrefines⟩ := h.refined
  have hle := hsound.claimed_le (two_le_two_pow hk)
  have hnodup : s.unreleased.Nodup := by
    unfold unreleased
    rw [h.order]
    exact List.nodup_range.filter _
  rw [← List.toFinset_card_of_nodup hnodup]
  apply (Finset.card_le_card _).trans hle
  intro p hp
  unfold unreleased at hp
  rw [h.order] at hp
  have hreach : s.queue.index .producer ≤ s.reach .producer := Nat.le_add_right _ _
  simp only [List.mem_toFinset, List.mem_filter, List.mem_range, decide_eq_true_eq] at hp
  rw [Finset.mem_sdiff, Finset.mem_range, List.mem_toFinset, hrefines.head, hrefines.released]
  exact ⟨hp.1.trans_le hreach, hp.2⟩

theorem settled_initial (capacity : ℕ) (fast : Bool) :
    (QueueSystem.initial capacity fast : QueueSystem T).Settled := by
  constructor
  · exact List.nodup_nil
  · exact fun _ _ he => by cases he
  · exact fun _ _ _ _ he => by cases he

/-- In a run whose steps keep the claims apart the ring is a queue. -/
theorem exec_sound {capacity : ℕ} (hcapacity : nextPowerOfTwo capacity = 2 ^ k) (hk : 0 < k)
    (hk63 : k ≤ 63) {fast : Bool} {labels : List (QueueLabel T)} {final : QueueSystem T}
    (hapart : Along QueueSystem.step (fun s label => s.apart label = true)
      (.initial capacity fast) labels)
    (hexec : exec QueueSystem.step (.initial capacity fast) labels = some final)
    (hfew : final.operations < 2 ^ 63) : final.InOrder ∧ final.unreleased.length ≤ 2 ^ k := by
  have hboth : final.operations < 2 ^ 63 → final.Invariant k ∧ final.Settled := by
    have hkeep : ∀ (s : QueueSystem T) label next,
        (s.operations < 2 ^ 63 → s.Invariant k ∧ s.Settled) → s.apart label = true →
        s.step label = some next → next.operations < 2 ^ 63 → next.Invariant k ∧ next.Settled := by
      intro s label next hgood happly hstep hnext
      have hbefore := (operations_le hstep).trans_lt hnext
      have hinvariant := (hgood hbefore).1.step hk hk63 hbefore happly hstep
      exact ⟨hinvariant, (hgood hbefore).2.step (hgood hbefore).1 hinvariant hstep⟩
    exact exec_invariant_along hkeep
      (fun _ => ⟨invariant_initial hcapacity fast, settled_initial capacity fast⟩) hapart hexec
  obtain ⟨hinvariant, hsettled⟩ := hboth hfew
  exact ⟨hinvariant.inOrder hsettled, hinvariant.unreleased_le hk⟩

end

/-! ## Without the fast path -/

structure Multi (s : QueueSystem T) : Prop where
  seen : s.queue.multiProducerSeen = true
  threads : ∀ t, (s.threads t).multi = true

theorem Multi.apart {s : QueueSystem T} (h : s.Multi) (label : QueueLabel T) :
    s.apart label = true := by
  cases label with
  | call t op => rfl
  | step t spurious =>
      have hmine := h.threads t
      unfold QueueSystem.apart
      dsimp only
      cases hpc : s.threads t with
      | exchange op i =>
          have hother := h.threads (s.queue.last op.side)
          have hahead : (s.threads (s.queue.last op.side)).ahead op.side = false := by
            cases hlast : s.threads (s.queue.last op.side) <;> rw [hlast] at hother <;>
              first
              | rfl
              | cases hother
          simp [hahead]
      | spscLoadSequence op i =>
          rw [hpc] at hmine
          cases hmine
      | _ => rfl

theorem multi_advance {t : ℕ} {spurious : Bool} {q : RingBufferQueue T} {history : History T}
    {pc : Pc T} {result : RingBufferQueue T × History T × Pc T}
    (hseen : q.multiProducerSeen = true) (hpc : pc.multi = true)
    (hstep : advance t spurious q history pc = some result) :
    result.1.multiProducerSeen = true ∧ result.2.2.multi = true := by
  have hindex (i : ℕ) (side : Side) : (q.setIndex i side).multiProducerSeen = true := by
    cases side <;> exact hseen
  have hmove (op : Op T) (i : ℕ) : (moveValue op i q history).1.multiProducerSeen = true := by
    cases op <;> exact hseen
  cases pc with
  | idle | returned ok => cases hstep
  | choosing choice op =>
      cases choice <;> cases hpc
      cases hstep
      simp [choose, hseen, Pc.multi]
  | loadIndex op =>
      cases hstep
      exact ⟨hseen, rfl⟩
  | loadSequence op i | exchange op i =>
      unfold Concurrent.advance at hstep
      dsimp only at hstep
      split_ifs at hstep <;> cases hstep <;> first | exact ⟨hseen, rfl⟩ | exact ⟨hindex _ _, rfl⟩
  | move op i =>
      cases hstep
      exact ⟨hmove op i, rfl⟩
  | storeSequence op i =>
      cases hstep
      exact ⟨hseen, rfl⟩
  | _ => cases hpc

theorem Multi.step {s next : QueueSystem T} (h : s.Multi) {label : QueueLabel T}
    (hstep : s.step label = some next) : next.Multi := by
  cases label with
  | call t op =>
      obtain ⟨-, rfl⟩ := step_call hstep
      constructor
      · exact h.seen
      · apply forall_update (P := fun _ (pc : Pc T) => pc.multi = true)
        · exact fun u _ => h.threads u
        · rfl
  | step t spurious =>
      obtain ⟨result, hadvance, rfl⟩ := Option.map_eq_some_iff.mp hstep
      have hmulti := multi_advance h.seen (h.threads t) hadvance
      constructor
      · exact hmulti.1
      · apply forall_update (P := fun _ (pc : Pc T) => pc.multi = true)
        · exact fun u _ => h.threads u
        · exact hmulti.2

/-- So many steps of one thread. -/
def steps (t n : ℕ) : List (QueueLabel T) :=
  List.replicate n (.step t false)

/-- With the fast path the same holds as long as the two algorithms do not claim
the same position. -/
theorem fast_inOrder {capacity : ℕ} (hcapacity : capacity < WORD)
    (hlarge : 2 ≤ nextPowerOfTwo capacity) {labels : List (QueueLabel T)} {final : QueueSystem T}
    (hapart : Along QueueSystem.step (fun s label => s.apart label = true)
      (.initial capacity true) labels)
    (hexec : exec QueueSystem.step (.initial capacity true) labels = some final)
    (hfew : final.operations < 2 ^ 63) : final.InOrder := by
  obtain ⟨k, hpower, hk, hk63, -⟩ := nextPowerOfTwo_eq hcapacity hlarge
  exact (exec_sound hpower hk hk63 hapart hexec hfew).1

/-- A producer and a consumer on the fast path. -/
def singleRun : List (QueueLabel ℕ) :=
  .call 2 .pop :: steps 2 11 ++ .call 1 (.push 10) :: steps 1 14 ++ .call 2 .pop :: steps 2 13

theorem fast_inOrder_run :
    ∃ final, exec QueueSystem.step (.initial 2 true) singleRun = some final ∧ final.InOrder := by
  have hlast : ((exec QueueSystem.step (.initial 2 true) singleRun).any fun final =>
      final.operations < 2 ^ 63) = true := by
    decide +kernel
  cases hexec : exec QueueSystem.step (.initial 2 true) singleRun with
  | none =>
      rw [hexec] at hlast
      cases hlast
  | some final =>
      rw [hexec] at hlast
      exact ⟨final, rfl, fast_inOrder (by decide +kernel) (by decide +kernel) (by decide +kernel)
        hexec (of_decide_eq_true hlast)⟩

/-- A single producer has passed its test when a second producer takes the same
slot. -/
def overtakenRun : List (QueueLabel ℕ) :=
  .call 2 .pop :: steps 2 11 ++ .call 1 (.push 10) :: steps 1 11 ++
    .call 3 (.push 20) :: steps 3 11 ++ steps 1 3

theorem overtakenRun_overwrites :
    ∃ final, exec QueueSystem.step (.initial 2 true) overtakenRun = some final ∧
      final.history.accepted = [(0, 20), (0, 10)] ∧ ¬ final.InOrder := by
  have hlast : ((exec QueueSystem.step (.initial 2 true) overtakenRun).any fun final =>
      final.history.accepted = [(0, 20), (0, 10)] ∧ final.history.overwritten) = true := by
    decide +kernel
  cases hexec : exec QueueSystem.step (.initial 2 true) overtakenRun with
  | none =>
      rw [hexec] at hlast
      cases hlast
  | some final =>
      rw [hexec] at hlast
      have hboth := of_decide_eq_true hlast
      have hnot : ¬ final.InOrder := by
        intro h
        rw [h.intact] at hboth
        cases hboth.2
      exact ⟨final, rfl, hboth.1, hnot⟩

end QueueSystem

end Concurrent
end Katana
