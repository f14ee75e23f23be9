import Katana.Concurrent.BatchQueue

/-!
# Return of a batch from the ring buffer queue

`pop_batch` loads `tail_` once, before its loop.  Inside the loop only a failed
exchange loads it again, and the exchange lies behind a readiness check made with
the copy.  A thread that is overtaken between the load and the check finds a slot
whose number has moved on; it then goes round the loop without an exchange, and no
step of its own changes what it reads.  Whether a thread that runs alone leaves the
loop is decided by what its copy shows.
-/

namespace Katana
namespace Concurrent

open Library RingBufferQueue

variable {T : Type*}

/-! ## A call that is left alone -/

/-- Inside `pop_batch`, with something asked for. -/
def BatchPc.popping : BatchPc T → Prop
  | .popLoadTail maxCount | .popLoadHead maxCount _ | .popLoadSequence maxCount _ _ _
  | .popExchange maxCount _ _ => 1 ≤ maxCount
  | .popMove _ _ _ | .popStoreSequence _ _ _ => True
  | _ => False

namespace RingBufferQueue

/-- Every position between the indices has been published: no push is half done. -/
def Published (q : RingBufferQueue T) : Prop :=
  ∀ i < wordSub q.head q.tail, q.sequence (q.slot (q.tail + i)) = (q.tail + i + 1) % WORD

/-- With this copy of `tail_` the loop gets to its exchange or returns: the queue looks
empty, or the slot at the copy looks full. -/
def EmptyOrReady (q : RingBufferQueue T) (tail : ℕ) : Prop :=
  wordSub q.head tail = 0 ∨ q.sequence (q.slot tail) = (tail + 1) % WORD

/-- The place from which `pop_batch` gets to a new copy of `tail_` or to its end. -/
def Escapes (q : RingBufferQueue T) : BatchPc T → Prop
  | .popLoadHead _ tail => q.EmptyOrReady tail
  | .popLoadSequence _ tail _ i => 0 < i ∨ q.EmptyOrReady tail
  | _ => True

end RingBufferQueue

namespace BatchSystem

/-- No other thread moves. -/
def alone (t : ℕ) (s : BatchSystem T) (spurious : Bool) : Option (BatchSystem T) :=
  s.step (.step t spurious)

/-- Left alone, thread `t` returns, if finitely many of its exchanges fail for no
reason. -/
def ReturnsAlone (t : ℕ) (s : BatchSystem T) : Prop :=
  ∀ (spurious : ℕ → Bool) (first : ℕ), (∀ n, first ≤ n → spurious n = false) →
    ∃ n final, exec (alone t) s ((List.range n).map spurious) = some final ∧
      (final.threads t).outside = true

theorem alone_eq {t : ℕ} {s : BatchSystem T} {spurious : Bool}
    {r : RingBufferQueue T × History T × BatchPc T}
    (hr : advanceBatch t spurious s.queue s.history (s.threads t) = some r) :
    alone t s spurious =
      some { queue := r.1, history := r.2.1, threads := Function.update s.threads t r.2.2 } := by
  rw [alone, BatchSystem.step, hr]
  rfl

end BatchSystem

/-! ## The way out -/

/-- What the way out needs.  Behind the exchange nothing is waited for. -/
def LeavesLoop (q : RingBufferQueue T) : BatchPc T → Prop
  | .popMove _ _ _ | .popStoreSequence _ _ _ | .counted _ => True
  | pc => pc.popping ∧ q.Published ∧ q.Escapes pc

/-- What the loop has to do with a new copy of `tail_`. -/
def RingBufferQueue.renewed (q : RingBufferQueue T) (maxCount : ℕ) : ℕ :=
  3 * min maxCount (wordSub q.head q.tail) + 5

/-- Steps that are left at most if no exchange fails for no reason.  A copy that is not
`tail_` is used up by one more round. -/
def BatchPc.popRank (q : RingBufferQueue T) : BatchPc T → ℕ
  | .popLoadTail maxCount => q.renewed maxCount + 1
  | .popLoadHead maxCount tail =>
      if wordSub q.head tail = 0 then 1
      else if q.tail = tail then q.renewed maxCount
      else q.renewed maxCount + min maxCount (wordSub q.head tail) + 3
  | .popLoadSequence maxCount tail toPop i =>
      (if q.tail = tail then 2 * max toPop i + 3 else q.renewed maxCount + 1) + (toPop - i) + 1
  | .popExchange maxCount tail toPop =>
      if q.tail = tail then 2 * toPop + 3 else q.renewed maxCount + 1
  | .popMove _ left _ => 2 * left + 2
  | .popStoreSequence _ left _ => 2 * left + 1
  | _ => 0

theorem RingBufferQueue.Published.emptyOrReady {q : RingBufferQueue T} (h : q.Published) :
    q.EmptyOrReady q.tail := by
  by_cases hempty : wordSub q.head q.tail = 0
  · exact Or.inl hempty
  · exact Or.inr (h 0 (Nat.pos_of_ne_zero hempty))

/-- A step on the way out. -/
def NearsEnd (t : ℕ) (q : RingBufferQueue T) (history : History T) (spurious : Bool)
    (pc : BatchPc T) : Prop :=
  ∃ r, advanceBatch t spurious q history pc = some r ∧ LeavesLoop r.1 r.2.2 ∧
    (spurious = false → r.2.2.popRank r.1 < pc.popRank q)

section Steps

variable {t : ℕ} {q : RingBufferQueue T} {history : History T} {spurious : Bool}

theorem popRank_renewed (q : RingBufferQueue T) (maxCount : ℕ) :
    (BatchPc.popLoadHead maxCount q.tail : BatchPc T).popRank q ≤ q.renewed maxCount := by
  by_cases hempty : wordSub q.head q.tail = 0 <;> simp [BatchPc.popRank, hempty, renewed]

theorem nearsEnd_popLoadTail {maxCount : ℕ} (h : LeavesLoop q (.popLoadTail maxCount)) :
    NearsEnd t q history spurious (.popLoadTail maxCount) := by
  rcases h with ⟨hasked, hpublished, -⟩
  refine ⟨_, rfl, ⟨hasked, hpublished, hpublished.emptyOrReady⟩, fun _ => ?_⟩
  exact Nat.lt_succ_of_le (popRank_renewed q maxCount)

theorem nearsEnd_popLoadHead {maxCount tail : ℕ} (h : LeavesLoop q (.popLoadHead maxCount tail)) :
    NearsEnd t q history spurious (.popLoadHead maxCount tail) := by
  rcases h with ⟨hasked, hpublished, hescapes⟩
  by_cases hnothing : min maxCount (wordSub q.head tail) = 0
  · refine ⟨(q, history, .counted 0), by simp [advanceBatch, hnothing], trivial, fun _ => ?_⟩
    simp only [BatchPc.popRank]
    split
    · exact Nat.one_pos
    · split <;> (rw [renewed]; omega)
  · have hsome : wordSub q.head tail ≠ 0 := fun hempty => hnothing (by rw [hempty, Nat.min_zero])
    refine ⟨(q, history, .popLoadSequence maxCount tail (min maxCount (wordSub q.head tail)) 0),
      by simp [advanceBatch, hnothing], ⟨hasked, hpublished, Or.inr hescapes⟩, fun _ => ?_⟩
    by_cases hcurrent : q.tail = tail
    · subst hcurrent
      simp only [BatchPc.popRank, if_neg hsome, if_true, renewed]
      omega
    · simp only [BatchPc.popRank, if_neg hsome, if_neg hcurrent]
      omega

/-- The first slot is ready, or the head has come to the copy after it was loaded. -/
theorem nearsEnd_popLoadSequence {maxCount tail toPop i : ℕ}
    (h : LeavesLoop q (.popLoadSequence maxCount tail toPop i)) :
    NearsEnd t q history spurious (.popLoadSequence maxCount tail toPop i) := by
  rcases h with ⟨hasked, hpublished, hescapes⟩
  by_cases hready : q.sequence (q.slot (tail + i)) = (tail + i + 1) % WORD
  · by_cases hmore : i + 1 < toPop
    · refine ⟨(q, history, .popLoadSequence maxCount tail toPop (i + 1)),
        by simp [advanceBatch, hready, hmore],
        ⟨hasked, hpublished, Or.inl (Nat.succ_pos i)⟩, fun _ => ?_⟩
      simp only [BatchPc.popRank]
      split <;> omega
    · refine ⟨(q, history, .popExchange maxCount tail toPop),
        by simp [advanceBatch, hready, hmore], ⟨hasked, hpublished, trivial⟩, fun _ => ?_⟩
      simp only [BatchPc.popRank]
      split <;> omega
  · by_cases hfirst : i = 0
    · subst hfirst
      have hempty : wordSub q.head tail = 0 := by
        rcases hescapes with hpositive | hempty | hready'
        · exact absurd hpositive (Nat.lt_irrefl 0)
        · exact hempty
        · exact absurd hready' hready
      refine ⟨(q, history, .popLoadHead maxCount tail), ?_,
        ⟨hasked, hpublished, Or.inl hempty⟩, fun _ => ?_⟩
      · rw [advanceBatch, if_pos hready, if_pos rfl]
      · simp only [BatchPc.popRank, if_pos hempty]
        split <;> omega
    · refine ⟨(q, history, .popExchange maxCount tail i),
        by simp [advanceBatch, hready, hfirst], ⟨hasked, hpublished, trivial⟩, fun _ => ?_⟩
      simp only [BatchPc.popRank]
      split <;> omega

theorem nearsEnd_popExchange {maxCount tail toPop : ℕ}
    (h : LeavesLoop q (.popExchange maxCount tail toPop)) :
    NearsEnd t q history spurious (.popExchange maxCount tail toPop) := by
  rcases h with ⟨hasked, hpublished, -⟩
  by_cases hcurrent : spurious = false ∧ q.tail = tail
  · rcases hcurrent with ⟨rfl, rfl⟩
    refine ⟨(q.setIndex ((q.tail + toPop) % WORD) .consumer,
      history.claimMany .consumer q.tail toPop t, .popMove q.tail toPop toPop),
      by simp [advanceBatch], trivial, fun _ => ?_⟩
    simp [BatchPc.popRank]
  · refine ⟨(q, history, .popLoadHead maxCount q.tail), ?_,
      ⟨hasked, hpublished, hpublished.emptyOrReady⟩, fun hspurious => ?_⟩
    · simp only [advanceBatch]
      rw [if_neg]
      simpa using hcurrent
    · have hstale : q.tail ≠ tail := fun htail => hcurrent ⟨hspurious, htail⟩
      have hrank : (BatchPc.popExchange maxCount tail toPop : BatchPc T).popRank q =
          q.renewed maxCount + 1 := if_neg hstale
      rw [hrank]
      exact Nat.lt_succ_of_le (popRank_renewed q maxCount)

theorem nearsEnd_popMove (index left toPop : ℕ) :
    NearsEnd t q history spurious (.popMove index left toPop : BatchPc T) := by
  refine ⟨((moveValue .pop index q history).1, (moveValue .pop index q history).2,
    .popStoreSequence index left toPop), rfl, trivial, fun _ => ?_⟩
  simp only [BatchPc.popRank]
  omega

theorem nearsEnd_popStoreSequence (index left toPop : ℕ) :
    NearsEnd t q history spurious (.popStoreSequence index left toPop : BatchPc T) := by
  by_cases hlast : left ≤ 1
  · refine ⟨((handOver .pop index q history).1, (handOver .pop index q history).2,
      .counted toPop), by simp [advanceBatch, hlast], trivial, fun _ => ?_⟩
    simp only [BatchPc.popRank]
    omega
  · refine ⟨((handOver .pop index q history).1, (handOver .pop index q history).2,
      .popMove ((index + 1) % WORD) (left - 1) toPop), by simp [advanceBatch, hlast],
      trivial, fun _ => ?_⟩
    simp only [BatchPc.popRank]
    omega

/-- Every step on the way out nears its end. -/
theorem LeavesLoop.nearsEnd {pc : BatchPc T} (h : LeavesLoop q pc)
    (hinside : pc.outside = false) : NearsEnd t q history spurious pc := by
  cases pc with
  | popLoadTail maxCount => exact nearsEnd_popLoadTail h
  | popLoadHead maxCount tail => exact nearsEnd_popLoadHead h
  | popLoadSequence maxCount tail toPop i => exact nearsEnd_popLoadSequence h
  | popExchange maxCount tail toPop => exact nearsEnd_popExchange h
  | popMove index left toPop => exact nearsEnd_popMove index left toPop
  | popStoreSequence index left toPop => exact nearsEnd_popStoreSequence index left toPop
  | counted result => cases hinside
  | _ => exact h.1.elim

end Steps

/-! ## Round and round -/

/-- The copy shows that there is something to take, and not where. -/
def Overtaken (q : RingBufferQueue T) (pc : BatchPc T) : Prop :=
  pc.popping ∧ ¬ q.Escapes pc

theorem Overtaken.inside {q : RingBufferQueue T} {pc : BatchPc T} (h : Overtaken q pc) :
    pc.outside = false := by
  rcases h with ⟨hasked, -⟩
  cases pc <;> first | rfl | exact hasked.elim

/-- The loop changes neither the queue nor the copy. -/
theorem Overtaken.advance {t : ℕ} {q : RingBufferQueue T} {history : History T} {spurious : Bool}
    {pc : BatchPc T} (h : Overtaken q pc) :
    ∃ pc', advanceBatch t spurious q history pc = some (q, history, pc') ∧ Overtaken q pc' := by
  rcases h with ⟨hasked, hstays⟩
  cases pc with
  | popLoadHead maxCount tail =>
      have hsome : wordSub q.head tail ≠ 0 := fun hempty => hstays (Or.inl hempty)
      have hcount : min maxCount (wordSub q.head tail) ≠ 0 := by
        have hpositive : 1 ≤ maxCount := hasked
        omega
      refine ⟨.popLoadSequence maxCount tail (min maxCount (wordSub q.head tail)) 0,
        by simp [advanceBatch, hcount], hasked, ?_⟩
      rintro (hlater | hescapes)
      · exact Nat.lt_irrefl 0 hlater
      · exact hstays hescapes
  | popLoadSequence maxCount tail toPop i =>
      have hfirst : i = 0 := Nat.eq_zero_of_not_pos fun hlater => hstays (Or.inl hlater)
      subst hfirst
      have hmoved : q.sequence (q.slot (tail + 0)) ≠ (tail + 0 + 1) % WORD :=
        fun hready => hstays (Or.inr (Or.inr hready))
      refine ⟨.popLoadHead maxCount tail, by rw [advanceBatch, if_pos hmoved, if_pos rfl],
        hasked, fun hescapes => hstays (Or.inr hescapes)⟩
  | popLoadTail maxCount => exact absurd trivial hstays
  | popExchange maxCount tail toPop => exact absurd trivial hstays
  | popMove index left toPop => exact absurd trivial hstays
  | popStoreSequence index left toPop => exact absurd trivial hstays
  | _ => exact hasked.elim

namespace BatchSystem

/-- An overtaken thread that runs alone is inside after every number of steps. -/
theorem overtaken_forever {t : ℕ} {s : BatchSystem T}
    (hovertaken : Overtaken s.queue (s.threads t)) (spurious : List Bool) :
    ∃ final, exec (alone t) s spurious = some final ∧ (final.threads t).outside = false := by
  have hstep : ∀ (s : BatchSystem T) (spurious : Bool), Overtaken s.queue (s.threads t) →
      (fun _ _ => True : BatchSystem T → Bool → Prop) s spurious →
      ∃ next, alone t s spurious = some next ∧ Overtaken next.queue (next.threads t) := by
    intro s spurious h _
    have hround : ∃ pc', advanceBatch t spurious s.queue s.history (s.threads t) =
        some (s.queue, s.history, pc') ∧ Overtaken s.queue pc' := h.advance
    rcases hround with ⟨pc', hpc', hagain⟩
    refine ⟨_, alone_eq hpc', ?_⟩
    simpa using hagain
  rcases exec_progress hstep hovertaken (along_of_forall (fun _ _ => trivial) s spurious) with
    ⟨final, hfinal, hend⟩
  exact ⟨final, hfinal, hend.inside⟩

theorem not_returnsAlone_of_overtaken {t : ℕ} {s : BatchSystem T}
    (hovertaken : Overtaken s.queue (s.threads t)) : ¬ s.ReturnsAlone t := by
  intro hreturns
  rcases hreturns (fun _ => false) 0 (fun _ _ => rfl) with ⟨n, final, hfinal, houtside⟩
  rcases overtaken_forever hovertaken ((List.range n).map fun _ => false) with
    ⟨final', hfinal', hinside⟩
  rw [hfinal] at hfinal'
  rw [← Option.some.inj hfinal', houtside] at hinside
  cases hinside

theorem returnsAlone_of_leavesLoop {t : ℕ} {s : BatchSystem T}
    (hleaves : LeavesLoop s.queue (s.threads t)) : s.ReturnsAlone t := by
  intro spurious first hmoves
  have hstep : ∀ (s : BatchSystem T) (spurious : Bool), LeavesLoop s.queue (s.threads t) →
      ¬ (s.threads t).outside = true →
      ∃ next, alone t s spurious = some next ∧ LeavesLoop next.queue (next.threads t) ∧
        (spurious = false →
          (next.threads t).popRank next.queue < (s.threads t).popRank s.queue) := by
    intro s spurious h hinside
    have hnears : NearsEnd t s.queue s.history spurious (s.threads t) :=
      h.nearsEnd (Bool.eq_false_of_not_eq_true hinside)
    rcases hnears with ⟨r, hr, hleaves, hrank⟩
    refine ⟨_, alone_eq hr, ?_⟩
    simpa using ⟨hleaves, hrank⟩
  exact exec_finishes (fun s => (s.threads t).popRank s.queue) hstep hmoves hleaves

/-- A thread inside `pop_batch` that is left alone, with no push half done, returns
exactly when it is at its exchange or behind it, or its copy of `tail_` shows an empty
queue or a slot that is ready. -/
theorem popBatch_returns_iff {t : ℕ} {s : BatchSystem T} (hpopping : (s.threads t).popping)
    (hpublished : s.queue.Published) :
    s.ReturnsAlone t ↔ s.queue.Escapes (s.threads t) := by
  constructor
  · intro hreturns
    by_contra hstays
    exact not_returnsAlone_of_overtaken ⟨hpopping, hstays⟩ hreturns
  · intro hescapes
    apply returnsAlone_of_leavesLoop
    unfold LeavesLoop
    split
    · trivial
    · trivial
    · trivial
    · exact ⟨hpopping, hpublished, hescapes⟩

/-- Thread 2 has loaded `tail_` when thread 3 takes the only value. -/
def overtakenRun : List (BatchLabel ℕ) :=
  .call 1 (.pushBatch [7]) :: List.replicate 5 (.step 1 false) ++
    .call 2 (.popBatch 1) :: .step 2 false ::
    .call 3 (.popBatch 1) :: List.replicate 6 (.step 3 false)

/-- Thread 2 goes round its loop for ever: slot 0 carries the number 2 and not 1. -/
theorem overtakenRun_livelock :
    ∃ s, exec BatchSystem.step (initial 2 true) overtakenRun = some s ∧
      s.queue.Published ∧ s.threads 2 = .popLoadHead 1 0 ∧ s.queue.tail = 1 ∧
      ¬ s.ReturnsAlone 2 := by
  have hrun : ∃ s, exec BatchSystem.step (initial 2 true) overtakenRun = some s ∧
      wordSub s.queue.head s.queue.tail = 0 ∧ s.threads 2 = .popLoadHead 1 0 ∧
      s.queue.tail = 1 ∧ wordSub s.queue.head 0 = 1 ∧ s.queue.sequence (s.queue.slot 0) = 2 :=
    ⟨_, rfl, rfl, rfl, rfl, rfl, rfl⟩
  rcases hrun with ⟨s, hexec, hempty, hpc, htail, hone, hnumber⟩
  refine ⟨s, hexec, fun i hi => ?_, hpc, htail, not_returnsAlone_of_overtaken ?_⟩
  · rw [hempty] at hi
    exact absurd hi (Nat.not_lt_zero i)
  · rw [hpc]
    refine ⟨Nat.le_refl 1, ?_⟩
    rintro (hnothing | hready)
    · rw [hone] at hnothing
      cases hnothing
    · rw [hnumber] at hready
      cases hready

/-- The thread that took the value has not given the slot back yet. -/
def overtakingRun : List (BatchLabel ℕ) :=
  .call 1 (.pushBatch [7]) :: List.replicate 5 (.step 1 false) ++
    .call 2 (.popBatch 1) :: .step 2 false ::
    .call 3 (.popBatch 1) :: List.replicate 4 (.step 3 false)

theorem popBatch_returns_overtakingRun :
    ∃ s, exec BatchSystem.step (initial 2 true) overtakingRun = some s ∧
      s.threads 2 = .popLoadHead 1 0 ∧ s.queue.tail = 1 ∧ s.ReturnsAlone 2 := by
  have hrun : ∃ s, exec BatchSystem.step (initial 2 true) overtakingRun = some s ∧
      wordSub s.queue.head s.queue.tail = 0 ∧ s.threads 2 = .popLoadHead 1 0 ∧
      s.queue.tail = 1 ∧ s.queue.sequence (s.queue.slot 0) = 1 :=
    ⟨_, rfl, rfl, rfl, rfl, rfl⟩
  rcases hrun with ⟨s, hexec, hempty, hpc, htail, hnumber⟩
  refine ⟨s, hexec, hpc, htail, (popBatch_returns_iff ?_ fun i hi => ?_).mpr ?_⟩
  · rw [hpc]
    exact Nat.le_refl 1
  · rw [hempty] at hi
    exact absurd hi (Nat.not_lt_zero i)
  · rw [hpc]
    exact Or.inr hnumber

end BatchSystem

end Concurrent
end Katana
