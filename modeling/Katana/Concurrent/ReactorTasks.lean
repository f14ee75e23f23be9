import Katana.Concurrent.RingSafety

/-!
# Tasks of the reactor

Threads hand tasks to the reactor through the ring buffer queue and a counter of
tasks, and wake it by an event descriptor; the reactor takes the counter and pops
that many tasks.  The accesses to the queue, to the counter, to the flag and to
the descriptor are separate steps in any interleaving.  A task that schedules
another one is a thread like any other.
-/

namespace Katana
namespace Concurrent

open Library RingBufferQueue

def COUNTER_WORD : ℕ := 2 ^ 32

variable {T : Type*}

/-- A thread in `schedule`. -/
inductive Scheduling (T : Type*) where
  | outside
  | push (pc : Pc T)
  | count
  | wakeup
  | write

/-- The reactor thread in `process_tasks`, `calculate_timeout` and
`process_events`; a batch carries the number of pops that are still to begin. -/
inductive Reacting (T : Type*) where
  | take
  | clear (toProcess : ℕ)
  | batch (toProcess : ℕ)
  | pop (toProcess : ℕ) (pc : Pc T)
  | emptyTail
  | emptyHead (tail : ℕ)
  | poll (empty : Bool)

structure ReactorTasks (T : Type*) where
  pendingTasks : RingBufferQueue T
  history : History T := {}
  pendingCount : ℕ := 0
  needsWakeup : Bool := false
  /-- The event descriptor has been written and not read. -/
  wakeupFd : Bool := false
  threads : ℕ → Scheduling T := fun _ => .outside
  reactor : Reacting T := .take
  /-- Threads that have counted a task. -/
  counted : List ℕ := []

inductive TaskLabel (T : Type*) where
  | schedule (thread : ℕ) (task : T)
  | thread (thread : ℕ) (spurious : Bool)
  | reactor (spurious : Bool)

/-- The thread has claimed a position in this operation. -/
def Pc.holds : Pc T → Bool
  | .move _ _ | .storeSequence _ _ | .returned true => true
  | _ => false

def Pc.operation : Pc T → Option (Op T)
  | .choosing _ op | .loadIndex op | .loadSequence op _ | .exchange op _ | .move op _
  | .storeSequence op _ => some op
  | _ => none

/-- The thread is in the same operation or has returned. -/
def Pc.goesOn (op : Op T) (pc : Pc T) : Prop :=
  pc.operation = some op ∨ ∃ ok, pc = .returned ok

/-- An operation gives up only at a slot whose sequence number is behind. -/
def Pc.givesUp (q : RingBufferQueue T) : Pc T → Bool
  | .loadSequence op index =>
      signedDiff (q.sequence (q.slot index)) (ready index op.side) < 0
  | _ => false

def Scheduling.isOutside : Scheduling T → Bool
  | .outside => true
  | _ => false

/-- The label moves one of these threads or the reactor. -/
def TaskLabel.named (threads : List ℕ) : TaskLabel T → Bool
  | .schedule t _ | .thread t _ => t ∈ threads
  | .reactor _ => true

namespace ReactorTasks

/-- `schedule` goes on with the result of `try_push`. -/
def pushed : Pc T → Scheduling T
  | .returned true => .count
  | .returned false => .outside
  | pc => .push pc

/-- The batch goes on with the result of `pop`. -/
def popped (toProcess : ℕ) : Pc T → Reacting T
  | .returned true => .batch toProcess
  | .returned false => .emptyTail
  | pc => .pop toProcess pc

def stepThread (s : ReactorTasks T) (t : ℕ) (spurious : Bool) : Option (ReactorTasks T) :=
  match s.threads t with
  | .outside => none
  | .push pc =>
      (advance t spurious s.pendingTasks s.history pc).map fun result =>
        { s with
          pendingTasks := result.1
          history := result.2.1
          threads := Function.update s.threads t (pushed result.2.2) }
  | .count =>
      some { s with
        pendingCount := (s.pendingCount + 1) % COUNTER_WORD
        counted := t :: s.counted
        threads := Function.update s.threads t (if s.pendingCount = 0 then .wakeup else .outside) }
  | .wakeup =>
      some { s with
        needsWakeup := true
        threads := Function.update s.threads t (if s.needsWakeup then .outside else .write) }
  | .write => some { s with wakeupFd := true, threads := Function.update s.threads t .outside }

/-- `epoll_wait` reports the event descriptor or other events, or times out. -/
def stepReactor (s : ReactorTasks T) (choice : Bool) : Option (ReactorTasks T) :=
  match s.reactor with
  | .take => some { s with pendingCount := 0, reactor := .clear s.pendingCount }
  | .clear toProcess => some { s with needsWakeup := false, reactor := .batch toProcess }
  | .batch 0 => some { s with reactor := .emptyTail }
  | .batch (toProcess + 1) =>
      some { s with reactor := .pop toProcess (.choosing .seenProducers .pop) }
  | .pop toProcess pc =>
      (advance 0 choice s.pendingTasks s.history pc).map fun result =>
        { s with
          pendingTasks := result.1
          history := result.2.1
          reactor := popped toProcess result.2.2 }
  | .emptyTail => some { s with reactor := .emptyHead s.pendingTasks.tail }
  | .emptyHead tail => some { s with reactor := .poll (decide (tail = s.pendingTasks.head)) }
  | .poll _ =>
      if choice && s.wakeupFd then
        some { s with wakeupFd := false, needsWakeup := true, reactor := .take }
      else some { s with reactor := .take }

def step (s : ReactorTasks T) : TaskLabel T → Option (ReactorTasks T)
  | .schedule t task =>
      match s.threads t with
      | .outside =>
          some { s with
            threads := Function.update s.threads t (.push (.choosing .seenProducers (.push task))) }
      | _ => none
  | .thread t spurious => s.stepThread t spurious
  | .reactor choice => s.stepReactor choice

/-- A reactor whose queue is for many threads. -/
def initial (maxPendingTasks : ℕ) : ReactorTasks T :=
  { pendingTasks := .create maxPendingTasks false }

/-! ## Tasks, counts and pops -/

/-- Tasks that have been pushed and not popped. -/
def tasks (s : ReactorTasks T) : ℕ :=
  (s.history.claimed .producer).length - (s.history.claimed .consumer).length

/-- Pops that the reactor will still make in its batch. -/
def committed (s : ReactorTasks T) : ℕ :=
  match s.reactor with
  | .clear toProcess | .batch toProcess => toProcess
  | .pop toProcess pc => toProcess + (!pc.holds).toNat
  | _ => 0

/-- Tasks that a thread has pushed and not counted. -/
def owed : Scheduling T → ℕ
  | .push pc => pc.holds.toNat
  | .count => 1
  | _ => 0

/-- No thread is inside `schedule`. -/
def Quiet (s : ReactorTasks T) : Prop :=
  ∀ t, s.threads t = .outside

/-- Every task will be popped in this batch or a later one. -/
def Covered (s : ReactorTasks T) : Prop :=
  s.tasks ≤ s.pendingCount + s.committed

/-- The step does not miss a task: a pop of the reactor does not find that the
slot has been claimed and not filled, and the counter does not wrap. -/
def complete (s : ReactorTasks T) : TaskLabel T → Bool
  | .schedule _ _ => true
  | .thread t _ =>
      match s.threads t with
      | .count => s.pendingCount + 1 < COUNTER_WORD
      | _ => true
  | .reactor _ =>
      match s.reactor with
      | .pop _ pc => !pc.givesUp s.pendingTasks
      | _ => true

/-! ## One step of the queue -/

/-- A step of a thread in the queue claims a position, or it claims nothing. -/
inductive ClaimStep (t : ℕ) (op : Op T) (history : History T) (pc : Pc T) (history' : History T)
    (pc' : Pc T) : Prop where
  | stay (hclaimed : history'.claimed = history.claimed) (hholds : pc'.holds = pc.holds)
  | claim (index : ℕ) (hbefore : pc.holds = false)
      (hclaimed : history'.claimed = (history.claim op.side index t).claimed)
      (hafter : pc'.holds = true)

theorem claimStep {t : ℕ} {spurious : Bool} {q : RingBufferQueue T} {history : History T}
    {pc : Pc T} {op : Op T} {result : RingBufferQueue T × History T × Pc T}
    (hseen : q.multiProducerSeen = true) (hmulti : pc.multi = true)
    (hoperation : pc.operation = some op)
    (hstep : advance t spurious q history pc = some result) :
    ClaimStep t op history pc result.2.1 result.2.2 ∧ result.2.2.goesOn op ∧
      (result.2.2 = .returned false ↔ pc.givesUp q = true) := by
  cases pc with
  | choosing choice op' =>
      cases choice <;> cases hmulti
      cases hoperation
      cases hstep
      simp only [choose, hseen, if_true]
      exact ⟨.stay rfl rfl, .inl rfl, by simp [Pc.givesUp]⟩
  | loadIndex op' =>
      cases hoperation
      cases hstep
      exact ⟨.stay rfl rfl, .inl rfl, by simp [Pc.givesUp]⟩
  | loadSequence op' index =>
      cases hoperation
      unfold Concurrent.advance at hstep
      dsimp only at hstep
      split_ifs at hstep with hzero hneg <;> cases hstep
      · exact ⟨.stay rfl rfl, .inl rfl, by simp [Pc.givesUp, hzero]⟩
      · exact ⟨.stay rfl rfl, .inr ⟨false, rfl⟩, by simp [Pc.givesUp, hneg]⟩
      · exact ⟨.stay rfl rfl, .inl rfl, by simpa [Pc.givesUp] using hneg⟩
  | exchange op' index =>
      cases hoperation
      unfold Concurrent.advance at hstep
      dsimp only at hstep
      split_ifs at hstep <;> cases hstep
      · exact ⟨.claim index rfl rfl rfl, .inl rfl, by simp [Pc.givesUp]⟩
      · exact ⟨.stay rfl rfl, .inl rfl, by simp [Pc.givesUp]⟩
  | move op' index =>
      cases hoperation
      cases hstep
      refine ⟨?_, .inl rfl, by simp [Pc.givesUp]⟩
      cases op <;> exact .stay rfl rfl
  | storeSequence op' index =>
      cases hoperation
      cases hstep
      refine ⟨?_, .inr ⟨true, rfl⟩, by simp [Pc.givesUp]⟩
      cases op <;> exact .stay rfl rfl
  | _ => cases hoperation

/-! ## Accounting -/

/-- Every task that has been counted is in the counter, in the batch, or popped,
except for the missing ones. -/
structure Balanced (missing : ℕ) (s : ReactorTasks T) : Prop where
  seen : s.pendingTasks.multiProducerSeen = true
  pushing : ∀ t pc, s.threads t = .push pc →
    pc.multi = true ∧ ∃ task, pc.operation = some (.push task)
  popping : ∀ toProcess pc, s.reactor = .pop toProcess pc →
    pc.multi = true ∧ pc.operation = some .pop
  balance : ∀ t, ((s.history.claimed .producer).map (·.2)).count t =
    s.counted.count t + owed (s.threads t)
  counts : s.counted.length =
    s.pendingCount + s.committed + (s.history.claimed .consumer).length + missing

theorem balanced_initial (maxPendingTasks : ℕ) :
    (initial maxPendingTasks : ReactorTasks T).Balanced 0 := by
  constructor
  · rfl
  · exact fun _ _ h => by cases h
  · exact fun _ _ h => by cases h
  · exact fun _ => rfl
  · rfl

section

variable {missing : ℕ} {s : ReactorTasks T} {t : ℕ}

/-- A step of a thread that is not in the queue. -/
theorem Balanced.thread (h : s.Balanced missing) {s' : ReactorTasks T} {missing' : ℕ}
    {scheduling : Scheduling T} (hthreads : s'.threads = Function.update s.threads t scheduling)
    (hqueue : s'.pendingTasks.multiProducerSeen = true) (hreactor : s'.reactor = s.reactor)
    (hpush : ∀ pc, scheduling = .push pc →
      pc.multi = true ∧ ∃ task, pc.operation = some (.push task))
    (hothers : ∀ u, u ≠ t → ((s'.history.claimed .producer).map (·.2)).count u =
      s'.counted.count u + owed (s.threads u))
    (howed : ((s'.history.claimed .producer).map (·.2)).count t =
      s'.counted.count t + owed scheduling)
    (hcounts : s'.counted.length = s'.pendingCount + s.committed +
      (s'.history.claimed .consumer).length + missing') : s'.Balanced missing' := by
  have hcommitted : s'.committed = s.committed := by
    unfold committed
    rw [hreactor]
  constructor
  · exact hqueue
  · rw [hthreads]
    apply QueueSystem.forall_update (P := fun _ (scheduling : Scheduling T) =>
      ∀ pc, scheduling = .push pc →
      pc.multi = true ∧ ∃ task, pc.operation = some (.push task))
    · exact fun u _ => h.pushing u
    · exact hpush
  · rw [hreactor]
    exact h.popping
  · rw [hthreads]
    apply QueueSystem.forall_update (P := fun u (scheduling : Scheduling T) =>
      ((s'.history.claimed .producer).map (·.2)).count u = s'.counted.count u + owed scheduling)
    · exact hothers
    · exact howed
  · rw [hcommitted]
    exact hcounts

theorem length_claim {history : History T} {index : ℕ} (side other : Side) :
    ((history.claim side index t).claimed other).length =
      (history.claimed other).length + if other = side then 1 else 0 := by
  unfold History.claim
  dsimp only
  by_cases heq : other = side
  · simp [heq]
  · simp [heq]

theorem owed_pushed (pc : Pc T) : owed (pushed pc) = pc.holds.toNat := by
  cases pc with
  | returned ok => cases ok <;> rfl
  | _ => rfl

/-- A step of a thread in `try_push`. -/
theorem Balanced.push (h : s.Balanced missing) {pc : Pc T} (hpc : s.threads t = .push pc)
    {spurious : Bool} {result : RingBufferQueue T × History T × Pc T}
    (hstep : advance t spurious s.pendingTasks s.history pc = some result) :
    ({ s with
        pendingTasks := result.1
        history := result.2.1
        threads := Function.update s.threads t (pushed result.2.2) } :
      ReactorTasks T).Balanced missing := by
  obtain ⟨hmulti, task, hoperation⟩ := h.pushing t pc hpc
  have hnext := QueueSystem.multi_advance h.seen hmulti hstep
  obtain ⟨hclaim, hgoesOn, -⟩ := claimStep h.seen hmulti hoperation hstep
  have hmine := h.balance t
  rw [hpc] at hmine
  have hcounts := h.counts
  apply h.thread
  · rfl
  · exact hnext.1
  · rfl
  · intro pc' hpc'
    rcases hgoesOn with hoperation' | ⟨ok, hreturned⟩
    · have hsame : result.2.2 = pc' := by
        cases hresult : result.2.2 with
        | returned ok =>
            rw [hresult] at hoperation'
            cases hoperation'
        | _ =>
            rw [hresult] at hpc'
            cases hpc'
            rfl
      rw [← hsame]
      exact ⟨hnext.2, task, hoperation'⟩
    · rw [hreturned] at hpc'
      cases ok <;> cases hpc'
  · intro u hu
    cases hclaim with
    | stay hclaimed hholds =>
        rw [hclaimed]
        exact h.balance u
    | claim index hbefore hclaimed hafter =>
        rw [hclaimed, QueueSystem.count_claimed, if_neg (by simp [hu]), h.balance u]
        rfl
  · rw [owed_pushed]
    cases hclaim with
    | stay hclaimed hholds =>
        rw [hclaimed, hholds]
        exact hmine
    | claim index hbefore hclaimed hafter =>
        rw [hclaimed, QueueSystem.count_claimed, if_pos ⟨rfl, rfl⟩, hafter, hmine, owed, hbefore]
        rfl
  · cases hclaim with
    | stay hclaimed hholds =>
        rw [hclaimed]
        exact hcounts
    | claim index hbefore hclaimed hafter =>
        rw [hclaimed, length_claim, if_neg (by simp [Op.side])]
        exact hcounts

/-- A step of the reactor that is not in the queue. -/
theorem Balanced.reactor (h : s.Balanced missing) {missing' : ℕ} {s' : ReactorTasks T}
    (hthreads : s'.threads = s.threads) (hcounted : s'.counted = s.counted)
    (hqueue : s'.pendingTasks.multiProducerSeen = true)
    (hpop : ∀ toProcess pc, s'.reactor = .pop toProcess pc →
      pc.multi = true ∧ pc.operation = some .pop)
    (hproducer : ∀ u, ((s'.history.claimed .producer).map (·.2)).count u =
      ((s.history.claimed .producer).map (·.2)).count u)
    (hcounts : s'.pendingCount + s'.committed + (s'.history.claimed .consumer).length + missing' =
      s.pendingCount + s.committed + (s.history.claimed .consumer).length + missing) :
    s'.Balanced missing' := by
  constructor
  · exact hqueue
  · rw [hthreads]
    exact h.pushing
  · exact hpop
  · intro u
    rw [hproducer, hthreads, hcounted]
    exact h.balance u
  · rw [hcounted, hcounts]
    exact h.counts

theorem committed_popped (toProcess : ℕ) {pc : Pc T} (hpc : pc ≠ .returned false) :
    ({ s with reactor := popped toProcess pc } : ReactorTasks T).committed =
      toProcess + (!pc.holds).toNat := by
  cases pc with
  | returned ok =>
      cases ok
      · exact absurd rfl hpc
      · rfl
  | _ => rfl

/-- A step of the reactor in `pop`: unless it gives up, nothing is missed. -/
theorem Balanced.pop (h : s.Balanced missing) {toProcess : ℕ} {pc : Pc T}
    (hpc : s.reactor = .pop toProcess pc) {choice : Bool}
    {result : RingBufferQueue T × History T × Pc T}
    (hstep : advance 0 choice s.pendingTasks s.history pc = some result) :
    ({ s with
        pendingTasks := result.1
        history := result.2.1
        reactor := popped toProcess result.2.2 } : ReactorTasks T).Balanced
      (if pc.givesUp s.pendingTasks then missing + (toProcess + 1) else missing) := by
  obtain ⟨hmulti, hoperation⟩ := h.popping toProcess pc hpc
  have hnext := QueueSystem.multi_advance h.seen hmulti hstep
  obtain ⟨hclaim, hgoesOn, hgivesUp⟩ := claimStep h.seen hmulti hoperation hstep
  apply h.reactor
  · rfl
  · rfl
  · exact hnext.1
  · intro toProcess' pc' hpc'
    rcases hgoesOn with hoperation' | ⟨ok, hreturned⟩
    · have hsame : result.2.2 = pc' := by
        cases hresult : result.2.2 with
        | returned ok =>
            rw [hresult] at hoperation'
            cases hoperation'
        | _ =>
            rw [hresult] at hpc'
            cases hpc'
            rfl
      rw [← hsame]
      exact ⟨hnext.2, hoperation'⟩
    · rw [hreturned] at hpc'
      cases ok <;> cases hpc'
  · intro u
    cases hclaim with
    | stay hclaimed hholds => rw [hclaimed]
    | claim index hbefore hclaimed hafter =>
        rw [hclaimed, QueueSystem.count_claimed, if_neg (by simp [Op.side])]
        rfl
  · have hbefore : s.committed = toProcess + (!pc.holds).toNat := by
      unfold committed
      rw [hpc]
    rw [hbefore]
    split
    next hup =>
      have hfalse := hgivesUp.mpr hup
      have hplain : pc.holds = false := by
        cases pc <;> first | rfl | cases hup
      cases hclaim with
      | stay hclaimed hholds =>
          rw [hclaimed, hfalse, hplain]
          simp only [popped, committed, Bool.not_false, Bool.toNat_true]
          omega
      | claim index hbefore hclaimed hafter =>
          rw [hfalse] at hafter
          cases hafter
    next hgoing =>
      have hfalse : result.2.2 ≠ .returned false := fun hfalse => hgoing (hgivesUp.mp hfalse)
      have hcommitted := committed_popped (s := { s with
        pendingTasks := result.1, history := result.2.1 }) toProcess hfalse
      dsimp only at hcommitted ⊢
      rw [hcommitted]
      cases hclaim with
      | stay hclaimed hholds => rw [hclaimed, hholds]
      | claim index hbefore hclaimed hafter =>
          have hside : (Side.consumer = (Op.pop : Op T).side) := rfl
          rw [hclaimed, length_claim, if_pos hside, hbefore, hafter]
          simp only [Bool.not_true, Bool.toNat_false, Bool.not_false, Bool.toNat_true]
          omega

theorem step_schedule {task : T} {next : ReactorTasks T}
    (hstep : s.step (.schedule t task) = some next) :
    s.threads t = .outside ∧ next = { s with
      threads := Function.update s.threads t (.push (.choosing .seenProducers (.push task))) } := by
  unfold step at hstep
  cases hthread : s.threads t <;> simp only [hthread] at hstep <;> cases hstep
  exact ⟨rfl, rfl⟩

theorem Balanced.schedule (h : s.Balanced missing) {task : T} (hthread : s.threads t = .outside) :
    ({ s with
        threads := Function.update s.threads t (.push (.choosing .seenProducers (.push task))) } :
      ReactorTasks T).Balanced missing := by
  apply h.thread
  · rfl
  · exact h.seen
  · rfl
  · intro pc hpc
    cases hpc
    exact ⟨rfl, task, rfl⟩
  · exact fun u _ => h.balance u
  · rw [h.balance t, hthread]
    rfl
  · exact h.counts

/-- A step of a thread; if the counter wraps, tasks are missed. -/
theorem Balanced.stepThread (h : s.Balanced missing) {spurious : Bool} {next : ReactorTasks T}
    (hstep : s.stepThread t spurious = some next) :
    ∃ missing', next.Balanced missing' ∧
      (s.complete (.thread t spurious) = true → missing' = missing) ∧
      (s.complete (.thread t spurious) = false → missing < missing') := by
  unfold ReactorTasks.stepThread at hstep
  unfold complete
  dsimp only
  cases hthread : s.threads t with
  | outside =>
      rw [hthread] at hstep
      cases hstep
  | push pc =>
      rw [hthread] at hstep
      obtain ⟨result, hadvance, rfl⟩ := Option.map_eq_some_iff.mp hstep
      exact ⟨missing, h.push hthread hadvance, fun _ => rfl, fun h => by cases h⟩
  | count =>
      rw [hthread] at hstep
      cases hstep
      have hcounts := h.counts
      have hdivision : (s.pendingCount + 1) % COUNTER_WORD +
          COUNTER_WORD * ((s.pendingCount + 1) / COUNTER_WORD) = s.pendingCount + 1 :=
        Nat.mod_add_div ..
      refine ⟨missing + COUNTER_WORD * ((s.pendingCount + 1) / COUNTER_WORD), ?_, ?_, ?_⟩
      · apply h.thread
        · rfl
        · exact h.seen
        · rfl
        · intro pc hpc
          split at hpc <;> cases hpc
        · intro u hu
          rw [List.count_cons_of_ne hu.symm]
          exact h.balance u
        · rw [List.count_cons_self, h.balance t, hthread]
          split <;> rfl
        · dsimp only [List.length_cons]
          omega
      · intro hcomplete
        rw [decide_eq_true_iff] at hcomplete
        rw [Nat.div_eq_of_lt hcomplete]
        rfl
      · intro hwraps
        rw [decide_eq_false_iff_not, not_lt] at hwraps
        have hpos := Nat.div_pos hwraps (show 0 < COUNTER_WORD by decide)
        have : 0 < COUNTER_WORD * ((s.pendingCount + 1) / COUNTER_WORD) :=
          Nat.mul_pos (by decide) hpos
        omega
  | wakeup =>
      rw [hthread] at hstep
      cases hstep
      refine ⟨missing, ?_, fun _ => rfl, fun h => by cases h⟩
      apply h.thread
      · rfl
      · exact h.seen
      · rfl
      · intro pc hpc
        split at hpc <;> cases hpc
      · exact fun u _ => h.balance u
      · rw [h.balance t, hthread]
        split <;> rfl
      · exact h.counts
  | write =>
      rw [hthread] at hstep
      cases hstep
      refine ⟨missing, ?_, fun _ => rfl, fun h => by cases h⟩
      apply h.thread
      · rfl
      · exact h.seen
      · rfl
      · exact fun _ hpc => by cases hpc
      · exact fun u _ => h.balance u
      · rw [h.balance t, hthread]
        rfl
      · exact h.counts

/-- A step of the reactor outside the queue. -/
theorem Balanced.loop (h : s.Balanced missing) {pendingCount : ℕ} {needsWakeup wakeupFd : Bool}
    {reactor : Reacting T}
    (hpop : ∀ toProcess pc, reactor = .pop toProcess pc →
      pc.multi = true ∧ pc.operation = some .pop)
    (hcounts : pendingCount + ({ s with reactor := reactor } : ReactorTasks T).committed =
      s.pendingCount + s.committed) :
    ({ s with
        pendingCount := pendingCount
        needsWakeup := needsWakeup
        wakeupFd := wakeupFd
        reactor := reactor } : ReactorTasks T).Balanced missing := by
  apply h.reactor
  · rfl
  · rfl
  · exact h.seen
  · exact hpop
  · exact fun _ => rfl
  · exact congrArg (· + (s.history.claimed .consumer).length + missing) hcounts

theorem Balanced.stepReactor (h : s.Balanced missing) {choice : Bool} {next : ReactorTasks T}
    (hstep : s.stepReactor choice = some next) :
    ∃ missing', next.Balanced missing' ∧
      (s.complete (.reactor choice) = true → missing' = missing) ∧
      (s.complete (.reactor choice) = false → missing < missing') := by
  unfold ReactorTasks.stepReactor at hstep
  unfold complete
  dsimp only
  cases hreactor : s.reactor with
  | pop toProcess pc =>
      rw [hreactor] at hstep
      obtain ⟨result, hadvance, rfl⟩ := Option.map_eq_some_iff.mp hstep
      refine ⟨_, h.pop hreactor hadvance, ?_, ?_⟩
      · intro hcomplete
        rw [if_neg (by simpa using hcomplete)]
      · intro hmisses
        rw [if_pos (by simpa using hmisses)]
        omega
  | batch toProcess =>
      rw [hreactor] at hstep
      cases toProcess with
      | zero =>
          cases hstep
          refine ⟨missing, ?_, fun _ => rfl, fun h => by cases h⟩
          apply h.loop
          · exact fun _ _ hpc => by cases hpc
          · simp only [committed, hreactor]
      | succ toProcess =>
          cases hstep
          refine ⟨missing, ?_, fun _ => rfl, fun h => by cases h⟩
          apply h.loop
          · intro toProcess' pc hpc
            cases hpc
            exact ⟨rfl, rfl⟩
          · simp [committed, hreactor, Pc.holds]
  | take =>
      rw [hreactor] at hstep
      cases hstep
      refine ⟨missing, ?_, fun _ => rfl, fun h => by cases h⟩
      apply h.loop
      · exact fun _ _ hpc => by cases hpc
      · simp only [committed, hreactor]
        omega
  | clear toProcess =>
      rw [hreactor] at hstep
      cases hstep
      refine ⟨missing, ?_, fun _ => rfl, fun h => by cases h⟩
      apply h.loop
      · exact fun _ _ hpc => by cases hpc
      · simp only [committed, hreactor]
  | emptyTail =>
      rw [hreactor] at hstep
      cases hstep
      refine ⟨missing, ?_, fun _ => rfl, fun h => by cases h⟩
      apply h.loop
      · exact fun _ _ hpc => by cases hpc
      · simp only [committed, hreactor]
  | emptyHead tail =>
      rw [hreactor] at hstep
      cases hstep
      refine ⟨missing, ?_, fun _ => rfl, fun h => by cases h⟩
      apply h.loop
      · exact fun _ _ hpc => by cases hpc
      · simp only [committed, hreactor]
  | poll empty =>
      rw [hreactor] at hstep
      refine ⟨missing, ?_, fun _ => rfl, fun h => by cases h⟩
      dsimp only at hstep
      split_ifs at hstep <;> cases hstep
      · apply h.loop
        · exact fun _ _ hpc => by cases hpc
        · simp only [committed, hreactor]
      · apply h.loop
        · exact fun _ _ hpc => by cases hpc
        · simp only [committed, hreactor]

/-- What one step preserves: tasks are missed exactly at the steps that are not
complete, and never found again. -/
theorem Balanced.step (h : s.Balanced missing) {label : TaskLabel T} {next : ReactorTasks T}
    (hstep : s.step label = some next) :
    ∃ missing', next.Balanced missing' ∧ (s.complete label = true → missing' = missing) ∧
      (s.complete label = false → missing < missing') := by
  cases label with
  | schedule t task =>
      obtain ⟨hthread, rfl⟩ := step_schedule hstep
      exact ⟨missing, h.schedule hthread, fun _ => rfl, fun h => by cases h⟩
  | thread t spurious => exact h.stepThread hstep
  | reactor choice => exact h.stepReactor hstep

/-- What a run preserves. -/
theorem Balanced.exec (h : s.Balanced missing) {labels : List (TaskLabel T)}
    {final : ReactorTasks T} (hexec : exec ReactorTasks.step s labels = some final) :
    ∃ missing', final.Balanced missing' ∧ missing ≤ missing' ∧
      (Along ReactorTasks.step (fun s label => s.complete label = true) s labels ↔
        missing' = missing) := by
  induction labels generalizing s missing with
  | nil =>
      cases hexec
      exact ⟨missing, h, le_rfl, by simp [Along]⟩
  | cons label rest ih =>
      obtain ⟨next, hnext, hrest⟩ := (exec_cons).mp hexec
      obtain ⟨middle, hmiddle, hcomplete, hmisses⟩ := h.step hnext
      obtain ⟨missing', hbalanced, hle, hiff⟩ := ih hmiddle hrest
      refine ⟨missing', hbalanced, ?_, ?_⟩
      · cases hlabel : s.complete label
        · exact (hmisses hlabel).le.trans hle
        · exact hcomplete hlabel ▸ hle
      · simp only [Along, hnext, Option.some.injEq, forall_eq']
        rw [hiff]
        cases hlabel : s.complete label
        · have := hmisses hlabel
          simp only [Bool.false_eq_true, false_and, false_iff]
          omega
        · rw [hcomplete hlabel]
          simp

/-- With no thread inside `schedule`, the tasks in the queue are those counted
and not popped, and the missing ones. -/
theorem Balanced.tasks_eq (h : s.Balanced missing) (hquiet : s.Quiet) :
    s.tasks = s.pendingCount + s.committed + missing := by
  have hsame : (((s.history.claimed .producer).map (·.2) : List ℕ) : Multiset ℕ) =
      (s.counted : Multiset ℕ) := by
    ext t
    rw [Multiset.coe_count, Multiset.coe_count, h.balance t, hquiet t]
    rfl
  have hlength : (s.history.claimed .producer).length = s.counted.length := by
    simpa using congrArg Multiset.card hsame
  have hcounts := h.counts
  unfold tasks
  omega

/-- In a state with no thread inside `schedule` the tasks are covered exactly if
every step so far was complete. -/
theorem covered_iff {maxPendingTasks : ℕ} {labels : List (TaskLabel T)} {final : ReactorTasks T}
    (hexec : exec ReactorTasks.step (initial maxPendingTasks) labels = some final)
    (hquiet : final.Quiet) :
    final.Covered ↔ Along ReactorTasks.step (fun s label => s.complete label = true)
      (initial maxPendingTasks) labels := by
  obtain ⟨missing, hbalanced, -, hiff⟩ := (balanced_initial maxPendingTasks).exec hexec
  have htasks := hbalanced.tasks_eq hquiet
  rw [hiff]
  unfold Covered
  omega

/-! ## A run that strands a task -/

/-- Threads that no label names do not move. -/
theorem exec_threads {threads : List ℕ} {labels : List (TaskLabel T)} {final : ReactorTasks T}
    (hlabels : ∀ label ∈ labels, label.named threads = true) (ht : t ∉ threads)
    (hexec : exec ReactorTasks.step s labels = some final) : final.threads t = s.threads t := by
  induction labels generalizing s with
  | nil =>
      cases hexec
      rfl
  | cons label rest ih =>
      obtain ⟨next, hnext, hrest⟩ := (exec_cons).mp hexec
      have hlabel := hlabels label List.mem_cons_self
      rw [ih (fun label hmem => hlabels label (List.mem_cons_of_mem _ hmem)) hrest]
      have hother {u : ℕ} (hu : u ∈ threads) : t ≠ u := fun heq => ht (heq ▸ hu)
      cases label with
      | schedule u task =>
          obtain ⟨-, rfl⟩ := step_schedule hnext
          exact Function.update_of_ne (hother (of_decide_eq_true hlabel)) ..
      | thread u spurious =>
          have hne := hother (of_decide_eq_true hlabel)
          have hnext : s.stepThread u spurious = some next := hnext
          unfold ReactorTasks.stepThread at hnext
          cases hthread : s.threads u <;> rw [hthread] at hnext
          case outside => cases hnext
          case push pc =>
            obtain ⟨result, -, rfl⟩ := Option.map_eq_some_iff.mp hnext
            exact Function.update_of_ne hne ..
          all_goals
            cases hnext
            exact Function.update_of_ne hne ..
      | reactor choice =>
          have hnext : s.stepReactor choice = some next := hnext
          unfold ReactorTasks.stepReactor at hnext
          cases hreactor : s.reactor <;> rw [hreactor] at hnext
          case pop toProcess pc =>
            obtain ⟨result, -, rfl⟩ := Option.map_eq_some_iff.mp hnext
            rfl
          case batch toProcess => cases toProcess <;> cases hnext <;> rfl
          case poll empty =>
            dsimp only at hnext
            split_ifs at hnext <;> cases hnext <;> rfl
          all_goals
            cases hnext
            rfl

theorem quiet_of_named {maxPendingTasks : ℕ} {threads : List ℕ} {labels : List (TaskLabel T)}
    {final : ReactorTasks T}
    (hexec : exec ReactorTasks.step (initial maxPendingTasks) labels = some final)
    (hlabels : labels.all (·.named threads) = true)
    (houtside : threads.all (fun t => (final.threads t).isOutside) = true) : final.Quiet := by
  intro t
  by_cases ht : t ∈ threads
  · have hthread := List.all_eq_true.mp houtside t ht
    cases hpc : final.threads t <;> rw [hpc] at hthread <;> first | rfl | cases hthread
  · exact exec_threads (List.all_eq_true.mp hlabels) ht hexec

end

/-- So many steps of one thread or of the reactor. -/
def threadSteps (t n : ℕ) : List (TaskLabel T) :=
  List.replicate n (.thread t false)

def reactorSteps (n : ℕ) : List (TaskLabel T) :=
  List.replicate n (.reactor false)

/-- A task is scheduled and popped. -/
def servedRun : List (TaskLabel ℕ) :=
  .schedule 1 10 :: threadSteps 1 9 ++ reactorSteps 9

theorem covered_iff_served :
    ∃ final : ReactorTasks ℕ, exec ReactorTasks.step (initial 2) servedRun = some final ∧
      final.Covered := by
  have hlast : ((exec ReactorTasks.step (initial 2) servedRun).any fun final =>
      [1].all fun t => (final.threads t).isOutside) = true := by
    decide +kernel
  cases hexec : exec ReactorTasks.step (initial 2) servedRun with
  | none =>
      rw [hexec] at hlast
      cases hlast
  | some final =>
      rw [hexec] at hlast
      have hquiet := quiet_of_named hexec (by decide +kernel) hlast
      exact ⟨final, rfl, (covered_iff hexec hquiet).mpr (by decide +kernel)⟩

/-- One thread has claimed the first slot and another one filled the second when
the reactor takes the counter. -/
def strandedRun : List (TaskLabel ℕ) :=
  .schedule 1 10 :: threadSteps 1 4 ++ .schedule 2 20 :: threadSteps 2 9 ++ reactorSteps 9 ++
    threadSteps 1 5

theorem strandedRun_strands :
    ∃ final : ReactorTasks ℕ, exec ReactorTasks.step (initial 2) strandedRun = some final ∧
      final.history.accepted = [(1, 20), (0, 10)] ∧ final.Quiet ∧ ¬ final.Covered := by
  have hlast : ((exec ReactorTasks.step (initial 2) strandedRun).any fun final =>
      ([1, 2].all fun t => (final.threads t).isOutside) ∧
        final.history.accepted = [(1, 20), (0, 10)] ∧
          ¬ final.tasks ≤ final.pendingCount + final.committed) = true := by
    decide +kernel
  cases hexec : exec ReactorTasks.step (initial 2) strandedRun with
  | none =>
      rw [hexec] at hlast
      cases hlast
  | some final =>
      rw [hexec] at hlast
      obtain ⟨houtside, haccepted, hstranded⟩ := of_decide_eq_true hlast
      have hquiet := quiet_of_named hexec (by decide +kernel) houtside
      exact ⟨final, rfl, haccepted, hquiet, hstranded⟩

end ReactorTasks

end Concurrent
end Katana
