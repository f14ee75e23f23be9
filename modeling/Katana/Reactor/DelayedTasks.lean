import Katana.Library.Transition

/-!
# Delayed tasks

`schedule_after` computes a deadline and pushes the task into a queue that any
thread may push to; `process_timers` moves the queue into a heap and runs what is
due, the earliest deadline first.  Of the queue only this is used: positions are
claimed in order, and the task in front can be taken once it has been published.
A push that is refused changes nothing and is no step.  Tasks run with the reactor
in the middle of its pass; they may schedule others and may throw.  Times are
nanoseconds, and no deadline leaves the range of the clock.
-/

namespace Katana
namespace Reactor

open Library

inductive ReactorKind where
  | epoll | ioUring
  deriving DecidableEq

/-- An accepted task, with its number. -/
structure TimerEntry where
  id : ℕ
  deadline : ℤ
  deriving DecidableEq

/-- A position of `pending_timers_` that has been claimed. -/
structure PendingTimer where
  entry : TimerEntry
  published : Bool
  deriving DecidableEq

/-- Where `process_timers` stands.  `epoll_reactor` has read the clock before it
begins, `io_uring_reactor` reads it after it has found the queue empty. -/
inductive TimerPhase where
  | outside
  | draining (now : Option ℕ)
  | drained
  | running (now : ℕ)
  deriving DecidableEq

/-- A task that has been run, and when. -/
structure RanTask where
  entry : TimerEntry
  time : ℕ
  deriving DecidableEq

structure DelayedTasks where
  kind : ReactorKind
  clock : ℕ := 0
  pendingTimers : List PendingTimer := []
  timers : List TimerEntry := []
  phase : TimerPhase := .outside
  /-- The tasks accepted so far, in the order of their positions. -/
  accepted : List TimerEntry := []
  ran : List RanTask := []
  /-- The time of the last finished pass. -/
  lastNow : ℕ := 0
  /-- How many tasks had been accepted when the queue was last drained, and what it
  held back. -/
  drainedAt : ℕ := 0
  heldBack : List PendingTimer := []

inductive DelayedLabel where
  | wait (time : ℕ)
  | scheduleAfter (calledAt : ℕ) (delay : ℤ)
  | publish (id : ℕ)
  | processTimers (loopNow : ℕ)
  | popPending
  | drained
  | readClock
  | runTask (id : ℕ)
  | finished

namespace DelayedTasks

/-- `timers_.top()` may be this task: none has an earlier deadline. -/
def isTop (s : DelayedTasks) (entry : TimerEntry) : Bool :=
  s.timers.all fun other => entry.deadline ≤ other.deadline

def step (s : DelayedTasks) : DelayedLabel → Option DelayedTasks
  | .wait time => if s.clock ≤ time then some { s with clock := time } else none
  | .scheduleAfter calledAt delay =>
      if calledAt ≤ s.clock then
        let entry : TimerEntry := ⟨s.accepted.length, calledAt + delay * 1000000⟩
        some { s with
          pendingTimers := s.pendingTimers ++ [⟨entry, false⟩]
          accepted := s.accepted ++ [entry] }
      else none
  | .publish id =>
      some { s with
        pendingTimers := s.pendingTimers.map fun timer =>
          if timer.entry.id = id then { timer with published := true } else timer }
  | .processTimers loopNow =>
      if s.phase = .outside then
        match s.kind with
        | .epoll =>
            if loopNow ≤ s.clock then some { s with phase := .draining (some loopNow) } else none
        | .ioUring => some { s with phase := .draining none }
      else none
  | .popPending =>
      match s.phase, s.pendingTimers with
      | .draining _, ⟨entry, true⟩ :: rest =>
          some { s with pendingTimers := rest, timers := s.timers ++ [entry] }
      | _, _ => none
  | .drained =>
      match s.phase with
      | .draining now =>
          if s.pendingTimers.head?.any (·.published) then none
          else some { s with
            phase := now.elim .drained .running
            drainedAt := s.accepted.length, heldBack := s.pendingTimers }
      | _ => none
  | .readClock =>
      match s.phase with
      | .drained => some { s with phase := .running s.clock }
      | _ => none
  | .runTask id =>
      match s.phase, s.timers.find? (·.id = id) with
      | .running now, some entry =>
          if s.isTop entry && entry.deadline ≤ now then
            some { s with timers := s.timers.erase entry, ran := s.ran ++ [⟨entry, s.clock⟩] }
          else none
      | _, _ => none
  | .finished =>
      match s.phase with
      | .running now =>
          if s.timers.any (·.deadline ≤ now) then none
          else some { s with phase := .outside, lastNow := now }
      | _ => none

def initial (kind : ReactorKind) : DelayedTasks :=
  { kind := kind }

/-- Invariant of the runs: the tasks taken out of the queue are the first ones, and
those that wait in the heap outside a pass are not due. -/
structure Ordered (s : DelayedTasks) : Prop where
  numbered : s.accepted.map (·.id) = List.range s.accepted.length
  taken : ∃ taken, s.accepted = taken ++ s.pendingTimers.map (·.entry) ∧
    (s.timers ++ s.ran.map (·.entry)).Perm taken
  began : ∀ now, s.phase = .draining (some now) → now ≤ s.clock
  behind : ∀ now, s.phase = .running now → now ≤ s.clock
  neverEarly : ∀ task ∈ s.ran, task.entry.deadline ≤ task.time
  inOrder : ∀ before task after, s.ran = before ++ task :: after → ∀ entry ∈ s.accepted,
    entry.id < task.entry.id → entry.deadline < task.entry.deadline →
      entry ∈ before.map (·.entry)
  unpublished : ∀ timer ∈ s.heldBack.head?, timer.published = false
  counted : s.drainedAt ≤ s.accepted.length
  drained : ∀ entry ∈ s.accepted, entry.id < s.drainedAt → entry ∉ s.heldBack.map (·.entry) →
    entry ∉ s.pendingTimers.map (·.entry)
  rested : s.phase = .outside → ∀ entry ∈ s.timers, s.lastNow < entry.deadline

variable {s next : DelayedTasks}

theorem Ordered.id_lt (h : s.Ordered) {entry : TimerEntry} (hentry : entry ∈ s.accepted) :
    entry.id < s.accepted.length := by
  have hmem : entry.id ∈ s.accepted.map (·.id) := List.mem_map_of_mem hentry
  rw [h.numbered, List.mem_range] at hmem
  exact hmem

/-- Later tasks have larger numbers. -/
theorem Ordered.increasing (h : s.Ordered) : s.accepted.Pairwise fun a b => a.id < b.id := by
  have hrange : (List.range s.accepted.length).Pairwise (· < ·) := List.pairwise_lt_range
  rw [← h.numbered, List.pairwise_map] at hrange
  exact hrange

theorem Ordered.ran_mem (h : s.Ordered) {task : RanTask} (htask : task ∈ s.ran) :
    task.entry ∈ s.accepted := by
  obtain ⟨taken, hsplit, hperm⟩ := h.taken
  rw [hsplit]
  apply List.mem_append_left
  rw [← hperm.mem_iff]
  exact List.mem_append_right _ (List.mem_map_of_mem htask)

/-- A task behind which a later one has been taken is not in the queue any more. -/
theorem Ordered.mem_of_lt (h : s.Ordered) {entry other : TimerEntry} (hentry : entry ∈ s.accepted)
    (hother : other ∈ s.timers) (hlt : entry.id < other.id) :
    entry ∈ s.timers ∨ entry ∈ s.ran.map (·.entry) := by
  obtain ⟨taken, hsplit, hperm⟩ := h.taken
  have hincreasing := h.increasing
  rw [hsplit, List.pairwise_append] at hincreasing
  rw [hsplit, List.mem_append] at hentry
  rw [← List.mem_append, hperm.mem_iff]
  rcases hentry with htaken | hpending
  · exact htaken
  · have hbefore : other ∈ taken := by
      rw [← hperm.mem_iff]
      exact List.mem_append_left _ hother
    have hgt := hincreasing.2.2 other hbefore entry hpending
    omega

theorem Ordered.scheduleAfter (h : s.Ordered) (entry : TimerEntry)
    (hid : entry.id = s.accepted.length) :
    ({ s with
        pendingTimers := s.pendingTimers ++ [⟨entry, false⟩]
        accepted := s.accepted ++ [entry] } : DelayedTasks).Ordered where
  numbered := by
    rw [List.map_append, h.numbered, List.length_append, List.map_singleton, hid,
      List.length_singleton, List.range_succ]
  taken := by
    obtain ⟨taken, hsplit, hperm⟩ := h.taken
    apply Exists.intro taken
    constructor
    · rw [hsplit, List.map_append, List.map_singleton, List.append_assoc]
    · exact hperm
  began := h.began
  behind := h.behind
  neverEarly := h.neverEarly
  inOrder := by
    intro before task after hran other hother hlt hdeadline
    rcases List.mem_append.mp hother with hold | hnew
    · exact h.inOrder before task after hran other hold hlt hdeadline
    · -- no task with a larger number has been run
      have htask : task ∈ s.ran := by
        rw [hran]
        exact List.mem_append_right _ (List.mem_cons_self ..)
      have hbound := h.id_lt (h.ran_mem htask)
      rw [List.mem_singleton.mp hnew, hid] at hlt
      omega
  unpublished := h.unpublished
  counted := by
    have hcounted := h.counted
    rw [List.length_append]
    exact hcounted.trans (Nat.le_add_right _ _)
  drained := by
    intro other hother hlt hheld
    have hcounted := h.counted
    dsimp only at hlt
    rw [List.map_append, List.map_singleton, List.mem_append, List.mem_singleton, not_or]
    rcases List.mem_append.mp hother with hold | hnew
    · constructor
      · exact h.drained other hold hlt hheld
      · rintro rfl
        omega
    · rw [List.mem_singleton.mp hnew, hid] at hlt
      omega
  rested := h.rested

/-- The task that is run has none before it that it should have waited for. -/
theorem Ordered.runTask (h : s.Ordered) {entry : TimerEntry} {now : ℕ}
    (hphase : s.phase = .running now) (hentry : entry ∈ s.timers) (htop : s.isTop entry = true)
    (hdue : entry.deadline ≤ now) :
    ({ s with
        timers := s.timers.erase entry
        ran := s.ran ++ [⟨entry, s.clock⟩] } : DelayedTasks).Ordered where
  numbered := h.numbered
  taken := by
    obtain ⟨taken, hsplit, hperm⟩ := h.taken
    apply Exists.intro taken
    constructor
    · exact hsplit
    · have hfront := (List.perm_cons_erase hentry).append_right (s.ran.map (·.entry))
      rw [List.map_append, List.map_singleton]
      calc s.timers.erase entry ++ (s.ran.map (·.entry) ++ [entry])
        _ = s.timers.erase entry ++ s.ran.map (·.entry) ++ [entry] := by rw [List.append_assoc]
        _ |>.Perm (entry :: (s.timers.erase entry ++ s.ran.map (·.entry))) :=
          List.perm_append_singleton ..
        _ |>.Perm taken := hfront.symm.trans hperm
  began := h.began
  behind := h.behind
  neverEarly := by
    intro task htask
    rcases List.mem_append.mp htask with hold | hnew
    · exact h.neverEarly task hold
    · have hclock := h.behind now hphase
      rw [List.mem_singleton.mp hnew]
      dsimp only
      omega
  inOrder := by
    intro before task after hran other hother hlt hdeadline
    rcases List.eq_nil_or_concat after with rfl | ⟨front, last, rfl⟩
    · obtain ⟨hbefore, hlast⟩ := List.append_inj' hran rfl
      cases hlast
      dsimp only at hlt hdeadline
      rw [← hbefore]
      rcases h.mem_of_lt hother hentry hlt with htimers | hdone
      · have hle := List.all_eq_true.mp htop other htimers
        rw [decide_eq_true_iff] at hle
        omega
      · exact hdone
    · rw [List.concat_eq_append, ← List.cons_append, ← List.append_assoc] at hran
      obtain ⟨hbefore, -⟩ := List.append_inj' hran rfl
      exact h.inOrder before task front hbefore other hother hlt hdeadline
  unpublished := h.unpublished
  counted := h.counted
  drained := h.drained
  rested hidle := by
    dsimp only at hidle
    rw [hphase] at hidle
    cases hidle

theorem Ordered.step {label : DelayedLabel} (h : s.Ordered) (hstep : s.step label = some next) :
    next.Ordered := by
  cases label with
  | wait time =>
      unfold DelayedTasks.step at hstep
      dsimp only at hstep
      split at hstep
      next hlater =>
        cases hstep
        exact { h with
          began := fun now hnow => (h.began now hnow).trans hlater
          behind := fun now hnow => (h.behind now hnow).trans hlater }
      · cases hstep
  | scheduleAfter calledAt delay =>
      unfold DelayedTasks.step at hstep
      dsimp only at hstep
      split at hstep
      · cases hstep
        exact h.scheduleAfter _ rfl
      · cases hstep
  | publish id =>
      cases hstep
      have hsame : (s.pendingTimers.map fun timer =>
          if timer.entry.id = id then { timer with published := true } else timer).map (·.entry) =
            s.pendingTimers.map (·.entry) := by
        rw [List.map_map]
        apply List.map_congr_left
        intro timer _
        dsimp only [Function.comp]
        split
        · rfl
        · rfl
      exact { h with
        taken := by
          dsimp only
          rw [hsame]
          exact h.taken
        drained := by
          dsimp only
          rw [hsame]
          exact h.drained }
  | processTimers loopNow =>
      unfold DelayedTasks.step at hstep
      dsimp only at hstep
      split at hstep
      · split at hstep
        · split at hstep
          next hread =>
            cases hstep
            exact { h with
              began := by
                intro now hnow
                cases hnow
                exact hread
              behind := nofun
              rested := nofun }
          · cases hstep
        · cases hstep
          exact { h with began := nofun, behind := nofun, rested := nofun }
      · cases hstep
  | popPending =>
      unfold DelayedTasks.step at hstep
      dsimp only at hstep
      split at hstep
      next entry rest hphase hpending =>
        cases hstep
        exact { h with
          taken := by
            obtain ⟨taken, hsplit, hperm⟩ := h.taken
            apply Exists.intro (taken ++ [entry])
            rw [hpending, List.map_cons] at hsplit
            constructor
            · rw [hsplit, List.append_assoc, List.singleton_append]
            · calc s.timers ++ [entry] ++ s.ran.map (·.entry)
                _ |>.Perm (s.timers ++ s.ran.map (·.entry) ++ [entry]) := by
                  rw [List.append_assoc, List.append_assoc]
                  exact List.perm_append_comm.append_left s.timers
                _ |>.Perm (taken ++ [entry]) := hperm.append_right [entry]
          drained := by
            intro other hother hlt hheld hmem
            apply h.drained other hother hlt hheld
            rw [hpending, List.map_cons]
            exact List.mem_cons_of_mem _ hmem
          rested := by
            intro hidle
            dsimp only at hidle
            rw [hphase] at hidle
            cases hidle }
      · cases hstep
  | drained =>
      unfold DelayedTasks.step at hstep
      dsimp only at hstep
      split at hstep
      next now hphase =>
        split at hstep
        · cases hstep
        next hfront =>
          cases hstep
          exact { h with
            began := by
              intro read hread
              cases now with
              | none => cases hread
              | some now => cases hread
            behind := by
              intro read hread
              cases now with
              | none => cases hread
              | some now =>
                  cases hread
                  exact h.began read hphase
            unpublished := by
              intro timer htimer
              rw [Option.mem_def.mp htimer, Option.any_some, Bool.not_eq_true] at hfront
              exact hfront
            counted := le_rfl
            drained := fun _ _ _ hheld => hheld
            rested := by
              intro hidle
              cases now with
              | none => cases hidle
              | some now => cases hidle }
      · cases hstep
  | readClock =>
      unfold DelayedTasks.step at hstep
      dsimp only at hstep
      split at hstep
      · cases hstep
        exact { h with
          began := nofun
          behind := by
            intro read hread
            cases hread
            exact le_rfl
          rested := nofun }
      · cases hstep
  | runTask id =>
      unfold DelayedTasks.step at hstep
      dsimp only at hstep
      split at hstep
      next now entry hphase hfind =>
        split at hstep
        next htop =>
          rw [Bool.and_eq_true, decide_eq_true_iff] at htop
          cases hstep
          exact h.runTask hphase (List.mem_of_find?_eq_some hfind) htop.1 htop.2
        · cases hstep
      · cases hstep
  | finished =>
      unfold DelayedTasks.step at hstep
      dsimp only at hstep
      split at hstep
      next now hphase =>
        split at hstep
        · cases hstep
        next hnone =>
          cases hstep
          exact { h with
            began := nofun
            behind := nofun
            rested := by
              intro _ entry hentry
              rw [Bool.not_eq_true, List.any_eq_false] at hnone
              have hlater := hnone entry hentry
              rw [decide_eq_true_iff] at hlater
              exact Int.not_le.mp hlater }
      · cases hstep

/-- Two tasks of which the later one is due first; the first of them to run
schedules a third. -/
def overtakingRun : List DelayedLabel :=
  [.wait 10000000, .scheduleAfter 10000000 5, .scheduleAfter 9000000 3, .publish 1, .publish 0,
    .wait 20000000, .processTimers 20000000, .popPending, .popPending, .drained, .runTask 1,
    .scheduleAfter 20000000 (-1), .publish 2, .runTask 0, .finished]

end DelayedTasks

end Reactor
end Katana
