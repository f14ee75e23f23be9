import Katana.Http.ServerSteps
import Katana.Library.Transition

/-!
# No withheld responses

A connection that waits with unsent bytes must wait for the socket to become
writable.  The handler keeps this at every exit but one: when a batch of answers
has not been written and the next request is incomplete, a read that would block
leaves the watch at input and the batch unsent.
-/

namespace Katana
namespace Http

open Library

/-- A connection that waits with something unsent waits to write it. -/
def Exchange.Armed (s : Exchange) : Prop :=
  s.looping = false → s.connection.watch = true → s.connection.unsent ≠ [] →
    s.connection.watchEvents = .writable

/-- The step does not starve the connection while a batch is unsent. -/
def Exchange.KeepsFlushing (s : Exchange) : ServerLabel → Prop
  | .event _ => True
  | .pass env =>
      ¬ (s.looping = true ∧ s.connection.hasPendingResponse = true ∧ s.connection.Starves env)

structure Exchange.Delivering (s : Exchange) : Prop where
  going : s.looping = true → s.connection.Batching
  waiting : s.looping = false → s.connection.watch = true → s.connection.Ordered
  armed : s.Armed

namespace Exchange

open Connection

theorem delivering_initial : ({} : Exchange).Delivering where
  going := nofun
  waiting _ _ := by
    constructor
    · exact fun _ => rfl
    · exact fun _ => rfl
    · exact fun hne => (hne rfl).elim
    · nofun
    · exact fun _ => ⟨rfl, rfl, rfl⟩
  armed _ _ hne := (hne rfl).elim

theorem Delivering.of_handled {owed : List Byte} {close : Bool} {c : Connection} {looping : Bool}
    {answers : List Answer} (hhandled : Handled owed close (c, looping)) :
    ({ connection := c, looping, answers } : Exchange).Delivering := by
  cases hhandled with
  | going hbatching howing => exact ⟨fun _ => hbatching, nofun, nofun⟩
  | waiting howing harmed => exact ⟨nofun, fun _ _ => howing.ordered, fun _ _ => harmed⟩
  | gone hwatch hsocket =>
      have hnot {P : Prop} (hopen : c.watch = true) : P := by
        rw [hwatch] at hopen
        cases hopen
      exact ⟨nofun, fun _ hopen => hnot hopen, fun _ hopen => hnot hopen⟩

theorem Delivering.step {s next : Exchange} {label : ServerLabel} (hdelivering : s.Delivering)
    (hkeeps : s.KeepsFlushing label) (h : s.step label = some next) : next.Delivering := by
  cases label with
  | event writes =>
      unfold Exchange.step at h
      dsimp only at h
      split at h
      · cases h
      next hidle =>
        rw [Bool.or_eq_true, not_or, Bool.not_eq_true, Bool.not_eq_true, Bool.not_eq_false'] at hidle
        rw [Option.map_eq_some_iff] at h
        obtain ⟨result, hhandle, hsame⟩ := h
        cases hsame
        have hordered := hdelivering.waiting hidle.1 hidle.2
        exact .of_handled (handleEvent_spec ⟨hidle.2, rfl, hordered, rfl⟩ hhandle)
  | pass env =>
      unfold Exchange.step at h
      dsimp only at h
      split at h
      next hlooping =>
        rw [Option.map_eq_some_iff] at h
        obtain ⟨outcome, hiterate, hsame⟩ := h
        cases hsame
        have hbatching := hdelivering.going hlooping
        cases iterate_spec hbatching hiterate with
        | answered hanswer hhandled => exact .of_handled hhandled
        | read p => exact ⟨fun _ => hbatching.setParser p, nofun, nofun⟩
        | starved hstarves p =>
            have hnone : s.connection.hasPendingResponse = false := by
              by_contra hpending
              rw [Bool.not_eq_false] at hpending
              exact hkeeps ⟨hlooping, hpending, hstarves⟩
            exact .of_handled ((hbatching.setParser p).owing.readable hnone)
        | closed p => exact ⟨nofun, fun _ => nofun, fun _ => nofun⟩
      · cases h

/-- A starved pass with a batch unsent leaves the connection badly armed. -/
theorem Delivering.withheld {s : Exchange} {label : ServerLabel} (hdelivering : s.Delivering)
    (hnot : ¬ s.KeepsFlushing label) : ∃ next, s.step label = some next ∧ ¬ next.Armed := by
  cases label with
  | event writes => exact (hnot trivial).elim
  | pass env =>
      obtain ⟨hlooping, hpending, hstarves⟩ := not_not.mp hnot
      obtain ⟨p, hiterate⟩ := hstarves.iterate
      unfold Exchange.step
      dsimp only
      rw [if_pos hlooping, hiterate]
      refine ⟨_, rfl, fun harmed => ?_⟩
      have hbatching := (hdelivering.going hlooping).setParser p
      have hunsent : (setWatchEvents .readable { s.connection with httpParser := p }).unsent ≠ [] := by
        rw [setWatchEvents_eq]
        exact List.append_ne_nil_of_left_ne_nil (hasPendingResponse_eq_true.mp hpending) _
      have hwatch : (setWatchEvents .readable { s.connection with httpParser := p }).watch = true := by
        rw [setWatchEvents_eq]
        exact hbatching.watch
      have hwritable := harmed rfl hwatch hunsent
      rw [setWatchEvents_watchEvents hbatching.watch] at hwritable
      cases hwritable

/-- Over every run, no response is withheld exactly if no read of the run would
block while a batch of answers is unsent. -/
theorem always_armed (labels : List ServerLabel) :
    Always step Armed {} labels ↔ Along step KeepsFlushing {} labels :=
  always_iff_along (fun _ _ _ => Delivering.step) (fun _ => Delivering.armed)
    (fun _ _ => Delivering.withheld) labels delivering_initial

/-- A whole request and the first byte of the next one. -/
def withheldRun : List ServerLabel :=
  [.event [],
    .pass ⟨.received (bytesOf "GET / HTTP/1.1" ++ CRLF ++ CRLF ++ bytesOf "G"), {}, []⟩,
    .pass ⟨.wouldBlock, {}, []⟩,
    .pass ⟨.wouldBlock, {}, []⟩]

instance (s : Exchange) : Decidable s.Armed :=
  inferInstanceAs (Decidable (_ → _ → _ → _))

theorem withheldRun_withholds :
    ∃ final, exec step {} withheldRun = some final ∧ ¬ final.Armed := by
  have hlast : ((exec step {} withheldRun).any fun final => ¬ final.Armed) = true := by
    decide +kernel
  cases hexec : exec step {} withheldRun with
  | none =>
      rw [hexec] at hlast
      cases hlast
  | some final =>
      rw [hexec] at hlast
      exact ⟨final, rfl, of_decide_eq_true hlast⟩

end Exchange

end Http
end Katana
