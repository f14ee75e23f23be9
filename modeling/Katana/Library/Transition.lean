import Mathlib

/-!
# Executions of a labelled system

A system is a step function that says, for a state and a label, what the next
state is, or that the label is not enabled.  The label carries every choice of
the environment: which thread moves, what a system call returns.  An execution
is a list of labels.  The two induction rules below turn a fact about one step
into a fact about executions: what every step preserves, and what the steps
that meet a side condition preserve.
-/

namespace Katana
namespace Library

section Transition

variable {σ α : Type*} (step : σ → α → Option σ)

/-- State after a list of labels, if each of them was enabled. -/
def exec : σ → List α → Option σ
  | s, [] => some s
  | s, a :: rest =>
      match step s a with
      | none => none
      | some next => exec next rest

/-- Every step of the execution meets `Condition` in the state before it. -/
def Along (Condition : σ → α → Prop) : σ → List α → Prop
  | _, [] => True
  | s, a :: rest =>
      Condition s a ∧ ∀ next, step s a = some next → Along Condition next rest

/-- Every state of the execution satisfies `Good`, the first one included. -/
def Always (Good : σ → Prop) : σ → List α → Prop
  | s, [] => Good s
  | s, a :: rest => Good s ∧ ∀ next, step s a = some next → Always Good next rest

variable {step}

/-- Side conditions that can be decided can be decided along an execution. -/
instance decidableAlong {Condition : σ → α → Prop} [∀ s a, Decidable (Condition s a)] :
    ∀ s labels, Decidable (Along step Condition s labels)
  | _, [] => .isTrue trivial
  | s, a :: rest =>
      match h : step s a with
      | none => decidable_of_iff (Condition s a) (by simp [Along, h])
      | some next =>
          have : Decidable (Along step Condition next rest) := decidableAlong next rest
          decidable_of_iff (Condition s a ∧ Along step Condition next rest)
            (by simp [Along, h])

theorem exec_cons {s final : σ} {a : α} {rest : List α} :
    exec step s (a :: rest) = some final ↔
      ∃ next, step s a = some next ∧ exec step next rest = some final := by
  rw [exec]
  cases step s a <;> simp

theorem exec_append {s final : σ} {first rest : List α} :
    exec step s (first ++ rest) = some final ↔
      ∃ middle, exec step s first = some middle ∧
        exec step middle rest = some final := by
  induction first generalizing s with
  | nil => simp [exec]
  | cons a first ih =>
      simp only [List.cons_append, exec_cons, ih]
      constructor
      · rintro ⟨next, hstep, middle, hfirst, hrest⟩
        exact ⟨middle, ⟨next, hstep, hfirst⟩, hrest⟩
      · rintro ⟨middle, ⟨next, hstep, hfirst⟩, hrest⟩
        exact ⟨next, hstep, middle, hfirst, hrest⟩

/-- An invariant of the steps that meet the condition holds at the end of every
execution whose steps all meet it. -/
theorem exec_invariant_along {Condition : σ → α → Prop} {Good : σ → Prop}
    (hstep : ∀ s a next, Good s → Condition s a → step s a = some next → Good next)
    {s final : σ} {labels : List α} (hgood : Good s)
    (hcondition : Along step Condition s labels)
    (hexec : exec step s labels = some final) : Good final := by
  induction labels generalizing s with
  | nil =>
      simp only [exec, Option.some.injEq] at hexec
      rwa [← hexec]
  | cons a rest ih =>
      obtain ⟨next, hnext, hrest⟩ := (exec_cons).mp hexec
      exact ih (hstep s a next hgood hcondition.1 hnext) (hcondition.2 next hnext) hrest

theorem exec_invariant {Good : σ → Prop}
    (hstep : ∀ s a next, Good s → step s a = some next → Good next)
    {s final : σ} {labels : List α} (hgood : Good s)
    (hexec : exec step s labels = some final) : Good final := by
  induction labels generalizing s with
  | nil =>
      simp only [exec, Option.some.injEq] at hexec
      rwa [← hexec]
  | cons a rest ih =>
      obtain ⟨next, hnext, hrest⟩ := (exec_cons).mp hexec
      exact ih (hstep s a next hgood hnext) hrest

/-- An invariant of an execution that takes one and the same step again and again. -/
theorem exec_replicate_invariant {Good : σ → Prop} {a : α}
    (hstep : ∀ s next, Good s → step s a = some next → Good next)
    {s final : σ} {n : ℕ} (hgood : Good s)
    (hexec : exec step s (List.replicate n a) = some final) : Good final := by
  induction n generalizing s with
  | zero =>
      cases hexec
      exact hgood
  | succ n ih =>
      rw [List.replicate_succ, exec_cons] at hexec
      obtain ⟨next, hnext, hrest⟩ := hexec
      exact ih (hstep s next hgood hnext) hrest

theorem exec_range_succ {labels : ℕ → α} {s final : σ} {n : ℕ} :
    exec step s ((List.range (n + 1)).map labels) = some final ↔
      ∃ next, step s (labels 0) = some next ∧
        exec step next ((List.range n).map fun i => labels (i + 1)) = some final := by
  rw [List.range_succ_eq_map, List.map_cons, List.map_map, exec_cons]
  rfl

/-- If from some label on every label lowers the rank of a state that is not finished,
the execution finishes.  The labels before may raise the rank. -/
theorem exec_finishes {Good Finished : σ → Prop} {Moves : α → Prop} (rank : σ → ℕ)
    (hstep : ∀ s a, Good s → ¬ Finished s → ∃ next, step s a = some next ∧ Good next ∧
      (Moves a → rank next < rank s))
    {labels : ℕ → α} {first : ℕ} (hmoves : ∀ n, first ≤ n → Moves (labels n))
    {s : σ} (hgood : Good s) :
    ∃ n final, exec step s ((List.range n).map labels) = some final ∧ Finished final := by
  induction first generalizing s labels with
  | zero =>
      induction hrank : rank s using Nat.strong_induction_on generalizing s labels with
      | _ r ih =>
          by_cases hfinished : Finished s
          · exact ⟨0, s, rfl, hfinished⟩
          rcases hstep s (labels 0) hgood hfinished with ⟨next, hnext, hgood', hlower⟩
          have hless : rank next < r := hrank ▸ hlower (hmoves 0 (Nat.zero_le 0))
          have hmoves' : ∀ n, 0 ≤ n → Moves (labels (n + 1)) :=
            fun n _ => hmoves (n + 1) (Nat.zero_le _)
          rcases ih (rank next) hless hmoves' hgood' rfl with ⟨n, final, hfinal, hend⟩
          exact ⟨n + 1, final, exec_range_succ.mpr ⟨next, hnext, hfinal⟩, hend⟩
  | succ first ih =>
      by_cases hfinished : Finished s
      · exact ⟨0, s, rfl, hfinished⟩
      rcases hstep s (labels 0) hgood hfinished with ⟨next, hnext, hgood', -⟩
      have hmoves' : ∀ n, first ≤ n → Moves (labels (n + 1)) :=
        fun n hn => hmoves (n + 1) (Nat.succ_le_succ hn)
      rcases ih hmoves' hgood' with ⟨n, final, hfinal, hend⟩
      exact ⟨n + 1, final, exec_range_succ.mpr ⟨next, hnext, hfinal⟩, hend⟩

/-- Forward simulation by a total system: if every step that meets the condition is
enabled and keeps the relation, then so is the whole execution. -/
theorem exec_simulates {τ : Type*} {Condition : σ → α → Prop} {Related : σ → τ → Prop}
    (next : τ → α → τ)
    (hstep : ∀ s t a, Related s t → Condition s a →
      ∃ s', step s a = some s' ∧ Related s' (next t a))
    {s : σ} (t : τ) {labels : List α} (hrelated : Related s t)
    (hcondition : Along step Condition s labels) :
    ∃ final, exec step s labels = some final ∧ Related final (labels.foldl next t) := by
  induction labels generalizing s t with
  | nil => exact ⟨s, rfl, hrelated⟩
  | cons a rest ih =>
      obtain ⟨s', hs', hrelated'⟩ := hstep s t a hrelated hcondition.1
      obtain ⟨final, hfinal, hend⟩ := ih (next t a) hrelated' (hcondition.2 s' hs')
      exact ⟨final, (exec_cons).mpr ⟨s', hs', hfinal⟩, hend⟩

theorem exec_progress {Condition : σ → α → Prop} {Good : σ → Prop}
    (hstep : ∀ s a, Good s → Condition s a → ∃ s', step s a = some s' ∧ Good s')
    {s : σ} {labels : List α} (hgood : Good s) (hcondition : Along step Condition s labels) :
    ∃ final, exec step s labels = some final ∧ Good final := by
  have hsimulates : ∀ s (_ : Unit) a, Good s → Condition s a →
      ∃ s', step s a = some s' ∧ Good s' := fun s _ a => hstep s a
  exact exec_simulates (fun _ _ => ()) hsimulates () hgood hcondition

theorem Always.start {Good : σ → Prop} {s : σ} {labels : List α}
    (h : Always step Good s labels) : Good s := by
  cases labels with
  | nil => exact h
  | cons a rest => exact h.1

/-- If the steps that meet the condition keep an invariant and do what is expected of
them, and every other step does not or breaks what is wanted, then all is well along
an execution exactly when every step meets the condition. -/
theorem always_and_along_iff {Condition Expected : σ → α → Prop} {Invariant Good : σ → Prop}
    (hkeep : ∀ s a next, Invariant s → Condition s a → step s a = some next → Invariant next)
    (hgood : ∀ s, Invariant s → Good s)
    (hexpected : ∀ s a, Invariant s → Condition s a → Expected s a)
    (hbreak : ∀ s a, Invariant s → ¬ Condition s a → Expected s a →
      ∃ next, step s a = some next ∧ ¬ Good next)
    {s : σ} (labels : List α) (hinvariant : Invariant s) :
    (Always step Good s labels ∧ Along step Expected s labels) ↔
      Along step Condition s labels := by
  induction labels generalizing s with
  | nil =>
      constructor
      · exact fun _ => trivial
      · exact fun _ => ⟨hgood s hinvariant, trivial⟩
  | cons a rest ih =>
      constructor
      · rintro ⟨⟨-, hrest⟩, hdone, hrest'⟩
        have hcondition : Condition s a := by
          by_contra hnot
          obtain ⟨next, hnext, hbad⟩ := hbreak s a hinvariant hnot hdone
          exact hbad (hrest next hnext).start
        refine ⟨hcondition, fun next hnext => ?_⟩
        have hinvariant' := hkeep s a next hinvariant hcondition hnext
        exact (ih hinvariant').mp ⟨hrest next hnext, hrest' next hnext⟩
      · rintro ⟨hcondition, hrest⟩
        have hboth : ∀ next, step s a = some next →
            Always step Good next rest ∧ Along step Expected next rest := by
          intro next hnext
          exact (ih (hkeep s a next hinvariant hcondition hnext)).mpr (hrest next hnext)
        refine ⟨⟨hgood s hinvariant, fun next hnext => (hboth next hnext).1⟩, ?_⟩
        exact ⟨hexpected s a hinvariant hcondition, fun next hnext => (hboth next hnext).2⟩

theorem along_of_forall {Condition : σ → α → Prop} (h : ∀ s a, Condition s a) (s : σ)
    (labels : List α) : Along step Condition s labels := by
  induction labels generalizing s with
  | nil => trivial
  | cons a rest ih => exact ⟨h s a, fun next _ => ih next⟩

/-- The same where nothing more is expected of a step. -/
theorem always_iff_along {Condition : σ → α → Prop} {Invariant Good : σ → Prop}
    (hkeep : ∀ s a next, Invariant s → Condition s a → step s a = some next → Invariant next)
    (hgood : ∀ s, Invariant s → Good s)
    (hbreak : ∀ s a, Invariant s → ¬ Condition s a → ∃ next, step s a = some next ∧ ¬ Good next)
    {s : σ} (labels : List α) (hinvariant : Invariant s) :
    Always step Good s labels ↔ Along step Condition s labels := by
  have hnothing : ∀ s a, Invariant s → Condition s a → (fun _ _ => True : σ → α → Prop) s a :=
    fun _ _ _ _ => trivial
  have hboth := always_and_along_iff hkeep hgood
    hnothing (fun s a hs ha _ => hbreak s a hs ha) labels hinvariant
  rw [← hboth]
  exact (and_iff_left (along_of_forall (fun _ _ => trivial) s labels)).symm

/-- Side conditions that agree under an invariant of every step agree along an
execution. -/
theorem along_congr {Condition Condition' : σ → α → Prop} {Invariant : σ → Prop}
    (hkeep : ∀ s a next, Invariant s → step s a = some next → Invariant next)
    (hcongr : ∀ s a, Invariant s → (Condition s a ↔ Condition' s a))
    {s : σ} (labels : List α) (hinvariant : Invariant s) :
    Along step Condition s labels ↔ Along step Condition' s labels := by
  induction labels generalizing s with
  | nil => exact Iff.rfl
  | cons a rest ih =>
      apply and_congr (hcongr s a hinvariant)
      apply forall_congr'
      intro next
      apply imp_congr_right
      intro hnext
      exact ih (hkeep s a next hinvariant hnext)

/-- If what is expected of a step is what the condition says, as long as the condition has
held, then it is so along an execution. -/
theorem along_iff_along {Given Condition Expected : σ → α → Prop} {Invariant : σ → Prop}
    (hkeep : ∀ s a next, Invariant s → Given s a → Condition s a → step s a = some next →
      Invariant next)
    (hiff : ∀ s a, Invariant s → Given s a → (Expected s a ↔ Condition s a))
    {s : σ} {labels : List α} (hinvariant : Invariant s) (hgiven : Along step Given s labels) :
    Along step Expected s labels ↔ Along step Condition s labels := by
  induction labels generalizing s with
  | nil => exact Iff.rfl
  | cons a rest ih =>
      simp only [Along]
      rw [hiff s a hinvariant hgiven.1]
      apply and_congr_right
      intro hcondition
      apply forall_congr'
      intro next
      apply imp_congr_right
      intro hnext
      exact ih (hkeep s a next hinvariant hgiven.1 hcondition hnext) (hgiven.2 next hnext)

/-- What holds at a step under an invariant and the condition of the steps. -/
theorem Along.of_invariant {Condition Expected : σ → α → Prop} {Invariant : σ → Prop}
    {s : σ} {labels : List α} (h : Along step Condition s labels)
    (hkeep : ∀ s a next, Invariant s → Condition s a → step s a = some next → Invariant next)
    (hexpected : ∀ s a, Invariant s → Condition s a → Expected s a) (hinvariant : Invariant s) :
    Along step Expected s labels := by
  induction labels generalizing s with
  | nil => trivial
  | cons a rest ih =>
      refine ⟨hexpected s a hinvariant h.1, fun next hnext => ?_⟩
      exact ih (h.2 next hnext) (hkeep s a next hinvariant h.1 hnext)

theorem Along.last {Condition : σ → α → Prop} {s middle : σ} {first rest : List α} {a : α}
    (h : Along step Condition s (first ++ a :: rest))
    (hexec : exec step s first = some middle) : Condition middle a := by
  induction first generalizing s with
  | nil =>
      simp only [exec, Option.some.injEq] at hexec
      rw [← hexec]
      exact h.1
  | cons b first ih =>
      obtain ⟨next, hnext, hrest⟩ := (exec_cons).mp hexec
      exact ih (h.2 next hnext) hrest

end Transition

end Library
end Katana
