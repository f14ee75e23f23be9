import Mathlib

/-!
# Runs

A run changes a state on its way to a result.  Loops are given a number of passes; a run
that has not come to its end when they are used up has no result, but the state that it
has come to.  So the states for all numbers of passes are those of a run without end.
-/

namespace Katana
namespace Library

def Run (σ α : Type) : Type :=
  σ → Option α × σ

namespace Run

variable {σ τ α β : Type}

instance : Monad (Run σ) where
  pure a := fun s => (some a, s)
  bind m f := fun s =>
    match m s with
    | (none, s) => (none, s)
    | (some a, s) => f a s

/-- The passes are used up. -/
def unfinished : Run σ α :=
  fun s => (none, s)

/-- A value that is read off the state, and the next state. -/
def step (f : σ → α × σ) : Run σ α :=
  fun s => (some (f s).1, (f s).2)

def read (f : σ → α) : Run σ α :=
  step fun s => (f s, s)

def change (f : σ → σ) : Run σ Unit :=
  step fun s => ((), f s)

/-- The run for every element of a list. -/
def each (m : α → Run σ Unit) : List α → Run σ Unit
  | [] => pure ()
  | a :: rest => do
      m a
      each m rest

theorem bind_none {m : Run σ α} {f : α → Run σ β} {s s' : σ} (h : m s = (none, s')) :
    (m >>= f) s = (none, s') := by
  change (match m s with
    | (none, s) => (none, s)
    | (some a, s) => f a s) = _
  rw [h]

theorem bind_some {m : Run σ α} {f : α → Run σ β} {s s' : σ} {a : α} (h : m s = (some a, s')) :
    (m >>= f) s = f a s' := by
  change (match m s with
    | (none, s) => (none, s)
    | (some a, s) => f a s) = _
  rw [h]

/-- What has come to its result has done so step by step. -/
theorem exists_of_bind {m : Run σ α} {f : α → Run σ β} {s s'' : σ} {b : β}
    (h : (m >>= f) s = (some b, s'')) : ∃ a s', m s = (some a, s') ∧ f a s' = (some b, s'') := by
  rcases hrun : m s with ⟨a | a, s'⟩
  · rw [bind_none hrun] at h
    cases h
  · rw [bind_some hrun] at h
    exact ⟨a, s', rfl, h⟩

@[simp] theorem pure_apply (a : α) (s : σ) : (pure a : Run σ α) s = (some a, s) :=
  rfl

/-! ## Results -/

/-- Every result of the run has the property. -/
def Yields (m : Run σ α) (Q : α → Prop) : Prop :=
  ∀ s a, (m s).1 = some a → Q a

section Yields

variable {Q : α → Prop} {m : Run σ α}

theorem Yields.of_pure {a : α} (h : Q a) : Yields (pure a : Run σ α) Q := by
  intro s a' ha
  cases ha
  exact h

theorem Yields.unfinished : Yields (unfinished : Run σ α) Q := by
  intro s a ha
  cases ha

theorem Yields.bind {P : β → Prop} {m : Run σ β} {f : β → Run σ α} (hm : Yields m P)
    (hf : ∀ b, P b → Yields (f b) Q) : Yields (m >>= f) Q := by
  intro s a ha
  rcases hrun : m s with ⟨b | b, s'⟩
  · rw [bind_none hrun] at ha
    cases ha
  · rw [bind_some hrun] at ha
    exact hf b (hm s b (by rw [hrun])) s' a ha

theorem Yields.trivial (m : Run σ α) : Yields m fun _ => True :=
  fun _ _ _ => True.intro

/-- Nothing is known of the first result. -/
theorem Yields.after {m : Run σ β} {f : β → Run σ α} (hf : ∀ b, Yields (f b) Q) :
    Yields (m >>= f) Q :=
  (Yields.trivial m).bind fun b _ => hf b

theorem Yields.ite {c : Prop} [Decidable c] {m m' : Run σ α} (hm : c → Yields m Q)
    (hm' : ¬ c → Yields m' Q) : Yields (if c then m else m') Q := by
  split
  · exact hm ‹_›
  · exact hm' ‹_›

theorem Yields.mono {Q' : α → Prop} (hm : Yields m Q) (himp : ∀ a, Q a → Q' a) :
    Yields m Q' :=
  fun s a ha => himp a (hm s a ha)

end Yields

/-! ## Invariants with a level -/

/-- From a level not below `n` on the run keeps the invariant, at a level that does not
fall, and its results have the property of the level that is reached. -/
def Upholds {ι : Type} [Preorder ι] (I : ι → σ → Prop) (n : ι) (m : Run σ α) (Q : ι → α → Prop) :
    Prop :=
  ∀ k s, n ≤ k → I k s → ∃ k', k ≤ k' ∧ I k' (m s).2 ∧ ∀ a, (m s).1 = some a → Q k' a

section Upholds

variable {ι : Type} [Preorder ι] {I : ι → σ → Prop} {n n' : ι} {Q : ι → α → Prop} {m : Run σ α}

theorem Upholds.of_pure {a : α} (h : ∀ k, n ≤ k → Q k a) : Upholds I n (pure a : Run σ α) Q := by
  intro k s hk hI
  refine ⟨k, le_rfl, hI, ?_⟩
  intro a' ha
  cases ha
  exact h k hk

theorem Upholds.unfinished : Upholds I n (unfinished : Run σ α) Q := by
  intro k s _ hI
  refine ⟨k, le_rfl, hI, ?_⟩
  intro a ha
  cases ha

theorem Upholds.bind {P : ι → β → Prop} {m : Run σ β} {f : β → Run σ α} (hm : Upholds I n m P)
    (hf : ∀ k b, n ≤ k → P k b → Upholds I k (f b) Q) : Upholds I n (m >>= f) Q := by
  intro k s hk hI
  rcases hm k s hk hI with ⟨k', hle, hI', hP⟩
  rcases hrun : m s with ⟨b | b, s'⟩
  · rw [bind_none hrun]
    rw [hrun] at hI'
    refine ⟨k', hle, hI', ?_⟩
    intro a ha
    cases ha
  · rw [bind_some hrun]
    rw [hrun] at hI' hP
    rcases hf k' b (hk.trans hle) (hP b rfl) k' s' le_rfl hI' with ⟨k'', hle', hI'', hQ⟩
    exact ⟨k'', hle.trans hle', hI'', hQ⟩

theorem Upholds.mono {Q' : ι → α → Prop} (hm : Upholds I n m Q) (himp : ∀ k a, Q k a → Q' k a) :
    Upholds I n m Q' := by
  intro k s hk hI
  rcases hm k s hk hI with ⟨k', hle, hI', hQ⟩
  exact ⟨k', hle, hI', fun a ha => himp k' a (hQ a ha)⟩

theorem Upholds.raise (hm : Upholds I n m Q) (h : n ≤ n') : Upholds I n' m Q :=
  fun k s hk hI => hm k s (h.trans hk) hI

theorem Upholds.ite {c : Prop} [Decidable c] {m m' : Run σ α} (hm : c → Upholds I n m Q)
    (hm' : ¬ c → Upholds I n m' Q) : Upholds I n (if c then m else m') Q := by
  split
  · exact hm ‹_›
  · exact hm' ‹_›

theorem Upholds.step {f : σ → α × σ}
    (h : ∀ k s, n ≤ k → I k s → ∃ k', k ≤ k' ∧ I k' (f s).2 ∧ Q k' (f s).1) :
    Upholds I n (Run.step f) Q := by
  intro k s hk hI
  rcases h k s hk hI with ⟨k', hle, hI', hQ⟩
  refine ⟨k', hle, hI', ?_⟩
  intro a ha
  cases ha
  exact hQ

/-- A run for every element of a list that keeps the invariant. -/
theorem Upholds.each {m : α → Run σ Unit} {as : List α}
    (h : ∀ a ∈ as, ∀ k, n ≤ k → Upholds I k (m a) fun _ _ => True) :
    Upholds I n (Run.each m as) fun _ _ => True := by
  induction as generalizing n with
  | nil => exact Upholds.of_pure fun _ _ => True.intro
  | cons a as ih =>
      refine (h a List.mem_cons_self n le_rfl).bind fun k _ hk _ => ?_
      exact ih fun b hb k' hk' => h b (List.mem_cons_of_mem _ hb) k' (hk.trans hk')

end Upholds

/-! ## Runs that end -/

/-- From a level not below `n` on the run comes to its end, and keeps what `Upholds` says. -/
def Attains {ι : Type} [Preorder ι] (I : ι → σ → Prop) (n : ι) (m : Run σ α) (Q : ι → α → Prop) :
    Prop :=
  ∀ k s, n ≤ k → I k s → ∃ k' a s', k ≤ k' ∧ m s = (some a, s') ∧ I k' s' ∧ Q k' a

section Attains

variable {ι : Type} [Preorder ι] {I : ι → σ → Prop} {n n' : ι} {Q : ι → α → Prop} {m : Run σ α}

theorem Attains.of_pure {a : α} (h : ∀ k, n ≤ k → Q k a) : Attains I n (pure a : Run σ α) Q :=
  fun k s hk hI => ⟨k, a, s, le_rfl, rfl, hI, h k hk⟩

theorem Attains.bind {P : ι → β → Prop} {m : Run σ β} {f : β → Run σ α} (hm : Attains I n m P)
    (hf : ∀ k b, n ≤ k → P k b → Attains I k (f b) Q) : Attains I n (m >>= f) Q := by
  intro k s hk hI
  rcases hm k s hk hI with ⟨k', b, s', hle, hrun, hI', hP⟩
  rcases hf k' b (hk.trans hle) hP k' s' le_rfl hI' with ⟨k'', a, s'', hle', hrun', hI'', hQ⟩
  refine ⟨k'', a, s'', hle.trans hle', ?_, hI'', hQ⟩
  rw [bind_some hrun]
  exact hrun'

theorem Attains.step {f : σ → α × σ}
    (h : ∀ k s, n ≤ k → I k s → ∃ k', k ≤ k' ∧ I k' (f s).2 ∧ Q k' (f s).1) :
    Attains I n (Run.step f) Q := by
  intro k s hk hI
  rcases h k s hk hI with ⟨k', hle, hI', hQ⟩
  exact ⟨k', (f s).1, (f s).2, hle, rfl, hI', hQ⟩

theorem Attains.ite {c : Prop} [Decidable c] {m m' : Run σ α} (hm : c → Attains I n m Q)
    (hm' : ¬ c → Attains I n m' Q) : Attains I n (if c then m else m') Q := by
  split
  · exact hm ‹_›
  · exact hm' ‹_›

/-- A run for every element of a list that ends. -/
theorem Attains.each {m : α → Run σ Unit} {as : List α}
    (h : ∀ a ∈ as, ∀ k, n ≤ k → Attains I k (m a) fun _ _ => True) :
    Attains I n (Run.each m as) fun _ _ => True := by
  induction as generalizing n with
  | nil => exact Attains.of_pure fun _ _ => True.intro
  | cons a as ih =>
      refine (h a List.mem_cons_self n le_rfl).bind fun k _ hk _ => ?_
      exact ih fun b hb k' hk' => h b (List.mem_cons_of_mem _ hb) k' (hk.trans hk')

end Attains

/-! ## Two runs side by side -/

/-- From related states the runs come to the same result and to related states. -/
def Agree (R : σ → τ → Prop) (m : Run σ α) (m' : Run τ α) : Prop :=
  ∀ s t, R s t → (m s).1 = (m' t).1 ∧ R (m s).2 (m' t).2

section Agree

variable {R : σ → τ → Prop}

theorem Agree.pure (a : α) : Agree R (Pure.pure a : Run σ α) (Pure.pure a) :=
  fun _ _ h => ⟨rfl, h⟩

theorem Agree.unfinished : Agree R (unfinished : Run σ α) unfinished :=
  fun _ _ h => ⟨rfl, h⟩

theorem Agree.bind {m : Run σ α} {m' : Run τ α} {f : α → Run σ β} {f' : α → Run τ β}
    (hm : Agree R m m') (hf : ∀ a, Agree R (f a) (f' a)) : Agree R (m >>= f) (m' >>= f') := by
  intro s t h
  have hfirst := hm s t h
  rcases hrun : m s with ⟨a | a, s'⟩
  all_goals
    rcases hrun' : m' t with ⟨a' | a', t'⟩
    all_goals
      rw [hrun, hrun'] at hfirst
      rcases hfirst with ⟨heq, hrel⟩
  · rw [bind_none hrun, bind_none hrun']
    exact ⟨rfl, hrel⟩
  · cases heq
  · cases heq
  · cases heq
    rw [bind_some hrun, bind_some hrun']
    exact hf a s' t' hrel

theorem Agree.ite {c : Prop} [Decidable c] {m n : Run σ α} {m' n' : Run τ α}
    (hm : Agree R m m') (hn : Agree R n n') :
    Agree R (if c then m else n) (if c then m' else n') := by
  split
  · exact hm
  · exact hn

end Agree

end Run

end Library
end Katana
