import Mathlib

/-!
# Loops with a decreasing measure

A `while` loop is one pass function: a pass either goes round again from a new
state or ends the loop with a result.  When every further pass lowers a natural
number, running the loop with that number as fuel computes its result, and the
result is characterised by the chain of passes that leads to it.
-/

namespace Katana
namespace Library

/-- Outcome of one pass over a loop body. -/
inductive Pass (σ ρ : Type*) where
  | again (next : σ)
  | done (result : ρ)

section Loop

variable {σ ρ : Type*}

def runLoop (body : σ → Pass σ ρ) : ℕ → σ → Option ρ
  | 0, _ => none
  | fuel + 1, s =>
      match body s with
      | .again next => runLoop body fuel next
      | .done result => some result

/-- The loop goes round from the first state to the second. -/
def Passes (body : σ → Pass σ ρ) : σ → σ → Prop :=
  Relation.ReflTransGen (fun s next => body s = .again next)

/-- The loop started in `s` ends with `result`. -/
def EndsWith (body : σ → Pass σ ρ) (s : σ) (result : ρ) : Prop :=
  ∃ last, Passes body s last ∧ body last = .done result

def Decreases (body : σ → Pass σ ρ) (measure : σ → ℕ) : Prop :=
  ∀ s next, body s = .again next → measure next < measure s

variable {body : σ → Pass σ ρ} {measure : σ → ℕ}

theorem Passes.refl (s : σ) : Passes body s s :=
  Relation.ReflTransGen.refl

theorem Passes.head {s next last : σ} (hpass : body s = .again next)
    (hrest : Passes body next last) : Passes body s last :=
  Relation.ReflTransGen.head hpass hrest

theorem Passes.trans {s middle last : σ} (hfirst : Passes body s middle)
    (hrest : Passes body middle last) : Passes body s last :=
  Relation.ReflTransGen.trans hfirst hrest

/-- What one pass preserves holds wherever the loop goes round to. -/
theorem Passes.invariant {Good : σ → Prop}
    (hpass : ∀ s next, Good s → body s = .again next → Good next)
    {s last : σ} (hgood : Good s) (hpasses : Passes body s last) : Good last := by
  induction hpasses with
  | refl => exact hgood
  | tail _ hlast ih => exact hpass _ _ ih hlast

theorem EndsWith.of_passes {s middle : σ} {result : ρ}
    (hpasses : Passes body s middle) (hend : EndsWith body middle result) :
    EndsWith body s result := by
  obtain ⟨last, hmiddle, hdone⟩ := hend
  exact ⟨last, hpasses.trans hmiddle, hdone⟩

theorem EndsWith.of_done {s : σ} {result : ρ} (hdone : body s = .done result) :
    EndsWith body s result :=
  ⟨s, .refl s, hdone⟩

theorem runLoop_of_endsWith (hdec : Decreases body measure) {s : σ} {result : ρ}
    (hend : EndsWith body s result) {fuel : ℕ} (hfuel : measure s < fuel) :
    runLoop body fuel s = some result := by
  obtain ⟨last, hpasses, hdone⟩ := hend
  induction hpasses using Relation.ReflTransGen.head_induction_on generalizing fuel with
  | refl =>
      cases fuel with
      | zero => omega
      | succ fuel => simp [runLoop, hdone]
  | @head s next hpass _ ih =>
      cases fuel with
      | zero => omega
      | succ fuel =>
          have hlower := hdec s next hpass
          simp only [runLoop, hpass]
          exact ih (by omega)

/-- A loop with a decreasing measure ends. -/
theorem exists_endsWith (hdec : Decreases body measure) (s : σ) :
    ∃ result, EndsWith body s result := by
  induction hrank : measure s using Nat.strong_induction_on generalizing s with
  | _ rank ih =>
      cases hbody : body s with
      | done result => exact ⟨result, .of_done hbody⟩
      | again next =>
          have hlower := hdec s next hbody
          obtain ⟨result, hend⟩ := ih (measure next) (by omega) next rfl
          exact ⟨result, .of_passes (.head hbody (.refl next)) hend⟩

/-- Result of a loop with a decreasing measure; `fallback` is never used. -/
def evalLoop (body : σ → Pass σ ρ) (measure : σ → ℕ) (fallback : σ → ρ) (s : σ) : ρ :=
  (runLoop body (measure s + 1) s).getD (fallback s)

theorem evalLoop_eq (hdec : Decreases body measure) {fallback : σ → ρ} {s : σ}
    {result : ρ} (hend : EndsWith body s result) :
    evalLoop body measure fallback s = result := by
  unfold evalLoop
  rw [runLoop_of_endsWith hdec hend (Nat.lt_succ_self _)]
  rfl

theorem evalLoop_endsWith (hdec : Decreases body measure) (fallback : σ → ρ) (s : σ) :
    EndsWith body s (evalLoop body measure fallback s) := by
  obtain ⟨result, hend⟩ := exists_endsWith hdec s
  rwa [evalLoop_eq hdec hend]

/-- A simulation carries the passes of one loop over to another. -/
theorem Passes.simulate {τ κ : Type*} {other : τ → Pass τ κ} {Related : σ → τ → Prop}
    (hpass : ∀ s t next, Related s t → body s = .again next →
      ∃ next', other t = .again next' ∧ Related next next')
    {s last : σ} {t : τ} (hrelated : Related s t) (hpasses : Passes body s last) :
    ∃ last', Passes other t last' ∧ Related last last' := by
  induction hpasses with
  | refl => exact ⟨t, .refl t, hrelated⟩
  | tail _ hlast ih =>
      obtain ⟨middle, hmiddle, hrel⟩ := ih
      obtain ⟨next', hstep, hnext⟩ := hpass _ _ _ hrel hlast
      exact ⟨next', hmiddle.trans (.head hstep (.refl next')), hnext⟩

end Loop

end Library
end Katana
