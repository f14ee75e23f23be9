import Mathlib

/-!
# The least cost

A loop that computes a cost for every element and keeps the least one so far.  The
cost of an element may be undefined, and then the loop has no result.
-/

namespace Katana
namespace Library

variable {α β : Type*} [LinearOrder β]

def leastCost (cost : α → Option β) (start : β) (xs : List α) : Option β :=
  xs.foldlM (fun best x => (cost x).map fun c => if c < best then c else best) start

theorem leastCost_cons (cost : α → Option β) (start : β) (x : α) (xs : List α) :
    leastCost cost start (x :: xs) =
      (cost x).bind fun c => leastCost cost (if c < start then c else start) xs := by
  unfold leastCost
  rw [List.foldlM_cons]
  cases cost x <;> rfl

/-- The result is the least of all costs and of what the loop has started from. -/
theorem leastCost_eq_some_iff {cost : α → Option β} {start result : β} {xs : List α} :
    leastCost cost start xs = some result ↔
      (∀ x ∈ xs, ∃ c, cost x = some c ∧ result ≤ c) ∧ result ≤ start ∧
        (result = start ∨ ∃ x ∈ xs, cost x = some result) := by
  induction xs generalizing start with
  | nil =>
      have hnil : leastCost cost start [] = some start := rfl
      rw [hnil]
      constructor
      · intro h
        cases h
        exact ⟨by simp, le_rfl, .inl rfl⟩
      · rintro ⟨-, -, rfl | ⟨x, hx, -⟩⟩
        · rfl
        · cases hx
  | cons x xs ih =>
      rw [leastCost_cons]
      cases hcost : cost x with
      | none => simp [hcost]
      | some c =>
          rw [Option.bind_some, ih]
          simp only [List.forall_mem_cons, List.exists_mem_cons_iff, hcost, Option.some.injEq,
            exists_eq_left']
          split
          next hlt =>
            constructor
            · rintro ⟨hall, hle, hwhich⟩
              exact ⟨⟨hle, hall⟩, hle.trans hlt.le, .inr (hwhich.imp Eq.symm id)⟩
            · rintro ⟨⟨hle, hall⟩, -, hstart | hwhich⟩
              · exact absurd hlt (hstart ▸ hle).not_gt
              · exact ⟨hall, hle, hwhich.imp Eq.symm id⟩
          next hge =>
            have hcle := not_lt.mp hge
            constructor
            · rintro ⟨hall, hle, hwhich⟩
              exact ⟨⟨hle.trans hcle, hall⟩, hle, hwhich.imp_right .inr⟩
            · rintro ⟨⟨hle, hall⟩, hstart, hwhich⟩
              refine ⟨hall, hstart, ?_⟩
              rcases hwhich with hfirst | hhead | hrest
              · exact .inl hfirst
              · exact .inl (le_antisymm hstart (hhead ▸ hcle))
              · exact .inr hrest

end Library
end Katana
