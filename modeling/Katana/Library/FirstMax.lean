import Mathlib

/-!
# The first best element

A loop that keeps the best element so far, and replaces it only by a strictly
better one, ends with the first element of maximal score.
-/

namespace Katana
namespace Library

section FirstMax

variable {α β : Type*} [LinearOrder β]

/-- Nothing in front of `best` scores as high, and nothing behind it scores
higher. -/
def FirstMax (score : α → β) (xs : List α) (best : α) : Prop :=
  ∃ before after, xs = before ++ best :: after ∧
    (∀ x ∈ before, score x < score best) ∧ ∀ x ∈ after, score x ≤ score best

namespace FirstMax

variable {score : α → β} {xs : List α} {best x : α}

theorem singleton (score : α → β) (x : α) : FirstMax score [x] x :=
  ⟨[], [], rfl, by simp, by simp⟩

theorem mem (h : FirstMax score xs best) : best ∈ xs := by
  obtain ⟨before, after, rfl, -, -⟩ := h
  simp

theorem le (h : FirstMax score xs best) (hx : x ∈ xs) : score x ≤ score best := by
  obtain ⟨before, after, rfl, hbefore, hafter⟩ := h
  simp only [List.mem_append, List.mem_cons] at hx
  rcases hx with hx | rfl | hx
  · exact (hbefore x hx).le
  · exact le_rfl
  · exact hafter x hx

theorem replace (h : FirstMax score xs best) (hx : score best < score x) :
    FirstMax score (xs ++ [x]) x := by
  refine ⟨xs, [], rfl, ?_, by simp⟩
  intro y hy
  exact (h.le hy).trans_lt hx

theorem keep (h : FirstMax score xs best) (hx : score x ≤ score best) :
    FirstMax score (xs ++ [x]) best := by
  obtain ⟨before, after, rfl, hbefore, hafter⟩ := h
  refine ⟨before, after ++ [x], by simp, hbefore, ?_⟩
  intro y hy
  rcases List.mem_append.mp hy with hy | hy
  · exact hafter y hy
  · rw [List.mem_singleton.mp hy]
    exact hx

end FirstMax

end FirstMax

end Library
end Katana
