import Katana.Library.Loop

/-!
# Text between separators

A list is trimmed of the elements with a property at both of its ends, and cut
into pieces at a separator.  No piece follows a separator at the very end.
-/

namespace Katana
namespace Library

variable {α : Type*}

section Trim

variable (p : α → Bool)

def trim (l : List α) : List α :=
  (l.dropWhile p).rdropWhile p

@[simp] theorem trim_nil : trim p [] = [] := by
  simp [trim]

theorem exists_trim (l : List α) :
    ∃ front back, l = front ++ trim p l ++ back ∧ (∀ a ∈ front, p a = true) ∧
      ∀ a ∈ back, p a = true := by
  refine ⟨l.takeWhile p, (l.dropWhile p).rtakeWhile p, ?_, ?_, ?_⟩
  · rw [trim, List.append_assoc, List.rdropWhile_append_rtakeWhile, List.takeWhile_append_dropWhile]
  · intro a ha
    exact List.mem_takeWhile_imp ha
  · intro a ha
    exact List.mem_rtakeWhile_imp ha

variable {p}

theorem rdropWhile_append {back : List α} (hback : ∀ a ∈ back, p a = true) (l : List α) :
    (l ++ back).rdropWhile p = l.rdropWhile p := by
  rw [List.rdropWhile, List.rdropWhile, List.reverse_append, List.dropWhile_append_of_pos]
  intro a ha
  exact hback a (List.mem_reverse.mp ha)

theorem trim_append_left {front : List α} (hfront : ∀ a ∈ front, p a = true) (l : List α) :
    trim p (front ++ l) = trim p l := by
  rw [trim, trim, List.dropWhile_append_of_pos hfront]

theorem trim_append_right {back : List α} (hback : ∀ a ∈ back, p a = true) (l : List α) :
    trim p (l ++ back) = trim p l := by
  rw [trim, trim, List.dropWhile_append]
  by_cases hempty : (l.dropWhile p).isEmpty = true
  · rw [if_pos hempty, List.isEmpty_iff.mp hempty, List.dropWhile_eq_nil_iff.mpr hback]
  · rw [if_neg hempty, rdropWhile_append hback]

/-- What a narrower trimming leaves is trimmed to the same. -/
theorem trim_trim {q : α → Bool} (hqp : ∀ a, q a = true → p a = true) (l : List α) :
    trim p (trim q l) = trim p l := by
  obtain ⟨front, back, hl, hfront, hback⟩ := exists_trim q l
  conv_rhs => rw [hl]
  rw [trim_append_right fun a ha => hqp a (hback a ha),
    trim_append_left fun a ha => hqp a (hfront a ha)]

/-- Cutting before or after trimming makes no difference to the trimmed text. -/
theorem trim_takeWhile {q : α → Bool} (hpq : ∀ a, p a = true → q a = true) (l : List α) :
    trim p ((trim p l).takeWhile q) = trim p (l.takeWhile q) := by
  obtain ⟨front, back, hl, hfront, hback⟩ := exists_trim p l
  have hkept : ∀ {part : List α}, (∀ a ∈ part, p a = true) → part.takeWhile q = part := by
    intro part hpart
    rw [List.takeWhile_eq_self_iff]
    intro a ha
    exact hpq a (hpart a ha)
  conv_rhs => rw [hl]
  rw [List.append_assoc, List.takeWhile_append_of_pos fun a ha => hpq a (hfront a ha),
    trim_append_left hfront, List.takeWhile_append]
  split
  · next hwhole =>
      rw [hkept hback, trim_append_right hback,
        (List.takeWhile_prefix q).eq_of_length hwhole]
  · rfl

end Trim

section Pieces

variable [DecidableEq α] (separator : α)

def pieces : List α → List (List α)
  | [] => []
  | a :: rest =>
      if a = separator then [] :: pieces rest
      else
        match pieces rest with
        | [] => [[a]]
        | piece :: more => (a :: piece) :: more

@[simp] theorem pieces_nil : pieces separator [] = [] := rfl

theorem pieces_of_ne_nil {l : List α} (hne : l ≠ []) :
    pieces separator l =
      l.takeWhile (· ≠ separator) :: pieces separator (l.dropWhile (· ≠ separator)).tail := by
  induction l with
  | nil => exact absurd rfl hne
  | cons a rest ih =>
      by_cases ha : a = separator
      · simp [pieces, ha]
      · cases rest with
        | nil => simp [pieces, ha]
        | cons b rest =>
            rw [pieces, if_neg ha, ih (List.cons_ne_nil b rest)]
            simp [ha]

theorem pieces_append_cons {l : List α} (hfree : ∀ a ∈ l, a ≠ separator) (rest : List α) :
    pieces separator (l ++ separator :: rest) = l :: pieces separator rest := by
  have hkeep : ∀ a ∈ l, decide (a ≠ separator) = true := fun a ha => decide_eq_true (hfree a ha)
  rw [pieces_of_ne_nil separator (List.append_ne_nil_of_right_ne_nil l (List.cons_ne_nil _ _)),
    List.takeWhile_append_of_pos hkeep, List.dropWhile_append_of_pos hkeep]
  simp

theorem pieces_singleton {l : List α} (hne : l ≠ []) (hfree : ∀ a ∈ l, a ≠ separator) :
    pieces separator l = [l] := by
  have hkeep : ∀ a ∈ l, decide (a ≠ separator) = true := fun a ha => decide_eq_true (hfree a ha)
  rw [pieces_of_ne_nil separator hne, List.takeWhile_eq_self_iff.mpr hkeep,
    List.dropWhile_eq_nil_iff.mpr hkeep, List.tail_nil, pieces_nil]

theorem length_behind_lt {l : List α} (hne : l ≠ []) :
    (l.dropWhile (· ≠ separator)).tail.length < l.length := by
  have hsuffix := (List.dropWhile_suffix (l := l) (· ≠ separator)).length_le
  have hpos := List.length_pos_iff.mpr hne
  rw [List.length_tail]
  omega

variable {ρ : Type*} {body : List α → Pass (List α) ρ} (test : List α → Option ρ) (default : ρ)

/-- A loop that takes one piece after another ends at the first one that passes
its test. -/
theorem endsWith_pieces (hnil : body [] = .done default)
    (hhit : ∀ l result, l ≠ [] → test (l.takeWhile (· ≠ separator)) = some result →
      body l = .done result)
    (hmiss : ∀ l, l ≠ [] → test (l.takeWhile (· ≠ separator)) = none →
      body l = .again (l.dropWhile (· ≠ separator)).tail ∨
        body l = .done default ∧ (l.dropWhile (· ≠ separator)).tail = [])
    (l : List α) : EndsWith body l (((pieces separator l).findSome? test).getD default) := by
  induction hlength : l.length using Nat.strong_induction_on generalizing l with
  | _ n ih =>
      cases l with
      | nil => exact .of_done hnil
      | cons a rest =>
          have hne := List.cons_ne_nil a rest
          rw [pieces_of_ne_nil separator hne]
          cases htest : test ((a :: rest).takeWhile (· ≠ separator)) with
          | some result =>
              rw [List.findSome?_cons, htest]
              exact .of_done (hhit _ _ hne htest)
          | none =>
              rw [List.findSome?_cons, htest]
              rcases hmiss _ hne htest with hagain | ⟨hdone, hlast⟩
              · have hshort := length_behind_lt separator hne
                rw [hlength] at hshort
                exact .of_passes (.head hagain (.refl _)) (ih _ hshort _ rfl)
              · rw [hlast]
                exact .of_done hdone

end Pieces

end Library
end Katana
