import Mathlib

/-!
# A ring with sequence numbers, read as a list

`capacity` cells hold a list of values at consecutive positions, each cell beside a
number that tells which position it serves and whether that position is full.  A position
`p` lives in the cell `p % capacity`; its number is `p` while it is free and `p + 1` once
it is full, both as words of the given size.  A value is stored in two steps, its
construction and the new number, and it is taken in two steps as well.
-/

namespace Katana
namespace Library

/-- The cells hold `contents` from position `base` on; the first `moved` values have been
moved out of cells whose numbers do not say so yet. -/
structure SequencedRing {T : Type*} (capacity size : ℕ) (sequence : ℕ → ℕ)
    (storage : ℕ → Option T) (base moved : ℕ) (contents : List T) : Prop where
  fits : contents.length ≤ capacity
  full : ∀ j < contents.length, sequence ((base + j) % capacity) = (base + j + 1) % size
  value : ∀ j v, moved ≤ j → contents[j]? = some v → storage ((base + j) % capacity) = some v
  free : ∀ j < capacity, contents.length ≤ j → sequence ((base + j) % capacity) = (base + j) % size

namespace SequencedRing

variable {T : Type*} {capacity size base moved : ℕ} {sequence : ℕ → ℕ}
variable {storage : ℕ → Option T} {contents : List T}

theorem initial (hcapacity : capacity ≤ size) :
    SequencedRing capacity size id (fun _ => none : ℕ → Option T) 0 0 [] where
  fits := Nat.zero_le _
  full := by simp
  value := by simp
  free := by
    intro j hj _
    rw [Nat.zero_add, id, Nat.mod_eq_of_lt hj, Nat.mod_eq_of_lt (hj.trans_le hcapacity)]

/-- Different positions of one round live in different cells. -/
theorem cell_ne {i j : ℕ} (hi : i < capacity) (hj : j < capacity) (hne : i ≠ j) :
    (base + i) % capacity ≠ (base + j) % capacity := by
  intro heq
  have hmod : i ≡ j [MOD capacity] := Nat.ModEq.add_left_cancel' base heq
  exact hne (hmod.eq_of_lt_of_lt hi hj)

/-- The cell behind the last value, or the one of the first value if there is no other. -/
theorem sequence_head (h : SequencedRing capacity size sequence storage base moved contents)
    (hpositive : 0 < capacity) :
    sequence ((base + contents.length) % capacity) =
      if contents.length < capacity then (base + contents.length) % size
      else (base + contents.length + 1 - capacity) % size := by
  split
  next hroom => exact h.free _ hroom le_rfl
  next hfull =>
    have hlength : contents.length = capacity := le_antisymm h.fits (not_lt.mp hfull)
    have hfirst := h.full 0 (hlength ▸ hpositive)
    rw [hlength, Nat.add_mod_right, Nat.add_right_comm, Nat.add_sub_cancel]
    exact hfirst

theorem sequence_tail (h : SequencedRing capacity size sequence storage base moved contents)
    (hpositive : 0 < capacity) :
    sequence (base % capacity) =
      if contents = [] then base % size else (base + 1) % size := by
  split
  next hempty =>
    apply h.free 0 hpositive
    rw [hempty]
    exact le_rfl
  next hstored => exact h.full 0 (List.length_pos_iff.mpr hstored)

/-- The first value, which nobody has moved out. -/
theorem storage_tail {v : T} {rest : List T}
    (h : SequencedRing capacity size sequence storage base 0 (v :: rest)) :
    storage (base % capacity) = some v :=
  h.value 0 v le_rfl rfl

theorem construct (h : SequencedRing capacity size sequence storage base moved contents)
    (hroom : contents.length < capacity) (cell : Option T) :
    SequencedRing capacity size sequence
      (Function.update storage ((base + contents.length) % capacity) cell) base moved
      contents where
  fits := h.fits
  full := h.full
  value := by
    intro j v hj hv
    have hlt : j < contents.length := (List.getElem?_eq_some_iff.mp hv).1
    rw [Function.update_of_ne (cell_ne (by omega) hroom (by omega))]
    exact h.value j v hj hv
  free := h.free

theorem publish {v : T} (h : SequencedRing capacity size sequence storage base moved contents)
    (hroom : contents.length < capacity)
    (hcell : storage ((base + contents.length) % capacity) = some v) :
    SequencedRing capacity size
      (Function.update sequence ((base + contents.length) % capacity)
        ((base + contents.length + 1) % size))
      storage base moved (contents ++ [v]) where
  fits := by
    rw [List.length_append]
    exact hroom
  full := by
    intro j hj
    rw [List.length_append, List.length_singleton] at hj
    by_cases hlast : j = contents.length
    · rw [hlast, Function.update_self]
    · rw [Function.update_of_ne (cell_ne (by omega) hroom hlast)]
      exact h.full j (by omega)
  value := by
    intro j w hj hw
    by_cases hlt : j < contents.length
    · rw [List.getElem?_append_left hlt] at hw
      exact h.value j w hj hw
    · have hlast : j = contents.length := by
        have := (List.getElem?_eq_some_iff.mp hw).1
        rw [List.length_append, List.length_singleton] at this
        omega
      rw [hlast, List.getElem?_append_right le_rfl, Nat.sub_self] at hw
      rw [hlast, hcell]
      exact hw
  free := by
    intro j hj hlength
    rw [List.length_append, List.length_singleton] at hlength
    rw [Function.update_of_ne (cell_ne hj hroom (by omega))]
    exact h.free j hj (by omega)

theorem moveOut {v : T} {rest : List T}
    (h : SequencedRing capacity size sequence storage base 0 (v :: rest)) (cell : Option T) :
    SequencedRing capacity size sequence
      (Function.update storage (base % capacity) cell) base 1 (v :: rest) where
  fits := h.fits
  full := h.full
  value := by
    intro j w hj hw
    have hlt : j < (v :: rest).length := (List.getElem?_eq_some_iff.mp hw).1
    have hne : (base + j) % capacity ≠ (base + 0) % capacity :=
      cell_ne (hlt.trans_le h.fits) (lt_of_lt_of_le (by simp) h.fits) (by omega)
    rw [Nat.add_zero] at hne
    rw [Function.update_of_ne hne]
    exact h.value j w (Nat.zero_le j) hw
  free := h.free

theorem release {v : T} {rest : List T}
    (h : SequencedRing capacity size sequence storage base moved (v :: rest))
    (hmoved : moved ≤ 1) :
    SequencedRing capacity size
      (Function.update sequence (base % capacity) ((base + capacity) % size))
      storage (base + 1) 0 rest := by
  have hfits : rest.length + 1 ≤ capacity := h.fits
  have hother {j : ℕ} (hj : j + 1 < capacity) :
      (base + 1 + j) % capacity ≠ base % capacity := by
    rw [Nat.add_assoc, Nat.add_comm 1 j]
    exact cell_ne hj (by omega) (Nat.succ_ne_zero j)
  constructor
  · omega
  · intro j hj
    rw [Function.update_of_ne (hother (by omega))]
    have hfull := h.full (j + 1) (Nat.succ_lt_succ hj)
    rwa [show base + (j + 1) = base + 1 + j by omega] at hfull
  · intro j w _ hw
    have hvalue := h.value (j + 1) w (by omega) hw
    rwa [show base + (j + 1) = base + 1 + j by omega] at hvalue
  · intro j hj hlength
    by_cases hlast : j + 1 = capacity
    · rw [show base + 1 + j = base + capacity by omega, Nat.add_mod_right, Function.update_self]
    · rw [Function.update_of_ne (hother (by omega))]
      have hfree := h.free (j + 1) (by omega) (Nat.succ_le_succ hlength)
      rwa [show base + (j + 1) = base + 1 + j by omega] at hfree

end SequencedRing

end Library
end Katana
