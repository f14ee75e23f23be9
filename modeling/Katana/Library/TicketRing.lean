import Mathlib

/-!
# Ticket rings

A ring of cells serves an unbounded sequence of positions: position `p` uses the
cell `p % capacity`.  A cell is free for its position, is being filled, is full,
is being drained, and is then free for the position one round later.  Positions
are claimed in order from two ends.  The cell carries a sequence number from
which a claimant can tell the stage, except that a number says nothing about
whether the position has been claimed already.
-/

namespace Katana
namespace Library

inductive Stage where
  | free | filling | full | draining
  deriving DecidableEq

structure Cell where
  position : ℕ
  stage : Stage

def Cell.sequence (c : Cell) : ℕ :=
  match c.stage with
  | .free | .filling => c.position
  | .full | .draining => c.position + 1

/-- Positions below `head` have been claimed to be filled, those below `tail` to
be drained; no position is claimed before its cell is free for it. -/
def Cell.Within (capacity head tail : ℕ) (c : Cell) : Prop :=
  match c.stage with
  | .free => head ≤ c.position ∧ c.position < tail + capacity
  | .filling | .full => tail ≤ c.position ∧ c.position < head ∧ head ≤ c.position + capacity
  | .draining => c.position < tail ∧ head ≤ c.position + capacity

structure TicketRing (capacity : ℕ) (cells : ℕ → Cell) (head tail : ℕ) : Prop where
  slot : ∀ i < capacity, (cells i).position % capacity = i
  order : tail ≤ head
  within : ∀ i < capacity, (cells i).Within capacity head tail

namespace TicketRing

variable {capacity : ℕ} {cells : ℕ → Cell} {head tail : ℕ}

theorem initial : TicketRing capacity (fun i => ⟨i, .free⟩) 0 0 where
  slot _ hi := Nat.mod_eq_of_lt hi
  order := le_rfl
  within i hi := ⟨Nat.zero_le i, by simpa using hi⟩

/-! ## Sequence numbers -/

theorem position_mod (h : TicketRing capacity cells head tail) (hcapacity : 2 ≤ capacity) (p : ℕ) :
    (cells (p % capacity)).position % capacity = p % capacity :=
  h.slot _ (Nat.mod_lt p (by omega))

/-- Positions one apart belong to different cells. -/
theorem position_ne_succ (h : TicketRing capacity cells head tail) (hcapacity : 2 ≤ capacity)
    (p : ℕ) : (cells (p % capacity)).position ≠ p + 1 := by
  intro heq
  have hmod := h.position_mod hcapacity p
  rw [heq] at hmod
  have hcongr : p ≡ p + 1 [MOD capacity] := hmod.symm
  have hdvd := (Nat.modEq_iff_dvd' (Nat.le_succ p)).mp hcongr
  have := Nat.le_of_dvd (by omega) hdvd
  omega

theorem succ_position_ne (h : TicketRing capacity cells head tail) (hcapacity : 2 ≤ capacity)
    (p : ℕ) : (cells (p % capacity)).position + 1 ≠ p := by
  intro heq
  have hmod := h.position_mod hcapacity p
  have hcongr : (cells (p % capacity)).position ≡ p [MOD capacity] := hmod
  have hdvd := (Nat.modEq_iff_dvd' (by omega)).mp hcongr
  have := Nat.le_of_dvd (by omega) hdvd
  omega

/-- The sequence number is the position itself exactly before it is filled. -/
theorem sequence_eq_iff (h : TicketRing capacity cells head tail) (hcapacity : 2 ≤ capacity)
    (p : ℕ) : (cells (p % capacity)).sequence = p ↔
      (cells (p % capacity)).position = p ∧
        ((cells (p % capacity)).stage = .free ∨ (cells (p % capacity)).stage = .filling) := by
  have hsucc := h.succ_position_ne hcapacity p
  unfold Cell.sequence
  cases (cells (p % capacity)).stage <;> simp [hsucc]

/-- The sequence number is one more exactly until it is drained. -/
theorem sequence_eq_succ_iff (h : TicketRing capacity cells head tail) (hcapacity : 2 ≤ capacity)
    (p : ℕ) : (cells (p % capacity)).sequence = p + 1 ↔
      (cells (p % capacity)).position = p ∧
        ((cells (p % capacity)).stage = .full ∨ (cells (p % capacity)).stage = .draining) := by
  have hsucc := h.position_ne_succ hcapacity p
  unfold Cell.sequence
  cases (cells (p % capacity)).stage <;> simp [hsucc]

theorem sequence_lt (h : TicketRing capacity cells head tail) {i : ℕ} (hi : i < capacity) :
    (cells i).sequence ≤ head ∨ (cells i).sequence < tail + capacity := by
  have hwithin := h.within i hi
  have horder := h.order
  unfold Cell.Within at hwithin
  unfold Cell.sequence
  cases hstage : (cells i).stage <;> simp only [hstage] at hwithin ⊢ <;> omega

/-! ## Claims and releases -/

/-- A position that is not passed and whose number is its own is free. -/
theorem free_of_le (h : TicketRing capacity cells head tail) (hcapacity : 2 ≤ capacity) {p : ℕ}
    (hle : head ≤ p) (hready : (cells (p % capacity)).sequence = p) :
    cells (p % capacity) = ⟨p, .free⟩ := by
  have hwithin := h.within (p % capacity) (Nat.mod_lt _ (by omega))
  have hsequence := (h.sequence_eq_iff hcapacity p).mp hready
  rcases hcell : cells (p % capacity) with ⟨position, stage⟩
  rw [hcell] at hwithin hsequence
  cases stage <;> simp [Cell.Within] at hwithin hsequence ⊢ <;> omega

/-- A position that is not passed and whose number is one more is full. -/
theorem full_of_le (h : TicketRing capacity cells head tail) (hcapacity : 2 ≤ capacity) {p : ℕ}
    (hle : tail ≤ p) (hready : (cells (p % capacity)).sequence = p + 1) :
    cells (p % capacity) = ⟨p, .full⟩ := by
  have hwithin := h.within (p % capacity) (Nat.mod_lt _ (by omega))
  have hsequence := (h.sequence_eq_succ_iff hcapacity p).mp hready
  rcases hcell : cells (p % capacity) with ⟨position, stage⟩
  rw [hcell] at hwithin hsequence
  cases stage <;> simp [Cell.Within] at hwithin hsequence ⊢ <;> omega

/-- The next position to be filled is free if its number says so. -/
theorem free_of_sequence (h : TicketRing capacity cells head tail) (hcapacity : 2 ≤ capacity)
    (hready : (cells (head % capacity)).sequence = head) :
    cells (head % capacity) = ⟨head, .free⟩ :=
  h.free_of_le hcapacity le_rfl hready

/-- The next position to be drained is full if its number says so. -/
theorem full_of_sequence (h : TicketRing capacity cells head tail) (hcapacity : 2 ≤ capacity)
    (hready : (cells (tail % capacity)).sequence = tail + 1) :
    cells (tail % capacity) = ⟨tail, .full⟩ :=
  h.full_of_le hcapacity le_rfl hready

/-- Another cell is at another position. -/
theorem position_ne (h : TicketRing capacity cells head tail) {i p : ℕ} (hi : i < capacity)
    (hne : i ≠ p % capacity) : (cells i).position ≠ p := by
  intro heq
  rw [← h.slot i hi, heq] at hne
  exact hne rfl

theorem window_ne (h : TicketRing capacity cells head tail) {i p : ℕ} (hi : i < capacity)
    (hne : i ≠ p % capacity) : (cells i).position + capacity ≠ p := by
  intro heq
  apply hne
  rw [← heq, Nat.add_mod_right]
  exact (h.slot i hi).symm

/-- One cell changes; a claim moves the end that it was at. -/
theorem replace (h : TicketRing capacity cells head tail) {p head' tail' : ℕ} {c : Cell}
    (hslot : c.position % capacity = p % capacity) (horder : tail' ≤ head')
    (hhead : head' = head ∨ head' = head + 1 ∧ p = head)
    (htail : tail' = tail ∨ tail' = tail + 1 ∧ p = tail)
    (hwithin : c.Within capacity head' tail') :
    TicketRing capacity (Function.update cells (p % capacity) c) head' tail' := by
  constructor
  · intro i hi
    by_cases heq : i = p % capacity
    · rw [heq, Function.update_self, hslot]
    · rw [Function.update_of_ne heq]
      exact h.slot i hi
  · exact horder
  · intro i hi
    by_cases heq : i = p % capacity
    · rw [heq, Function.update_self]
      exact hwithin
    · rw [Function.update_of_ne heq]
      have hother := h.within i hi
      have hposition := h.position_ne hi heq
      have hwindow := h.window_ne hi heq
      unfold Cell.Within at hother ⊢
      cases hstage : (cells i).stage <;> simp only [hstage] at hother ⊢ <;> omega

theorem claimHead (h : TicketRing capacity cells head tail) (hcapacity : 2 ≤ capacity) :
    TicketRing capacity (Function.update cells (head % capacity) ⟨head, .filling⟩) (head + 1)
      tail := by
  have horder := h.order
  have hwithin : (⟨head, .filling⟩ : Cell).Within capacity (head + 1) tail := by
    simp only [Cell.Within]
    omega
  exact h.replace (p := head) rfl (by omega) (.inr ⟨rfl, rfl⟩) (.inl rfl) hwithin

theorem publish (h : TicketRing capacity cells head tail) (hcapacity : 2 ≤ capacity) {p : ℕ}
    (hcell : cells (p % capacity) = ⟨p, .filling⟩) :
    TicketRing capacity (Function.update cells (p % capacity) ⟨p, .full⟩) head tail := by
  have hwithin := h.within (p % capacity) (Nat.mod_lt _ (by omega))
  rw [hcell] at hwithin
  exact h.replace rfl h.order (.inl rfl) (.inl rfl) hwithin

theorem claimTail (h : TicketRing capacity cells head tail) (hcapacity : 2 ≤ capacity)
    (hcell : cells (tail % capacity) = ⟨tail, .full⟩) :
    TicketRing capacity (Function.update cells (tail % capacity) ⟨tail, .draining⟩) head
      (tail + 1) := by
  have hwithin := h.within (tail % capacity) (Nat.mod_lt _ (by omega))
  rw [hcell] at hwithin
  simp only [Cell.Within] at hwithin
  have hwithin' : (⟨tail, .draining⟩ : Cell).Within capacity head (tail + 1) := by
    simp only [Cell.Within]
    omega
  exact h.replace (p := tail) rfl (by omega) (.inl rfl) (.inr ⟨rfl, rfl⟩) hwithin'

theorem release (h : TicketRing capacity cells head tail) (hcapacity : 2 ≤ capacity) {p : ℕ}
    (hcell : cells (p % capacity) = ⟨p, .draining⟩) :
    TicketRing capacity (Function.update cells (p % capacity) ⟨p + capacity, .free⟩) head
      tail := by
  have hwithin := h.within (p % capacity) (Nat.mod_lt _ (by omega))
  rw [hcell] at hwithin
  have hwithin' : (⟨p + capacity, .free⟩ : Cell).Within capacity head tail :=
    ⟨hwithin.2, Nat.add_lt_add_right hwithin.1 _⟩
  exact h.replace (Nat.add_mod_right ..) h.order (.inl rfl) (.inl rfl) hwithin'

/-- If the positions behind the cells are the released ones, at most a ring of
claimed positions is not released. -/
theorem claimed_le (h : TicketRing capacity cells head tail) (hcapacity : 2 ≤ capacity)
    {released : List ℕ}
    (hreleased : ∀ p < head, p < (cells (p % capacity)).position → p ∈ released) :
    (Finset.range head \ released.toFinset).card ≤ capacity := by
  have hinjective : Set.InjOn (· % capacity)
      ((Finset.range head \ released.toFinset : Finset ℕ) : Set ℕ) := by
    have hcurrent (p : ℕ) (hp : p ∈ Finset.range head \ released.toFinset) :
        (cells (p % capacity)).position = p := by
      simp only [Finset.mem_sdiff, Finset.mem_range, List.mem_toFinset] at hp
      have hle : (cells (p % capacity)).position ≤ p := by
        by_contra hlt
        exact hp.2 (hreleased p hp.1 (by omega))
      have hwithin := h.within (p % capacity) (Nat.mod_lt _ (by omega))
      have hlow : p < (cells (p % capacity)).position + capacity := by
        unfold Cell.Within at hwithin
        cases hstage : (cells (p % capacity)).stage <;> simp only [hstage] at hwithin <;> omega
      have hcongr : (cells (p % capacity)).position ≡ p [MOD capacity] :=
        h.position_mod hcapacity p
      by_contra hne
      have hdvd := (Nat.modEq_iff_dvd' hle).mp hcongr
      have := Nat.le_of_dvd (by omega) hdvd
      omega
    intro p hp q hq hpq
    have hpq' : p % capacity = q % capacity := hpq
    rw [← hcurrent p (Finset.mem_coe.mp hp), ← hcurrent q (Finset.mem_coe.mp hq), hpq']
  have hcard : (Finset.range head \ released.toFinset).card ≤ (Finset.range capacity).card := by
    apply Finset.card_le_card_of_injOn (· % capacity) _ hinjective
    intro p _
    exact Finset.mem_coe.mpr (Finset.mem_range.mpr (Nat.mod_lt _ (by omega)))
  rwa [Finset.card_range] at hcard

end TicketRing

end Library
end Katana
