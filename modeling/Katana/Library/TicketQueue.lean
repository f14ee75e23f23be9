import Katana.Library.TicketRing

/-!
# Queues over a ticket ring

Agents claim positions of a ticket ring at either end, move a value into or out
of the cell, and hand the cell over.  A claim carries the value to be put in, or
none if a value is to be taken out.  Between the three steps other agents may do
anything.  The queue keeps a record of what was stored and taken at which
position; soundness says that the record is that of a queue.
-/

namespace Katana
namespace Library

structure Claim (T : Type*) where
  value : Option T
  position : ℕ
  moved : Bool

structure TicketQueue (T : Type*) where
  cells : ℕ → Cell
  head : ℕ
  tail : ℕ
  storage : ℕ → Option T
  claims : ℕ → Option (Claim T)
  stored : List (ℕ × T)
  taken : List (ℕ × Option T)
  released : List ℕ
  overwritten : Bool

namespace TicketQueue

variable {T : Type*} {capacity : ℕ}

def empty : TicketQueue T where
  cells i := ⟨i, .free⟩
  head := 0
  tail := 0
  storage _ := none
  claims _ := none
  stored := []
  taken := []
  released := []
  overwritten := false

/-- Agent `t` claims the next position to be filled. -/
def claimHead (capacity t : ℕ) (v : T) (q : TicketQueue T) : TicketQueue T :=
  { q with
    cells := Function.update q.cells (q.head % capacity) ⟨q.head, .filling⟩
    head := q.head + 1
    claims := Function.update q.claims t (some ⟨some v, q.head, false⟩) }

/-- Agent `t` claims the next position to be drained. -/
def claimTail (capacity t : ℕ) (q : TicketQueue T) : TicketQueue T :=
  { q with
    cells := Function.update q.cells (q.tail % capacity) ⟨q.tail, .draining⟩
    tail := q.tail + 1
    claims := Function.update q.claims t (some ⟨none, q.tail, false⟩) }

def fill (capacity t : ℕ) (v : T) (p : ℕ) (q : TicketQueue T) : TicketQueue T :=
  { q with
    storage := Function.update q.storage (p % capacity) (some v)
    claims := Function.update q.claims t (some ⟨some v, p, true⟩)
    stored := q.stored ++ [(p, v)]
    overwritten := q.overwritten || (q.storage (p % capacity)).isSome }

def drain (capacity t p : ℕ) (q : TicketQueue T) : TicketQueue T :=
  { q with
    storage := Function.update q.storage (p % capacity) none
    claims := Function.update q.claims t (some ⟨none, p, true⟩)
    taken := q.taken ++ [(p, q.storage (p % capacity))] }

/-- The claim ends and the cell is ready to be drained. -/
def publish (capacity t p : ℕ) (q : TicketQueue T) : TicketQueue T :=
  { q with
    cells := Function.update q.cells (p % capacity) ⟨p, .full⟩
    claims := Function.update q.claims t none }

/-- The claim ends and the cell is ready to be filled one round later. -/
def release (capacity t p : ℕ) (q : TicketQueue T) : TicketQueue T :=
  { q with
    cells := Function.update q.cells (p % capacity) ⟨p + capacity, .free⟩
    claims := Function.update q.claims t none
    released := q.released ++ [p] }

/-- What a claim says about its cell and the record. -/
def Backed (capacity : ℕ) (q : TicketQueue T) (c : Claim T) : Prop :=
  match c.value, c.moved with
  | some _, false =>
      q.cells (c.position % capacity) = ⟨c.position, .filling⟩ ∧
        q.storage (c.position % capacity) = none ∧ c.position ∉ q.stored.map (·.1)
  | some v, true =>
      q.cells (c.position % capacity) = ⟨c.position, .filling⟩ ∧
        q.storage (c.position % capacity) = some v ∧ (c.position, v) ∈ q.stored
  | none, false =>
      q.cells (c.position % capacity) = ⟨c.position, .draining⟩ ∧
        (∃ v, q.storage (c.position % capacity) = some v ∧ (c.position, v) ∈ q.stored) ∧
        c.position ∉ q.taken.map (·.1)
  | none, true =>
      q.cells (c.position % capacity) = ⟨c.position, .draining⟩ ∧
        q.storage (c.position % capacity) = none

structure Sound (capacity : ℕ) (q : TicketQueue T) : Prop where
  ring : TicketRing capacity q.cells q.head q.tail
  vacant : ∀ i < capacity, (q.cells i).stage = .free → q.storage i = none
  occupied : ∀ i < capacity, (q.cells i).stage = .full →
    ∃ v, q.storage i = some v ∧ ((q.cells i).position, v) ∈ q.stored
  backed : ∀ t c, q.claims t = some c → Backed capacity q c
  distinct : ∀ t u c d, q.claims t = some c → q.claims u = some d →
    c.position % capacity = d.position % capacity → t = u
  storedBelow : ∀ p ∈ q.stored.map (·.1), p < q.head
  takenBelow : ∀ p ∈ q.taken.map (·.1), p < q.tail
  storedOnce : (q.stored.map (·.1)).Nodup
  takenOnce : (q.taken.map (·.1)).Nodup
  intact : q.overwritten = false
  takenStored : ∀ p v, (p, v) ∈ q.taken → ∃ value, v = some value ∧ (p, value) ∈ q.stored
  kept : ∀ p v, (p, v) ∈ q.stored → p ∈ q.taken.map (·.1) ∨
    (q.storage (p % capacity) = some v ∧ (q.cells (p % capacity)).position = p)
  gone : ∀ p, p < (q.cells (p % capacity)).position → p ∈ q.released

theorem sound_empty : (empty : TicketQueue T).Sound capacity where
  ring := .initial
  vacant _ _ _ := rfl
  occupied _ _ h := by cases h
  backed _ _ h := by cases h
  distinct _ _ _ _ h := by cases h
  storedBelow _ h := by cases h
  takenBelow _ h := by cases h
  storedOnce := List.nodup_nil
  takenOnce := List.nodup_nil
  intact := rfl
  takenStored _ _ h := by cases h
  kept _ _ h := by cases h
  gone p h := absurd h (Nat.not_lt.mpr (Nat.mod_le p capacity))

/-- The stage of the cell tells which claims there are on it. -/
theorem Backed.stage {q : TicketQueue T} {c : Claim T} (h : Backed capacity q c) :
    (q.cells (c.position % capacity)).stage = if c.value.isSome then .filling else .draining := by
  rcases c with ⟨_ | v, position, _ | _⟩ <;> simp only [Backed] at h <;> rw [h.1] <;> rfl

/-- A claim is not affected by a change to another cell. -/
theorem Backed.other {q q' : TicketQueue T} {c : Claim T} {i : ℕ} (h : Backed capacity q c)
    (hne : c.position % capacity ≠ i)
    (hcells : ∀ j, j ≠ i → q'.cells j = q.cells j)
    (hstorage : ∀ j, j ≠ i → q'.storage j = q.storage j)
    (hstored : ∀ e ∈ q.stored, e ∈ q'.stored)
    (hnewStored : ∀ e ∈ q'.stored, e ∈ q.stored ∨ e.1 % capacity = i)
    (hnewTaken : ∀ e ∈ q'.taken, e ∈ q.taken ∨ e.1 % capacity = i) : Backed capacity q' c := by
  have hcell := hcells _ hne
  have hvalue := hstorage _ hne
  have hnotStored (hnot : c.position ∉ q.stored.map (·.1)) : c.position ∉ q'.stored.map (·.1) := by
    intro hmem
    obtain ⟨e, he, hposition⟩ := List.mem_map.mp hmem
    rcases hnewStored e he with hold | hnew
    · exact hnot (List.mem_map.mpr ⟨e, hold, hposition⟩)
    · exact hne (hposition ▸ hnew)
  have hnotTaken (hnot : c.position ∉ q.taken.map (·.1)) : c.position ∉ q'.taken.map (·.1) := by
    intro hmem
    obtain ⟨e, he, hposition⟩ := List.mem_map.mp hmem
    rcases hnewTaken e he with hold | hnew
    · exact hnot (List.mem_map.mpr ⟨e, hold, hposition⟩)
    · exact hne (hposition ▸ hnew)
  rcases c with ⟨_ | v, position, _ | _⟩
  · obtain ⟨hclaimed, ⟨v, hfull, hmem⟩, hnot⟩ := h
    exact ⟨hcell.trans hclaimed, ⟨v, hvalue.trans hfull, hstored _ hmem⟩, hnotTaken hnot⟩
  · exact ⟨hcell.trans h.1, hvalue.trans h.2⟩
  · exact ⟨hcell.trans h.1, hvalue.trans h.2.1, hnotStored h.2.2⟩
  · exact ⟨hcell.trans h.1, hvalue.trans h.2.1, hstored _ h.2.2⟩

/-- No other claim is on the cell of a claim. -/
theorem Sound.ne_of_claim {q : TicketQueue T} (h : q.Sound capacity) {t u : ℕ} {c d : Claim T}
    (ht : q.claims t = some c) (hu : q.claims u = some d) (hne : u ≠ t) :
    d.position % capacity ≠ c.position % capacity := by
  intro heq
  exact hne (h.distinct u t d c hu ht heq)

/-- No claim is on a cell that is free or full. -/
theorem Sound.ne_of_stage {q : TicketQueue T} (h : q.Sound capacity) {u i : ℕ} {d : Claim T}
    (hu : q.claims u = some d) (hstage : (q.cells i).stage = .free ∨ (q.cells i).stage = .full) :
    d.position % capacity ≠ i := by
  intro heq
  have hclaimed := (h.backed u d hu).stage
  rw [heq] at hclaimed
  cases hvalue : d.value <;> simp [hvalue] at hclaimed <;> simp [hclaimed] at hstage

/-- The claims stay apart if one agent's claim is replaced by one on a cell of its
own. -/
theorem Sound.distinct_update {q : TicketQueue T} (h : q.Sound capacity) {t : ℕ} {c : Claim T}
    (hfree : ∀ u d, u ≠ t → q.claims u = some d → d.position % capacity ≠ c.position % capacity)
    (u w : ℕ) (d e : Claim T) (hu : Function.update q.claims t (some c) u = some d)
    (hw : Function.update q.claims t (some c) w = some e)
    (heq : d.position % capacity = e.position % capacity) : u = w := by
  by_cases hut : u = t
  · rw [hut, Function.update_self] at hu
    cases hu
    by_contra hne
    have hwt : w ≠ t := fun hwt => hne (hut.trans hwt.symm)
    rw [Function.update_of_ne hwt] at hw
    exact hfree w e hwt hw heq.symm
  · rw [Function.update_of_ne hut] at hu
    by_cases hwt : w = t
    · rw [hwt, Function.update_self] at hw
      cases hw
      exact absurd heq (hfree u d hut hu)
    · rw [Function.update_of_ne hwt] at hw
      exact h.distinct u w d e hu hw heq

theorem Sound.distinct_none {q : TicketQueue T} (h : q.Sound capacity) {t : ℕ} (u w : ℕ)
    (d e : Claim T) (hu : Function.update q.claims t none u = some d)
    (hw : Function.update q.claims t none w = some e)
    (heq : d.position % capacity = e.position % capacity) : u = w := by
  by_cases hut : u = t
  · rw [hut, Function.update_self] at hu
    cases hu
  by_cases hwt : w = t
  · rw [hwt, Function.update_self] at hw
    cases hw
  rw [Function.update_of_ne hut] at hu
  rw [Function.update_of_ne hwt] at hw
  exact h.distinct u w d e hu hw heq

/-- The record of what was kept survives a change to a cell that holds nothing. -/
theorem Sound.kept_of_vacant {q : TicketQueue T} (h : q.Sound capacity) {i : ℕ}
    (hnone : q.storage i = none) {storage' : ℕ → Option T} {cells' : ℕ → Cell}
    (hstorage : ∀ j, j ≠ i → storage' j = q.storage j)
    (hcells : ∀ j, j ≠ i → (cells' j).position = (q.cells j).position) {p : ℕ} {v : T}
    (hmem : (p, v) ∈ q.stored) : p ∈ q.taken.map (·.1) ∨
      (storage' (p % capacity) = some v ∧ (cells' (p % capacity)).position = p) := by
  rcases h.kept p v hmem with htaken | ⟨hvalue, hposition⟩
  · exact .inl htaken
  · have hne : p % capacity ≠ i := by
      intro heq
      rw [heq, hnone] at hvalue
      cases hvalue
    exact .inr ⟨(hstorage _ hne).trans hvalue, (hcells _ hne).trans hposition⟩

variable {q : TicketQueue T} {t : ℕ}

theorem Sound.claimHead (h : q.Sound capacity) (hcapacity : 2 ≤ capacity) (v : T)
    (hready : (q.cells (q.head % capacity)).sequence = q.head) :
    (q.claimHead capacity t v).Sound capacity := by
  have hslot : q.head % capacity < capacity := Nat.mod_lt _ (by omega)
  have hcell := h.ring.free_of_sequence hcapacity hready
  have hfree : (q.cells (q.head % capacity)).stage = .free := by rw [hcell]
  have hnone := h.vacant _ hslot hfree
  have hnew : q.head ∉ q.stored.map (·.1) := by
    intro hmem
    exact absurd (h.storedBelow _ hmem) (lt_irrefl _)
  unfold TicketQueue.claimHead
  constructor <;> dsimp only
  · exact h.ring.claimHead hcapacity
  · intro i hi hstage
    by_cases heq : i = q.head % capacity
    · rw [heq]
      exact hnone
    · rw [Function.update_of_ne heq] at hstage
      exact h.vacant i hi hstage
  · intro i hi hstage
    by_cases heq : i = q.head % capacity
    · rw [heq, Function.update_self] at hstage
      cases hstage
    · rw [Function.update_of_ne heq] at hstage ⊢
      exact h.occupied i hi hstage
  · intro u d hu
    by_cases heq : u = t
    · rw [heq, Function.update_self] at hu
      cases hu
      exact ⟨Function.update_self .., hnone, hnew⟩
    · rw [Function.update_of_ne heq] at hu
      exact (h.backed u d hu).other (h.ne_of_stage hu (.inl hfree))
        (fun j hj => Function.update_of_ne hj ..) (fun _ _ => rfl) (fun _ he => he)
        (fun _ he => .inl he) (fun _ he => .inl he)
  · exact h.distinct_update fun u d _ hu => h.ne_of_stage hu (.inl hfree)
  · intro p hp
    exact Nat.lt_succ_of_lt (h.storedBelow p hp)
  · exact h.takenBelow
  · exact h.storedOnce
  · exact h.takenOnce
  · exact h.intact
  · exact h.takenStored
  · intro p w hmem
    exact h.kept_of_vacant hnone (fun _ _ => rfl)
      (fun j hj => congrArg Cell.position (Function.update_of_ne hj ..)) hmem
  · intro p hp
    by_cases heq : p % capacity = q.head % capacity
    · rw [heq, Function.update_self] at hp
      apply h.gone
      rw [heq, hcell]
      exact hp
    · rw [Function.update_of_ne heq] at hp
      exact h.gone p hp

theorem Sound.claimTail (h : q.Sound capacity) (hcapacity : 2 ≤ capacity)
    (hready : (q.cells (q.tail % capacity)).sequence = q.tail + 1) :
    (q.claimTail capacity t).Sound capacity := by
  have hslot : q.tail % capacity < capacity := Nat.mod_lt _ (by omega)
  have hcell := h.ring.full_of_sequence hcapacity hready
  have hfull : (q.cells (q.tail % capacity)).stage = .full := by rw [hcell]
  have hvalue := h.occupied _ hslot hfull
  rw [hcell] at hvalue
  have hnew : q.tail ∉ q.taken.map (·.1) := by
    intro hmem
    exact absurd (h.takenBelow _ hmem) (lt_irrefl _)
  unfold TicketQueue.claimTail
  constructor <;> dsimp only
  · exact h.ring.claimTail hcapacity hcell
  · intro i hi hstage
    by_cases heq : i = q.tail % capacity
    · rw [heq, Function.update_self] at hstage
      cases hstage
    · rw [Function.update_of_ne heq] at hstage
      exact h.vacant i hi hstage
  · intro i hi hstage
    by_cases heq : i = q.tail % capacity
    · rw [heq, Function.update_self] at hstage
      cases hstage
    · rw [Function.update_of_ne heq] at hstage ⊢
      exact h.occupied i hi hstage
  · intro u d hu
    by_cases heq : u = t
    · rw [heq, Function.update_self] at hu
      cases hu
      exact ⟨Function.update_self .., hvalue, hnew⟩
    · rw [Function.update_of_ne heq] at hu
      exact (h.backed u d hu).other (h.ne_of_stage hu (.inr hfull))
        (fun j hj => Function.update_of_ne hj ..) (fun _ _ => rfl) (fun _ he => he)
        (fun _ he => .inl he) (fun _ he => .inl he)
  · exact h.distinct_update fun u d _ hu => h.ne_of_stage hu (.inr hfull)
  · exact h.storedBelow
  · intro p hp
    exact Nat.lt_succ_of_lt (h.takenBelow p hp)
  · exact h.storedOnce
  · exact h.takenOnce
  · exact h.intact
  · exact h.takenStored
  · intro p w hmem
    rcases h.kept p w hmem with htaken | ⟨hheld, hposition⟩
    · exact .inl htaken
    · refine .inr ⟨hheld, ?_⟩
      by_cases heq : p % capacity = q.tail % capacity
      · rw [heq, hcell] at hposition
        rw [heq, Function.update_self]
        exact hposition
      · rw [Function.update_of_ne heq]
        exact hposition
  · intro p hp
    by_cases heq : p % capacity = q.tail % capacity
    · rw [heq, Function.update_self] at hp
      apply h.gone
      rw [heq, hcell]
      exact hp
    · rw [Function.update_of_ne heq] at hp
      exact h.gone p hp

theorem Sound.fill (h : q.Sound capacity) (hcapacity : 2 ≤ capacity) {v : T} {p : ℕ}
    (hclaim : q.claims t = some ⟨some v, p, false⟩) : (q.fill capacity t v p).Sound capacity := by
  obtain ⟨hcell, hnone, hnew⟩ := h.backed t _ hclaim
  dsimp only at hcell hnone hnew
  have hstage : (q.cells (p % capacity)).stage = .filling := by rw [hcell]
  have hapart (u : ℕ) (d : Claim T) (hne : u ≠ t) (hu : q.claims u = some d) :
      d.position % capacity ≠ p % capacity := h.ne_of_claim hclaim hu hne
  unfold TicketQueue.fill
  constructor <;> dsimp only
  · exact h.ring
  · intro i hi hfree
    have hne : i ≠ p % capacity := by
      intro heq
      rw [heq, hstage] at hfree
      cases hfree
    rw [Function.update_of_ne hne]
    exact h.vacant i hi hfree
  · intro i hi hfull
    have hne : i ≠ p % capacity := by
      intro heq
      rw [heq, hstage] at hfull
      cases hfull
    obtain ⟨w, hw, hmem⟩ := h.occupied i hi hfull
    rw [Function.update_of_ne hne]
    exact ⟨w, hw, List.mem_append_left _ hmem⟩
  · intro u d hu
    by_cases heq : u = t
    · rw [heq, Function.update_self] at hu
      cases hu
      exact ⟨hcell, Function.update_self .., by simp⟩
    · rw [Function.update_of_ne heq] at hu
      refine (h.backed u d hu).other (hapart u d heq hu) (fun _ _ => rfl)
        (fun j hj => Function.update_of_ne hj ..) (fun _ he => List.mem_append_left _ he) ?_
        (fun _ he => .inl he)
      intro e he
      rcases List.mem_append.mp he with hold | hnew
      · exact .inl hold
      · rw [List.mem_singleton.mp hnew]
        exact .inr rfl
  · exact h.distinct_update hapart
  · intro p' hp'
    rw [List.map_append, List.mem_append] at hp'
    rcases hp' with hold | hnew
    · exact h.storedBelow p' hold
    · have hwithin := h.ring.within (p % capacity) (Nat.mod_lt _ (by omega))
      rw [hcell] at hwithin
      rw [List.mem_singleton.mp hnew]
      exact hwithin.2.1
  · exact h.takenBelow
  · rw [List.map_append, List.nodup_append]
    simp only [List.map_cons, List.map_nil, List.nodup_singleton, List.mem_singleton]
    refine ⟨h.storedOnce, trivial, ?_⟩
    rintro p' hp' _ rfl rfl
    exact hnew hp'
  · exact h.takenOnce
  · rw [h.intact, hnone]
    rfl
  · intro p' w hmem
    obtain ⟨value, hvalue, hstored⟩ := h.takenStored p' w hmem
    exact ⟨value, hvalue, List.mem_append_left _ hstored⟩
  · intro p' w hmem
    rcases List.mem_append.mp hmem with hold | hnew
    · exact h.kept_of_vacant hnone (fun j hj => Function.update_of_ne hj ..) (fun _ _ => rfl) hold
    · cases List.mem_singleton.mp hnew
      rw [Function.update_self, hcell]
      exact .inr ⟨rfl, rfl⟩
  · exact h.gone

theorem Sound.drain (h : q.Sound capacity) (hcapacity : 2 ≤ capacity) {p : ℕ}
    (hclaim : q.claims t = some ⟨none, p, false⟩) : (q.drain capacity t p).Sound capacity := by
  obtain ⟨hcell, ⟨v, hvalue, hstored⟩, hnew⟩ := h.backed t _ hclaim
  dsimp only at hcell hvalue hstored hnew
  have hstage : (q.cells (p % capacity)).stage = .draining := by rw [hcell]
  have hapart (u : ℕ) (d : Claim T) (hne : u ≠ t) (hu : q.claims u = some d) :
      d.position % capacity ≠ p % capacity := h.ne_of_claim hclaim hu hne
  unfold TicketQueue.drain
  constructor <;> dsimp only
  · exact h.ring
  · intro i hi hfree
    by_cases heq : i = p % capacity
    · rw [heq, Function.update_self]
    · rw [Function.update_of_ne heq]
      exact h.vacant i hi hfree
  · intro i hi hfull
    have hne : i ≠ p % capacity := by
      intro heq
      rw [heq, hstage] at hfull
      cases hfull
    rw [Function.update_of_ne hne]
    exact h.occupied i hi hfull
  · intro u d hu
    by_cases heq : u = t
    · rw [heq, Function.update_self] at hu
      cases hu
      exact ⟨hcell, Function.update_self ..⟩
    · rw [Function.update_of_ne heq] at hu
      refine (h.backed u d hu).other (hapart u d heq hu) (fun _ _ => rfl)
        (fun j hj => Function.update_of_ne hj ..) (fun _ he => he) (fun _ he => .inl he) ?_
      intro e he
      rcases List.mem_append.mp he with hold | hlast
      · exact .inl hold
      · rw [List.mem_singleton.mp hlast]
        exact .inr rfl
  · exact h.distinct_update hapart
  · exact h.storedBelow
  · intro p' hp'
    rw [List.map_append, List.mem_append] at hp'
    rcases hp' with hold | hlast
    · exact h.takenBelow p' hold
    · have hwithin := h.ring.within (p % capacity) (Nat.mod_lt _ (by omega))
      rw [hcell] at hwithin
      rw [List.mem_singleton.mp hlast]
      exact hwithin.1
  · exact h.storedOnce
  · rw [List.map_append, List.nodup_append]
    simp only [List.map_cons, List.map_nil, List.nodup_singleton, List.mem_singleton]
    refine ⟨h.takenOnce, trivial, ?_⟩
    rintro p' hp' _ rfl rfl
    exact hnew hp'
  · exact h.intact
  · intro p' w hmem
    rcases List.mem_append.mp hmem with hold | hlast
    · exact h.takenStored p' w hold
    · cases List.mem_singleton.mp hlast
      exact ⟨v, hvalue, hstored⟩
  · intro p' w hmem
    rw [List.map_append, List.mem_append]
    rcases h.kept p' w hmem with htaken | ⟨hheld, hposition⟩
    · exact .inl (.inl htaken)
    · by_cases heq : p' % capacity = p % capacity
      · -- the cell was at `p'` and is at `p`
        rw [heq, hcell] at hposition
        exact .inl (.inr (by simp [← hposition]))
      · rw [Function.update_of_ne heq]
        exact .inr ⟨hheld, hposition⟩
  · exact h.gone

theorem Sound.publish (h : q.Sound capacity) (hcapacity : 2 ≤ capacity) {v : T} {p : ℕ}
    (hclaim : q.claims t = some ⟨some v, p, true⟩) : (q.publish capacity t p).Sound capacity := by
  obtain ⟨hcell, hvalue, hstored⟩ := h.backed t _ hclaim
  dsimp only at hcell hvalue hstored
  unfold TicketQueue.publish
  constructor <;> dsimp only
  · exact h.ring.publish hcapacity hcell
  · intro i hi hfree
    by_cases heq : i = p % capacity
    · rw [heq, Function.update_self] at hfree
      cases hfree
    · rw [Function.update_of_ne heq] at hfree
      exact h.vacant i hi hfree
  · intro i hi hfull
    by_cases heq : i = p % capacity
    · rw [heq, Function.update_self]
      exact ⟨v, hvalue, hstored⟩
    · rw [Function.update_of_ne heq] at hfull ⊢
      exact h.occupied i hi hfull
  · intro u d hu
    by_cases heq : u = t
    · rw [heq, Function.update_self] at hu
      cases hu
    · rw [Function.update_of_ne heq] at hu
      exact (h.backed u d hu).other (h.ne_of_claim hclaim hu heq)
        (fun j hj => Function.update_of_ne hj ..) (fun _ _ => rfl) (fun _ he => he)
        (fun _ he => .inl he) (fun _ he => .inl he)
  · exact h.distinct_none
  · exact h.storedBelow
  · exact h.takenBelow
  · exact h.storedOnce
  · exact h.takenOnce
  · exact h.intact
  · exact h.takenStored
  · intro p' w hmem
    rcases h.kept p' w hmem with htaken | ⟨hheld, hposition⟩
    · exact .inl htaken
    · refine .inr ⟨hheld, ?_⟩
      by_cases heq : p' % capacity = p % capacity
      · rw [heq, hcell] at hposition
        rw [heq, Function.update_self]
        exact hposition
      · rw [Function.update_of_ne heq]
        exact hposition
  · intro p' hp'
    by_cases heq : p' % capacity = p % capacity
    · rw [heq, Function.update_self] at hp'
      apply h.gone
      rw [heq, hcell]
      exact hp'
    · rw [Function.update_of_ne heq] at hp'
      exact h.gone p' hp'

theorem Sound.release (h : q.Sound capacity) (hcapacity : 2 ≤ capacity) {p : ℕ}
    (hclaim : q.claims t = some ⟨none, p, true⟩) : (q.release capacity t p).Sound capacity := by
  obtain ⟨hcell, hnone⟩ := h.backed t _ hclaim
  dsimp only at hcell hnone
  unfold TicketQueue.release
  constructor <;> dsimp only
  · exact h.ring.release hcapacity hcell
  · intro i hi hfree
    by_cases heq : i = p % capacity
    · rw [heq]
      exact hnone
    · rw [Function.update_of_ne heq] at hfree
      exact h.vacant i hi hfree
  · intro i hi hfull
    by_cases heq : i = p % capacity
    · rw [heq, Function.update_self] at hfull
      cases hfull
    · rw [Function.update_of_ne heq] at hfull ⊢
      exact h.occupied i hi hfull
  · intro u d hu
    by_cases heq : u = t
    · rw [heq, Function.update_self] at hu
      cases hu
    · rw [Function.update_of_ne heq] at hu
      exact (h.backed u d hu).other (h.ne_of_claim hclaim hu heq)
        (fun j hj => Function.update_of_ne hj ..) (fun _ _ => rfl) (fun _ he => he)
        (fun _ he => .inl he) (fun _ he => .inl he)
  · exact h.distinct_none
  · exact h.storedBelow
  · exact h.takenBelow
  · exact h.storedOnce
  · exact h.takenOnce
  · exact h.intact
  · exact h.takenStored
  · intro p' w hmem
    exact h.kept_of_vacant hnone (fun _ _ => rfl)
      (fun j hj => congrArg Cell.position (Function.update_of_ne hj ..)) hmem
  · intro p' hp'
    rw [List.mem_append]
    by_cases heq : p' % capacity = p % capacity
    · rw [heq, Function.update_self] at hp'
      by_cases hbefore : p' < p
      · left
        apply h.gone
        rw [heq, hcell]
        exact hbefore
      · -- positions of one cell are a whole round apart
        right
        dsimp only at hp'
        have hdvd := (Nat.modEq_iff_dvd' (Nat.not_lt.mp hbefore)).mp heq.symm
        have hzero := Nat.eq_zero_of_dvd_of_lt hdvd (by omega)
        rw [List.mem_singleton]
        omega
    · rw [Function.update_of_ne heq] at hp'
      exact .inl (h.gone p' hp')

/-- At most a ring of claimed positions has not been released. -/
theorem Sound.claimed_le (h : q.Sound capacity) (hcapacity : 2 ≤ capacity) :
    (Finset.range q.head \ q.released.toFinset).card ≤ capacity :=
  h.ring.claimed_le hcapacity fun p _ => h.gone p

/-! ## Several claims at once -/

/-- The claims of positions from `index` on for these values. -/
def fillClaims (values : List T) (index p : ℕ) : Option (Claim T) :=
  if index ≤ p then values[p - index]?.map fun v => ⟨some v, p, false⟩ else none

/-- The claims of so many positions from `index` on that are to be drained. -/
def drainClaims (index count p : ℕ) : Option (Claim T) :=
  if index ≤ p ∧ p < index + count then some ⟨none, p, false⟩ else none

/-- The next positions to be filled are claimed, each in the name of an agent of its own. -/
def claimHeads (capacity : ℕ) (agent : ℕ → ℕ) : List T → TicketQueue T → TicketQueue T
  | [], q => q
  | v :: rest, q => claimHeads capacity agent rest (q.claimHead capacity (agent q.head) v)

def claimTails (capacity : ℕ) (agent : ℕ → ℕ) : ℕ → TicketQueue T → TicketQueue T
  | 0, q => q
  | count + 1, q => claimTails capacity agent count (q.claimTail capacity (agent q.tail))

theorem fillClaims_nil (index : ℕ) : fillClaims ([] : List T) index = fun _ => none := by
  funext p
  simp [fillClaims]

theorem fillClaims_cons (v : T) (rest : List T) (index : ℕ) :
    fillClaims (v :: rest) index =
      Function.update (fillClaims rest (index + 1)) index (some ⟨some v, index, false⟩) := by
  funext p
  by_cases heq : p = index
  · rw [heq, Function.update_self]
    simp [fillClaims]
  · rw [Function.update_of_ne heq]
    unfold fillClaims
    by_cases hlt : index + 1 ≤ p
    · have hsub : p - index = p - (index + 1) + 1 := by omega
      rw [if_pos hlt, if_pos (by omega), hsub, List.getElem?_cons_succ]
    · rw [if_neg hlt, if_neg (by omega)]

theorem fillClaims_passed (values : List T) (index : ℕ) :
    fillClaims values (index + 1) index = none := by
  rw [fillClaims, if_neg (by omega)]

theorem drainClaims_zero (index : ℕ) :
    (drainClaims index 0 : ℕ → Option (Claim T)) = fun _ => none := by
  funext p
  rw [drainClaims, if_neg (by omega)]

theorem drainClaims_succ (index count : ℕ) :
    (drainClaims index (count + 1) : ℕ → Option (Claim T)) =
      Function.update (drainClaims (index + 1) count) index (some ⟨none, index, false⟩) := by
  funext p
  by_cases heq : p = index
  · rw [heq, Function.update_self, drainClaims, if_pos (by omega)]
  · rw [Function.update_of_ne heq]
    unfold drainClaims
    by_cases hin : index + 1 ≤ p ∧ p < index + 1 + count
    · rw [if_pos hin, if_pos (by omega)]
    · rw [if_neg hin, if_neg (by omega)]

theorem drainClaims_passed (index count : ℕ) :
    (drainClaims (index + 1) count index : Option (Claim T)) = none := by
  rw [drainClaims, if_neg (by omega)]

/-- Only cells, ends and claims differ. -/
structure SameContents (q q' : TicketQueue T) : Prop where
  storage : q'.storage = q.storage
  stored : q'.stored = q.stored
  taken : q'.taken = q.taken
  released : q'.released = q.released
  overwritten : q'.overwritten = q.overwritten

theorem SameContents.trans {q q' q'' : TicketQueue T} (h : SameContents q q')
    (h' : SameContents q' q'') : SameContents q q'' where
  storage := h'.storage.trans h.storage
  stored := h'.stored.trans h.stored
  taken := h'.taken.trans h.taken
  released := h'.released.trans h.released
  overwritten := h'.overwritten.trans h.overwritten

section Several

variable {agent : ℕ → ℕ}

theorem sameContents_claimHeads (capacity : ℕ) (agent : ℕ → ℕ) (values : List T)
    (q : TicketQueue T) : SameContents q (q.claimHeads capacity agent values) := by
  induction values generalizing q with
  | nil => exact ⟨rfl, rfl, rfl, rfl, rfl⟩
  | cons v rest ih =>
      have hfirst : SameContents q (q.claimHead capacity (agent q.head) v) :=
        ⟨rfl, rfl, rfl, rfl, rfl⟩
      exact hfirst.trans (ih _)

theorem sameContents_claimTails (capacity : ℕ) (agent : ℕ → ℕ) (count : ℕ)
    (q : TicketQueue T) : SameContents q (q.claimTails capacity agent count) := by
  induction count generalizing q with
  | zero => exact ⟨rfl, rfl, rfl, rfl, rfl⟩
  | succ count ih =>
      have hfirst : SameContents q (q.claimTail capacity (agent q.tail)) :=
        ⟨rfl, rfl, rfl, rfl, rfl⟩
      exact hfirst.trans (ih _)

theorem ends_claimHeads (capacity : ℕ) (agent : ℕ → ℕ) (values : List T) (q : TicketQueue T) :
    (q.claimHeads capacity agent values).head = q.head + values.length ∧
      (q.claimHeads capacity agent values).tail = q.tail := by
  induction values generalizing q with
  | nil => exact ⟨rfl, rfl⟩
  | cons v rest ih =>
      rcases ih (q.claimHead capacity (agent q.head) v) with ⟨hhead, htail⟩
      rw [claimHeads, hhead, htail, List.length_cons, Nat.add_comm rest.length 1, ← Nat.add_assoc]
      exact ⟨rfl, rfl⟩

theorem ends_claimTails (capacity : ℕ) (agent : ℕ → ℕ) (count : ℕ) (q : TicketQueue T) :
    (q.claimTails capacity agent count).head = q.head ∧
      (q.claimTails capacity agent count).tail = q.tail + count := by
  induction count generalizing q with
  | zero => exact ⟨rfl, rfl⟩
  | succ count ih =>
      rcases ih (q.claimTail capacity (agent q.tail)) with ⟨hhead, htail⟩
      rw [claimTails, hhead, htail, Nat.add_comm count 1, ← Nat.add_assoc]
      exact ⟨rfl, rfl⟩

/-- The agents of the positions have the claims. -/
theorem claims_claimHeads (hagent : Function.Injective agent) (values : List T)
    (q : TicketQueue T) (p : ℕ) :
    (q.claimHeads capacity agent values).claims (agent p) =
      (fillClaims values q.head p).or (q.claims (agent p)) := by
  induction values generalizing q with
  | nil => rw [fillClaims_nil, Option.none_or, claimHeads]
  | cons v rest ih =>
      rw [claimHeads, ih, fillClaims_cons]
      dsimp only [claimHead]
      by_cases heq : p = q.head
      · rw [heq, fillClaims_passed, Function.update_self, Function.update_self]
        rfl
      · rw [Function.update_of_ne heq, Function.update_of_ne (hagent.ne heq)]

theorem claims_claimTails (hagent : Function.Injective agent) (count : ℕ) (q : TicketQueue T)
    (p : ℕ) : (q.claimTails capacity agent count).claims (agent p) =
      (drainClaims q.tail count p).or (q.claims (agent p)) := by
  induction count generalizing q with
  | zero => rw [drainClaims_zero, Option.none_or, claimTails]
  | succ count ih =>
      rw [claimTails, ih, drainClaims_succ]
      dsimp only [claimTail]
      by_cases heq : p = q.tail
      · rw [heq, drainClaims_passed, Function.update_self, Function.update_self]
        rfl
      · rw [Function.update_of_ne heq, Function.update_of_ne (hagent.ne heq)]

/-- The other agents keep theirs. -/
theorem claims_claimHeads_other {u : ℕ} (hu : ∀ p, u ≠ agent p) (values : List T)
    (q : TicketQueue T) : (q.claimHeads capacity agent values).claims u = q.claims u := by
  induction values generalizing q with
  | nil => rfl
  | cons v rest ih =>
      rw [claimHeads, ih]
      exact Function.update_of_ne (hu q.head) ..

theorem claims_claimTails_other {u : ℕ} (hu : ∀ p, u ≠ agent p) (count : ℕ)
    (q : TicketQueue T) : (q.claimTails capacity agent count).claims u = q.claims u := by
  induction count generalizing q with
  | zero => rfl
  | succ count ih =>
      rw [claimTails, ih]
      exact Function.update_of_ne (hu q.tail) ..

/-- A claim does not change the number of its cell. -/
theorem Sound.sequence_claimHead {q : TicketQueue T} (h : q.Sound capacity)
    (hcapacity : 2 ≤ capacity) (t : ℕ) (v : T)
    (hready : (q.cells (q.head % capacity)).sequence = q.head) (i : ℕ) :
    ((q.claimHead capacity t v).cells i).sequence = (q.cells i).sequence := by
  have hcell := h.ring.free_of_sequence hcapacity hready
  dsimp only [TicketQueue.claimHead]
  by_cases heq : i = q.head % capacity
  · rw [heq, Function.update_self, hcell]
    rfl
  · rw [Function.update_of_ne heq]

theorem Sound.sequence_claimTail {q : TicketQueue T} (h : q.Sound capacity)
    (hcapacity : 2 ≤ capacity) (t : ℕ)
    (hready : (q.cells (q.tail % capacity)).sequence = q.tail + 1) (i : ℕ) :
    ((q.claimTail capacity t).cells i).sequence = (q.cells i).sequence := by
  have hcell := h.ring.full_of_sequence hcapacity hready
  dsimp only [TicketQueue.claimTail]
  by_cases heq : i = q.tail % capacity
  · rw [heq, Function.update_self, hcell]
    rfl
  · rw [Function.update_of_ne heq]

theorem Sound.claimHeads {q : TicketQueue T} (h : q.Sound capacity) (hcapacity : 2 ≤ capacity)
    (agent : ℕ → ℕ) {values : List T}
    (hready : ∀ j < values.length, (q.cells ((q.head + j) % capacity)).sequence = q.head + j) :
    (q.claimHeads capacity agent values).Sound capacity ∧
      ∀ i, ((q.claimHeads capacity agent values).cells i).sequence = (q.cells i).sequence := by
  induction values generalizing q with
  | nil => exact ⟨h, fun _ => rfl⟩
  | cons v rest ih =>
      have hfirst := hready 0 (Nat.succ_pos _)
      have hnumber := h.sequence_claimHead hcapacity (agent q.head) v hfirst
      have hrest := ih (h.claimHead (t := agent q.head) hcapacity v hfirst) (fun j hj => by
        rw [hnumber]
        have hnext := hready (j + 1) (Nat.succ_lt_succ hj)
        rwa [Nat.add_comm j 1, ← Nat.add_assoc] at hnext)
      exact ⟨hrest.1, fun i => (hrest.2 i).trans (hnumber i)⟩

theorem Sound.claimTails {q : TicketQueue T} (h : q.Sound capacity) (hcapacity : 2 ≤ capacity)
    (agent : ℕ → ℕ) {count : ℕ}
    (hready : ∀ j < count, (q.cells ((q.tail + j) % capacity)).sequence = q.tail + j + 1) :
    (q.claimTails capacity agent count).Sound capacity ∧
      ∀ i, ((q.claimTails capacity agent count).cells i).sequence = (q.cells i).sequence := by
  induction count generalizing q with
  | zero => exact ⟨h, fun _ => rfl⟩
  | succ count ih =>
      have hfirst := hready 0 (Nat.succ_pos _)
      have hnumber := h.sequence_claimTail hcapacity (agent q.tail) hfirst
      have hrest := ih (h.claimTail (t := agent q.tail) hcapacity hfirst) (fun j hj => by
        rw [hnumber]
        have hnext := hready (j + 1) (Nat.succ_lt_succ hj)
        rwa [Nat.add_comm j 1, ← Nat.add_assoc] at hnext)
      exact ⟨hrest.1, fun i => (hrest.2 i).trans (hnumber i)⟩

end Several

end TicketQueue

end Library
end Katana
