import Katana.Concurrent.MpscQueue

/-!
# The counter of the multi-producer queue

`try_push` counts a value before it stores it, `push` behind that, and `pop` counts it
off when it has taken it out.  So the counter of a bounded queue is behind the values
that `push` has stored and not counted, and ahead of the value that `pop` has taken and
not counted off.  As long as no value is taken before it has been counted, the counter
does not go below zero.
-/

namespace Katana
namespace Concurrent

open Library

variable {T : Type*}

/-- The queue with what an observer notes: for each stored value, the oldest first, the
producer that has still to count it; the producers of values that are counted and not
yet stored; and who has been calling `try_push` when `max_size` values were stored or
reserved. -/
structure CountedQueue (T : Type*) where
  system : MpscSystem T
  uncounted : List (Option ℕ) := []
  reserved : Finset ℕ := ∅
  reached : ℕ → Bool := fun _ => false

/-- The label is a call of `try_push`. -/
def MpscLabel.begins : MpscLabel T → ℕ → Bool
  | .tryPush t _, u => t = u
  | _, _ => false

namespace CountedQueue

/-- How many values are stored or reserved. -/
def held (s : CountedQueue T) : ℕ :=
  s.uncounted.length + s.reserved.card

def storeValues (s : CountedQueue T) : MpscLabel T → List (Option ℕ)
  | .advance t =>
      match s.system.producers t with
      | .exchange _ _ counted => s.uncounted ++ [if counted then some t else none]
      | .addSize => s.uncounted.map fun producer => if producer = some t then none else producer
      | _ => s.uncounted
  | .pop => if s.system.nextInFront.isSome then s.uncounted.tail else s.uncounted
  | _ => s.uncounted

def reserveValues (s : CountedQueue T) : MpscLabel T → Finset ℕ
  | .advance t =>
      match s.system.producers t with
      | .compareSize _ oldSize =>
          if oldSize < s.system.queue.maxSize ∧ s.system.queue.size = oldSize then
            insert t s.reserved
          else s.reserved
      | .exchange _ _ counted => if counted then s.reserved else s.reserved.erase t
      | _ => s.reserved
  | _ => s.reserved

/-- What the observer notes at a step. -/
def observe (s : CountedQueue T) (label : MpscLabel T) (system : MpscSystem T) : CountedQueue T :=
  let uncounted := s.storeValues label
  let reserved := s.reserveValues label
  { system := system
    uncounted := uncounted
    reserved := reserved
    reached := fun t => (s.reached t && !label.begins t) ||
      system.queue.maxSize ≤ uncounted.length + reserved.card }

def step (s : CountedQueue T) (label : MpscLabel T) : Option (CountedQueue T) :=
  (s.system.step label).map (s.observe label)

def create (maxSize node : ℕ) : CountedQueue T where
  system := .create maxSize node

/-- The counter does not go below zero, and `try_push` gives up only if `max_size` values
were stored or reserved while it was running. -/
def Sound (s : CountedQueue T) : MpscLabel T → Prop
  | .subtract => s.system.subSize = true → 0 < s.system.queue.size
  | .advance t | .failSpuriously t =>
      match s.system.producers t with
      | .compareSize _ oldSize => s.system.queue.maxSize ≤ oldSize → s.reached t = true
      | _ => True
  | _ => True

/-- The producer is about to read a counter that says that the queue is full. -/
def readsFull (s : CountedQueue T) (t : ℕ) : Bool :=
  match s.system.producers t with
  | .loadSize _ => s.system.queue.maxSize ≤ s.system.queue.size
  | .compareSize _ oldSize =>
      oldSize < s.system.queue.maxSize && s.system.queue.maxSize ≤ s.system.queue.size
  | _ => false

/-- No value is taken that its producer has still to count; nobody reads that the queue
is full while a value that has been taken is not counted off; and the values that are
stored or reserved can be counted. -/
def Orderly (s : CountedQueue T) (label : MpscLabel T) : Prop :=
  s.held + 2 < WORD ∧
    match label with
    | .pop => s.system.nextInFront.isSome = true → s.uncounted.head?.join = none
    | .advance t | .failSpuriously t => s.readsFull t = true → s.system.subSize = false
    | _ => True

end CountedQueue

/-- The value is stored and has still to be counted. -/
def MpscPc.counting : MpscPc T → Bool
  | .link _ _ counted => counted
  | .addSize => true
  | _ => false

/-- The value is counted and has still to be stored. -/
def MpscPc.reserving : MpscPc T → Bool
  | .allocate _ counted => !counted
  | .exchange _ _ counted => !counted
  | _ => false

/-! ## What the counter counts -/

/-- The counter holds the values that are stored and counted, those that are reserved,
and the one that is still to be counted off. -/
structure Counts (s : MpscSystem T) (uncounted : List (Option ℕ)) (reserved : Finset ℕ) : Prop where
  bounded : 0 < s.queue.maxSize
  linked : ∃ nodes, s.Linked nodes
  length : s.exchanged.length = s.popped.length + uncounted.length
  size : s.queue.size = uncounted.count none + reserved.card + if s.subSize then 1 else 0
  waiting : ∀ t, uncounted.count (some t) = if (s.producers t).counting then 1 else 0
  reserving : ∀ t, t ∈ reserved ↔ (s.producers t).reserving = true

section Counts

variable {s next : MpscSystem T} {uncounted uncounted' : List (Option ℕ)}
  {reserved reserved' : Finset ℕ} {t : ℕ} {pc : MpscPc T}

/-- A step of a producer; the notes about the others stay as they are. -/
theorem Counts.change (h : Counts s uncounted reserved) (hlinked : ∃ nodes, next.Linked nodes)
    (hproducers : next.producers = Function.update s.producers t pc)
    (hmax : next.queue.maxSize = s.queue.maxSize)
    (hlength : next.exchanged.length = next.popped.length + uncounted'.length)
    (hsize : next.queue.size =
      uncounted'.count none + reserved'.card + if next.subSize then 1 else 0)
    (hwaiting : uncounted'.count (some t) = if pc.counting then 1 else 0)
    (hothers : ∀ u, u ≠ t → uncounted'.count (some u) = uncounted.count (some u))
    (hreserving : t ∈ reserved' ↔ pc.reserving = true)
    (hothers' : ∀ u, u ≠ t → (u ∈ reserved' ↔ u ∈ reserved)) : Counts next uncounted' reserved' := by
  constructor
  · rw [hmax]
    exact h.bounded
  · exact hlinked
  · exact hlength
  · exact hsize
  · intro u
    rw [hproducers]
    by_cases hu : u = t
    · rw [hu, Function.update_self]
      exact hwaiting
    · rw [Function.update_of_ne hu, hothers u hu]
      exact h.waiting u
  · intro u
    rw [hproducers]
    by_cases hu : u = t
    · rw [hu, Function.update_self]
      exact hreserving
    · rw [Function.update_of_ne hu, hothers' u hu]
      exact h.reserving u

/-- A step that neither stores nor counts. -/
theorem Counts.move (h : Counts s uncounted reserved) (hlinked : ∃ nodes, next.Linked nodes)
    (hproducers : next.producers = Function.update s.producers t pc)
    (hqueue : next.queue.maxSize = s.queue.maxSize ∧ next.queue.size = s.queue.size ∧
      next.subSize = s.subSize ∧ next.exchanged = s.exchanged ∧ next.popped = s.popped)
    (hcounting : pc.counting = (s.producers t).counting)
    (hreserving : pc.reserving = (s.producers t).reserving) : Counts next uncounted reserved := by
  rcases hqueue with ⟨hmax, hsize, hsub, hexchanged, hpopped⟩
  apply h.change hlinked hproducers hmax
  · rw [hexchanged, hpopped]
    exact h.length
  · rw [hsize, hsub]
    exact h.size
  · rw [hcounting]
    exact h.waiting t
  · exact fun _ _ => rfl
  · rw [hreserving]
    exact h.reserving t
  · exact fun _ _ => Iff.rfl

theorem Counts.size_le (h : Counts s uncounted reserved) :
    s.queue.size ≤ uncounted.length + reserved.card + if s.subSize then 1 else 0 := by
  have hcount : uncounted.count none ≤ uncounted.length := List.count_le_length
  have hsize := h.size
  omega

theorem Counts.size_succ (h : Counts s uncounted reserved)
    (hword : uncounted.length + reserved.card + 2 < WORD) :
    (s.queue.size + 1) % WORD = s.queue.size + 1 := by
  have hle := h.size_le
  have hsub : (if s.subSize then 1 else 0) ≤ 1 := by
    split <;> omega
  exact Nat.mod_eq_of_lt (by omega)

/-- `try_push` counts its value. -/
theorem Counts.reserve (h : Counts s uncounted reserved) {value : T} {oldSize : ℕ}
    (hlinked : ∃ nodes, next.Linked nodes) (hpc : s.producers t = .compareSize value oldSize)
    (hnext : next = { s.setPc t (.allocate value false) with
      queue := { s.queue with size := (s.queue.size + 1) % WORD } })
    (hword : uncounted.length + reserved.card + 2 < WORD) :
    Counts next uncounted (insert t reserved) := by
  have hnot : t ∉ reserved := by
    rw [h.reserving t, hpc]
    exact Bool.false_ne_true
  have hwaiting := h.waiting t
  have hsize := h.size
  rw [hpc] at hwaiting
  subst hnext
  apply h.change hlinked rfl rfl
  · exact h.length
  · show (s.queue.size + 1) % WORD = uncounted.count none + (insert t reserved).card +
      if s.subSize then 1 else 0
    rw [Finset.card_insert_of_notMem hnot, h.size_succ hword, hsize]
    omega
  · exact hwaiting
  · exact fun _ _ => rfl
  · simp [MpscPc.reserving]
  · intro u hu
    rw [Finset.mem_insert, or_iff_right hu]

theorem Counts.compareSize (h : Counts s uncounted reserved) {value : T} {oldSize : ℕ}
    (hpc : s.producers t = .compareSize value oldSize)
    (hword : uncounted.length + reserved.card + 2 < WORD) (spurious : Bool) :
    Counts (s.compareSize t value oldSize spurious) uncounted
      (if (oldSize < s.queue.maxSize ∧ s.queue.size = oldSize) ∧ spurious = false then
        insert t reserved
      else reserved) := by
  rcases h.linked with ⟨nodes, hnodes⟩
  have hnode : (s.producers t).node = none := by
    rw [hpc]
    rfl
  have hlinked : (s.compareSize t value oldSize spurious).Linked nodes :=
    hnodes.compareSize hnode spurious
  have hcounting : (s.producers t).counting = false := by
    rw [hpc]
    rfl
  have hreserving : (s.producers t).reserving = false := by
    rw [hpc]
    rfl
  unfold MpscSystem.compareSize at hlinked ⊢
  split
  next hfull =>
    rw [if_pos hfull] at hlinked
    rw [if_neg (by omega)]
    exact h.move ⟨nodes, hlinked⟩ rfl ⟨rfl, rfl, rfl, rfl, rfl⟩ hcounting.symm hreserving.symm
  next hroom =>
    rw [if_neg hroom] at hlinked
    by_cases heq : s.queue.size = oldSize ∧ spurious = false
    · have hboth : (decide (s.queue.size = oldSize) && !spurious) = true := by
        simp [heq]
      rw [if_pos hboth] at hlinked ⊢
      rw [if_pos ⟨⟨Nat.not_le.mp hroom, heq.1⟩, heq.2⟩]
      apply h.reserve ⟨nodes, hlinked⟩ hpc _ hword
      rw [heq.1]
    · have hnot : ¬ (decide (s.queue.size = oldSize) && !spurious) = true := by
        simpa using heq
      rw [if_neg hnot] at hlinked ⊢
      rw [if_neg (fun hall => heq ⟨hall.1.2, hall.2⟩)]
      exact h.move ⟨nodes, hlinked⟩ rfl ⟨rfl, rfl, rfl, rfl, rfl⟩ hcounting.symm hreserving.symm

/-- The value is stored. -/
theorem Counts.exchange (h : Counts s uncounted reserved) {value : T} {node : ℕ} {counted : Bool}
    (hlinked : ∃ nodes, (s.exchangeHead t value node counted).Linked nodes)
    (hpc : s.producers t = .exchange value node counted) :
    Counts (s.exchangeHead t value node counted)
      (uncounted ++ [if counted then some t else none])
      (if counted then reserved else reserved.erase t) := by
  have hwaiting := h.waiting t
  have hreserving := h.reserving t
  have hsize := h.size
  rw [hpc] at hwaiting hreserving
  have hnone : uncounted.count (some t) = 0 := hwaiting
  apply h.change hlinked rfl rfl
  · show (s.exchanged ++ [value]).length = _
    rw [List.length_append, List.length_append, h.length]
    simp [MpscSystem.exchangeHead, MpscSystem.setPc, Nat.add_assoc]
  · show s.queue.size = _ + _ + if s.subSize then 1 else 0
    cases counted with
    | true => simp [hsize]
    | false =>
        have hmem : t ∈ reserved := hreserving.mpr rfl
        have hcard := Finset.card_erase_add_one hmem
        simp only [List.count_append, List.count_singleton_self, Bool.false_eq_true, if_false]
        omega
  · cases counted with
    | true => simp [hnone, MpscPc.counting]
    | false => simp [hnone, MpscPc.counting]
  · intro u hu
    cases counted with
    | true => simp [Ne.symm hu]
    | false => simp
  · cases counted with
    | true => simpa [MpscPc.reserving] using hreserving
    | false => simp [MpscPc.reserving]
  · intro u hu
    cases counted with
    | true => simp
    | false => simp [hu]

/-- The producer that has still to count its value is removed from the notes. -/
theorem count_clear (uncounted : List (Option ℕ)) (t : ℕ) :
    (uncounted.map fun producer => if producer = some t then none else producer).count none =
        uncounted.count none + uncounted.count (some t) ∧
      (uncounted.map fun producer => if producer = some t then none else producer).count (some t) =
        0 ∧
      ∀ u, u ≠ t →
        (uncounted.map fun producer => if producer = some t then none else producer).count
          (some u) = uncounted.count (some u) := by
  induction uncounted with
  | nil => simp
  | cons producer uncounted ih =>
      rcases ih with ⟨hnone, hown, hothers⟩
      by_cases hproducer : producer = some t
      · subst hproducer
        refine ⟨?_, ?_, ?_⟩
        · simp [hnone]
          omega
        · simpa using hown
        · intro u hu
          have hrest := hothers u hu
          simpa [Ne.symm hu] using hrest
      · refine ⟨?_, ?_, ?_⟩
        · rw [List.map_cons, if_neg hproducer, List.count_cons, hnone, List.count_cons,
            List.count_cons]
          simp [hproducer]
          omega
        · rw [List.map_cons, if_neg hproducer, List.count_cons, hown]
          simp [hproducer]
        · intro u hu
          rw [List.map_cons, if_neg hproducer, List.count_cons, hothers u hu, List.count_cons]

/-- `push` counts its value. -/
theorem Counts.add (h : Counts s uncounted reserved) (hlinked : ∃ nodes, next.Linked nodes)
    (hpc : s.producers t = .addSize)
    (hnext : next = { s.setPc t .idle with
      queue := { s.queue with size := (s.queue.size + 1) % WORD } })
    (hword : uncounted.length + reserved.card + 2 < WORD) :
    Counts next (uncounted.map fun producer => if producer = some t then none else producer)
      reserved := by
  rcases count_clear uncounted t with ⟨hnone, hown, hothers⟩
  have hwaiting := h.waiting t
  have hreserving := h.reserving t
  have hsize := h.size
  rw [hpc] at hwaiting hreserving
  have hone : uncounted.count (some t) = 1 := hwaiting
  subst hnext
  apply h.change hlinked rfl rfl
  · rw [List.length_map]
    exact h.length
  · show (s.queue.size + 1) % WORD = _ + _ + if s.subSize then 1 else 0
    rw [h.size_succ hword, hnone, hone, hsize]
    omega
  · exact hown
  · exact hothers
  · exact hreserving
  · exact fun _ _ => Iff.rfl

/-- What a pop that takes a value leaves as it is. -/
theorem pop_fields {node : ℕ} (hfront : s.nextInFront = some node) (hpop : s.pop = some next) :
    next.producers = s.producers ∧ next.queue.maxSize = s.queue.maxSize ∧
      next.queue.size = s.queue.size ∧ next.exchanged = s.exchanged ∧
        next.subSize = decide (0 < s.queue.maxSize) := by
  unfold MpscSystem.nextInFront at hfront
  unfold MpscSystem.pop at hpop
  cases hentry : s.queue.heap s.queue.tail with
  | none =>
      rw [hentry] at hfront
      cases hfront
  | some front =>
      rw [hentry] at hfront hpop
      have hlink : front.next = some node := hfront
      simp only [hlink] at hpop
      split at hpop
      next =>
        cases hpop
        exact ⟨rfl, rfl, rfl, rfl, rfl⟩
      next => cases hpop

/-- A value that has been counted is taken. -/
theorem Counts.pop (h : Counts s uncounted reserved) {node : ℕ} (hidle : s.subSize = false)
    (hfront : s.nextInFront = some node) (hpop : s.pop = some next)
    (hcounted : uncounted.head?.join = none) : Counts next uncounted.tail reserved := by
  rcases h.linked with ⟨nodes, hlinked⟩
  rcases hlinked.pop_some hfront with ⟨value, nodes', s', hpop', hvalue, hpopped, hlinked'⟩
  obtain rfl : s' = next := Option.some.inj (hpop'.symm.trans hpop)
  rcases pop_fields hfront hpop with ⟨hproducers, hmax, hsize, hexchanged, hsub⟩
  have hstored : s.popped.length < s.exchanged.length := (List.getElem?_eq_some_iff.mp hvalue).1
  have hlength := h.length
  cases uncounted with
  | nil =>
      simp only [List.length_nil] at hlength
      omega
  | cons producer uncounted =>
      have hnone : producer = none := hcounted
      subst hnone
      constructor
      · rw [hmax]
        exact h.bounded
      · exact ⟨nodes', hlinked'⟩
      · rw [hexchanged, hpopped, List.length_append, hlength]
        simp
        omega
      · have hcount := h.size
        rw [hidle, List.count_cons_self] at hcount
        rw [hsize, hsub, hcount]
        simp only [h.bounded, decide_true, if_true, List.tail_cons, Bool.false_eq_true, if_false]
        omega
      · intro u
        have hwaiting := h.waiting u
        rw [hproducers]
        simpa using hwaiting
      · intro u
        rw [hproducers]
        exact h.reserving u

theorem Counts.size_pos (h : Counts s uncounted reserved) (hsub : s.subSize = true) :
    0 < s.queue.size := by
  rw [h.size, hsub]
  simp

theorem Counts.size_pred (h : Counts s uncounted reserved) (hsub : s.subSize = true)
    (hword : uncounted.length + reserved.card + 2 < WORD) :
    (s.queue.size + (WORD - 1)) % WORD + 1 = s.queue.size := by
  have hpos := h.size_pos hsub
  have hle := h.size_le
  rw [hsub, if_pos rfl] at hle
  have heq : s.queue.size + (WORD - 1) = s.queue.size - 1 + WORD := by
    omega
  rw [heq, Nat.add_mod_right, Nat.mod_eq_of_lt (by omega)]
  omega

/-- The value that has been taken is counted off. -/
theorem Counts.subtract (h : Counts s uncounted reserved) (hsub : s.subSize = true) {size : ℕ}
    (hsize : size + 1 = s.queue.size) :
    Counts { s with queue := { s.queue with size }, subSize := false } uncounted reserved := by
  rcases h.linked with ⟨nodes, hlinked⟩
  have hcount := h.size
  rw [hsub, if_pos rfl] at hcount
  refine ⟨h.bounded, ⟨nodes, hlinked.setSize _ _⟩, h.length, ?_, h.waiting, h.reserving⟩
  show size = uncounted.count none + reserved.card + 0
  omega

end Counts

namespace CountedQueue

/-! ## Runs -/

/-- What holds between the steps of a run: the notes say what the counter counts, and a
producer that has read a full counter has seen a full queue. -/
structure Consistent (s : CountedQueue T) : Prop where
  counts : Counts s.system s.uncounted s.reserved
  full : ∀ t value oldSize, s.system.producers t = .compareSize value oldSize →
    s.system.queue.maxSize ≤ oldSize → s.reached t = true

section Steps

variable {s next : CountedQueue T} {label : MpscLabel T}

theorem Consistent.advance (h : Consistent s) {t : ℕ} {system : MpscSystem T}
    (hword : s.held + 2 < WORD) (hstep : s.system.advance t = some system) :
    Counts system (s.storeValues (.advance t)) (s.reserveValues (.advance t)) := by
  rcases h.counts.linked with ⟨nodes, hnodes⟩
  have hlinked := hnodes.advance hstep
  unfold MpscSystem.advance at hstep
  unfold storeValues reserveValues
  cases hpc : s.system.producers t with
  | idle =>
      rw [hpc] at hstep
      cases hstep
  | loadSize value =>
      rw [hpc] at hstep
      cases hstep
      simp only [hpc]
      exact h.counts.move hlinked rfl ⟨rfl, rfl, rfl, rfl, rfl⟩ (by rw [hpc]; rfl) (by rw [hpc]; rfl)
  | compareSize value oldSize =>
      rw [hpc] at hstep
      cases hstep
      simpa [hpc] using h.counts.compareSize hpc hword false
  | allocate value counted =>
      rw [hpc] at hstep
      cases hstep
  | exchange value node counted =>
      rw [hpc] at hstep
      cases hstep
      simp only [hpc]
      exact h.counts.exchange hlinked hpc
  | link prev node counted =>
      rw [hpc] at hstep
      simp only [hpc]
      dsimp only at hstep
      unfold MpscSystem.storeNext at hstep
      split at hstep
      next => cases hstep
      next entry _ =>
        cases hstep
        apply h.counts.move hlinked rfl ⟨rfl, rfl, rfl, rfl, rfl⟩
        · rw [hpc]
          cases counted with
          | true => simp [MpscPc.counting, h.counts.bounded]
          | false => rfl
        · rw [hpc]
          split <;> rfl
  | addSize =>
      rw [hpc] at hstep
      cases hstep
      simp only [hpc]
      exact h.counts.add hlinked hpc rfl hword

/-- What the observer notes says what the counter counts after the step as well. -/
theorem Consistent.counts_step (h : Consistent s) {system : MpscSystem T}
    (horderly : Orderly s label) (hstep : s.system.step label = some system) :
    Counts system (s.storeValues label) (s.reserveValues label) := by
  rcases h.counts.linked with ⟨nodes, hnodes⟩
  have hlinked := hnodes.step hstep
  rcases horderly with ⟨hword, hlabel⟩
  cases label with
  | push t value =>
      unfold MpscSystem.step at hstep
      dsimp only at hstep
      split at hstep
      next hpc =>
        cases hstep
        exact h.counts.move hlinked rfl ⟨rfl, rfl, rfl, rfl, rfl⟩ (by rw [hpc]; rfl) (by rw [hpc]; rfl)
      next => cases hstep
  | tryPush t value =>
      unfold MpscSystem.step at hstep
      dsimp only at hstep
      split at hstep
      next hpc =>
        cases hstep
        apply h.counts.move hlinked rfl ⟨rfl, rfl, rfl, rfl, rfl⟩
        · rw [hpc]
          split <;> rfl
        · rw [hpc, if_pos h.counts.bounded]
          rfl
      next => cases hstep
  | newNode t node =>
      unfold MpscSystem.step at hstep
      dsimp only at hstep
      split at hstep
      next value counted hpc _ =>
        cases hstep
        exact h.counts.move hlinked rfl ⟨rfl, rfl, rfl, rfl, rfl⟩ (by rw [hpc]; rfl) (by rw [hpc]; rfl)
      next => cases hstep
  | advance t => exact h.advance hword hstep
  | failSpuriously t =>
      unfold MpscSystem.step at hstep
      dsimp only at hstep
      split at hstep
      next value oldSize hpc =>
        cases hstep
        have hcounts := h.counts.compareSize hpc hword true
        rw [if_neg (by simp)] at hcounts
        exact hcounts
      next => cases hstep
  | pop =>
      unfold MpscSystem.step at hstep
      dsimp only at hstep
      split at hstep
      next => cases hstep
      next hidle =>
        unfold storeValues
        cases hfront : s.system.nextInFront with
        | none =>
            have hfirst := hnodes.alive s.system.queue.tail List.mem_cons_self
            cases hstep.symm.trans (MpscSystem.pop_none hfront hfirst)
            exact h.counts
        | some node =>
            have hcounted := hlabel (by rw [hfront]; rfl)
            exact h.counts.pop (by simpa using hidle) hfront hstep hcounted
  | subtract =>
      unfold MpscSystem.step at hstep
      dsimp only at hstep
      split at hstep
      next hsub =>
        cases hstep
        exact h.counts.subtract hsub (h.counts.size_pred hsub hword)
      next => cases hstep

end Steps

end CountedQueue

namespace MpscSystem

variable {s next : MpscSystem T} {label : MpscLabel T}

theorem maxSize_setSize (s : MpscSystem T) (size : ℕ) (subSize : Bool) :
    ({ s with queue := { s.queue with size }, subSize } : MpscSystem T).queue.maxSize =
      s.queue.maxSize := rfl

theorem maxSize_compareSize (s : MpscSystem T) (t : ℕ) (value : T) (oldSize : ℕ)
    (spurious : Bool) :
    (s.compareSize t value oldSize spurious).queue.maxSize = s.queue.maxSize := by
  unfold compareSize
  split
  · rfl
  · split
    · exact maxSize_setSize (s.setPc t (.allocate value false)) _ s.subSize
    · rfl

theorem pop_keeps (hpop : s.pop = some next) :
    next.queue.maxSize = s.queue.maxSize ∧ next.producers = s.producers := by
  unfold MpscSystem.pop at hpop
  split at hpop
  next => cases hpop
  next =>
    split at hpop
    next =>
      cases hpop
      exact ⟨rfl, rfl⟩
    next =>
      split at hpop
      next =>
        cases hpop
        exact ⟨rfl, rfl⟩
      next => cases hpop

theorem maxSize_step (hstep : s.step label = some next) :
    next.queue.maxSize = s.queue.maxSize := by
  cases label with
  | pop =>
      unfold step at hstep
      dsimp only at hstep
      split at hstep
      next => cases hstep
      next => exact (pop_keeps hstep).1
  | subtract =>
      unfold step at hstep
      dsimp only at hstep
      split at hstep
      next =>
        cases hstep
        exact maxSize_setSize _ _ _
      next => cases hstep
  | failSpuriously t =>
      unfold step at hstep
      dsimp only at hstep
      split at hstep
      next =>
        cases hstep
        exact maxSize_compareSize _ _ _ _ _
      next => cases hstep
  | advance t =>
      unfold step advance at hstep
      dsimp only at hstep
      split at hstep
      next => cases hstep
      next =>
        cases hstep
        rfl
      next =>
        cases hstep
        exact maxSize_compareSize _ _ _ _ _
      next => cases hstep
      next =>
        cases hstep
        rfl
      next =>
        unfold storeNext at hstep
        split at hstep
        next => cases hstep
        next =>
          cases hstep
          rfl
      next =>
        cases hstep
        exact maxSize_setSize (s.setPc t .idle) _ s.subSize
  | push t value =>
      unfold step at hstep
      dsimp only at hstep
      split at hstep
      next =>
        cases hstep
        rfl
      next => cases hstep
  | tryPush t value =>
      unfold step at hstep
      dsimp only at hstep
      split at hstep
      next =>
        cases hstep
        rfl
      next => cases hstep
  | newNode t node =>
      unfold step at hstep
      dsimp only at hstep
      split at hstep
      next =>
        cases hstep
        rfl
      next => cases hstep

/-- A producer that goes round has read the counter when it was not the one that its
comparison expected. -/
theorem compareSize_again {t oldSize : ℕ} {value : T} {spurious : Bool} {value' : T} {size : ℕ}
    (h : (s.compareSize t value oldSize spurious).producers t = .compareSize value' size) :
    size = s.queue.size ∧ oldSize < s.queue.maxSize ∧
      ¬ (s.queue.size = oldSize ∧ spurious = false) := by
  unfold compareSize at h
  split at h
  next =>
    rw [setPc_self] at h
    cases h
  next hroom =>
    split at h
    next =>
      cases (setPc_self t _ s).symm.trans h
    next hfails =>
      rw [setPc_self] at h
      cases h
      exact ⟨rfl, Nat.not_le.mp hroom, by simpa using hfails⟩

theorem compareSize_other {t u oldSize : ℕ} {value : T} {spurious : Bool} (hu : u ≠ t) :
    (s.compareSize t value oldSize spurious).producers u = s.producers u := by
  unfold compareSize
  split
  · exact setPc_other _ s hu
  · split
    · exact setPc_other (.allocate value false) s hu
    · exact setPc_other _ s hu

theorem advance_other {t u : ℕ} (hstep : s.advance t = some next) (hu : u ≠ t) :
    next.producers u = s.producers u := by
  unfold advance at hstep
  split at hstep
  next => cases hstep
  next =>
    cases hstep
    exact setPc_other _ s hu
  next =>
    cases hstep
    exact compareSize_other hu
  next => cases hstep
  next value node counted _ =>
    cases hstep
    exact setPc_other (.link s.queue.head node counted) s hu
  next prev node counted _ =>
    unfold storeNext at hstep
    split at hstep
    next => cases hstep
    next =>
      cases hstep
      exact setPc_other _ s hu
  next =>
    cases hstep
    exact setPc_other .idle s hu

end MpscSystem

namespace CountedQueue

section Steps

variable {s next : CountedQueue T} {label : MpscLabel T} {u size : ℕ} {value : T}

/-- A producer that is about to compare has been there before, or has just read the
counter. -/
theorem compare_origin {system : MpscSystem T} (hstep : s.system.step label = some system)
    (hpc : system.producers u = .compareSize value size) :
    (s.system.producers u = .compareSize value size ∧ label.begins u = false) ∨
      (size = s.system.queue.size ∧ (label = .advance u ∨ label = .failSpuriously u) ∧
        (s.system.queue.maxSize ≤ size → s.readsFull u = true) ∧
        s.storeValues label = s.uncounted ∧ s.reserveValues label = s.reserved) := by
  cases label with
  | push t v =>
      unfold MpscSystem.step at hstep
      dsimp only at hstep
      split at hstep
      next hidle =>
        cases hstep
        left
        by_cases hu : u = t
        · rw [hu, MpscSystem.setPc_self] at hpc
          cases hpc
        · rw [MpscSystem.setPc_other _ _ hu] at hpc
          exact ⟨hpc, rfl⟩
      next => cases hstep
  | tryPush t v =>
      unfold MpscSystem.step at hstep
      dsimp only at hstep
      split at hstep
      next hidle =>
        cases hstep
        left
        by_cases hu : u = t
        · rw [hu, MpscSystem.setPc_self] at hpc
          split at hpc <;> cases hpc
        · rw [MpscSystem.setPc_other _ _ hu] at hpc
          exact ⟨hpc, decide_eq_false (Ne.symm hu)⟩
      next => cases hstep
  | newNode t node =>
      unfold MpscSystem.step at hstep
      dsimp only at hstep
      split at hstep
      next v counted _ _ =>
        cases hstep
        left
        by_cases hu : u = t
        · rw [hu] at hpc
          cases (MpscSystem.setPc_self t _ s.system).symm.trans hpc
        · exact ⟨(MpscSystem.setPc_other _ _ hu).symm.trans hpc, rfl⟩
      next => cases hstep
  | advance t =>
      by_cases hu : u = t
      · right
        subst hu
        unfold MpscSystem.step MpscSystem.advance at hstep
        unfold readsFull storeValues reserveValues
        cases hold : s.system.producers u with
        | loadSize v =>
            simp only [hold] at hstep ⊢
            cases hstep
            rw [MpscSystem.setPc_self] at hpc
            cases hpc
            exact ⟨rfl, .inl trivial, decide_eq_true, trivial, trivial⟩
        | compareSize v oldSize =>
            simp only [hold] at hstep ⊢
            cases hstep
            rcases MpscSystem.compareSize_again hpc with ⟨hsize, hroom, hfails⟩
            refine ⟨hsize, .inl trivial, fun hfull => ?_, trivial, ?_⟩
            · simp [hroom, hsize ▸ hfull]
            · rw [if_neg (fun hall => hfails ⟨hall.2, rfl⟩)]
        | idle =>
            simp only [hold] at hstep
            cases hstep
        | allocate v counted =>
            simp only [hold] at hstep
            cases hstep
        | exchange v node counted =>
            simp only [hold] at hstep
            cases hstep
            cases (MpscSystem.setPc_self u _ s.system).symm.trans hpc
        | link prev node counted =>
            simp only [hold] at hstep
            unfold MpscSystem.storeNext at hstep
            split at hstep
            next => cases hstep
            next =>
              cases hstep
              have hdone := (MpscSystem.setPc_self u _ s.system).symm.trans hpc
              split at hdone <;> cases hdone
        | addSize =>
            simp only [hold] at hstep
            cases hstep
            cases (MpscSystem.setPc_self u .idle s.system).symm.trans hpc
      · rw [MpscSystem.advance_other hstep hu] at hpc
        exact .inl ⟨hpc, rfl⟩
  | failSpuriously t =>
      unfold MpscSystem.step at hstep
      dsimp only at hstep
      split at hstep
      next v oldSize hold =>
        cases hstep
        by_cases hu : u = t
        · subst hu
          rcases MpscSystem.compareSize_again hpc with ⟨hsize, hroom, -⟩
          right
          refine ⟨hsize, .inr rfl, fun hfull => ?_, rfl, rfl⟩
          simp [readsFull, hold, hroom, hsize ▸ hfull]
        · rw [MpscSystem.compareSize_other hu] at hpc
          exact .inl ⟨hpc, rfl⟩
      next => cases hstep
  | pop =>
      unfold MpscSystem.step at hstep
      dsimp only at hstep
      split at hstep
      next => cases hstep
      next =>
        rw [(MpscSystem.pop_keeps hstep).2] at hpc
        exact .inl ⟨hpc, rfl⟩
  | subtract =>
      unfold MpscSystem.step at hstep
      dsimp only at hstep
      split at hstep
      next =>
        cases hstep
        exact .inl ⟨hpc, rfl⟩
      next => cases hstep

theorem Consistent.step (h : Consistent s) (horderly : Orderly s label)
    (hstep : s.step label = some next) : Consistent next := by
  rcases Option.map_eq_some_iff.mp hstep with ⟨system, hsystem, rfl⟩
  have hcounts := h.counts_step horderly hsystem
  refine ⟨hcounts, fun t value oldSize hpc hfull => ?_⟩
  have hmax := MpscSystem.maxSize_step hsystem
  change system.queue.maxSize ≤ oldSize at hfull
  change (_ || _) = true
  rcases compare_origin hsystem hpc with ⟨hold, hbegins⟩ | ⟨hsize, hlabel, hreads, hstored, hreserved⟩
  · have hreached := h.full t value oldSize hold (hmax ▸ hfull)
    simp [hreached, hbegins]
  · -- the counter has been read, and no value is being counted off
    have hreads' := hreads (hmax ▸ hfull)
    have hidle : s.system.subSize = false := by
      rcases hlabel with rfl | rfl
      · exact horderly.2 hreads'
      · exact horderly.2 hreads'
    have hle := h.counts.size_le
    rw [hidle] at hle
    rw [hstored, hreserved]
    rw [Bool.or_eq_true, decide_eq_true_eq]
    right
    simp only [Bool.false_eq_true, if_false] at hle
    omega

theorem Consistent.sound (h : Consistent s) : Sound s label := by
  have hcompare {t : ℕ} : match s.system.producers t with
      | .compareSize _ oldSize => s.system.queue.maxSize ≤ oldSize → s.reached t = true
      | _ => True := by
    split
    next value oldSize hpc => exact h.full _ value oldSize hpc
    next => trivial
  cases label with
  | advance t => exact hcompare
  | failSpuriously t => exact hcompare
  | subtract => exact h.counts.size_pos
  | push t value => trivial
  | tryPush t value => trivial
  | newNode t node => trivial
  | pop => trivial

end Steps

theorem consistent_create {maxSize node : ℕ} (hmax : 0 < maxSize) :
    Consistent (create maxSize node : CountedQueue T) := by
  refine ⟨⟨hmax, ⟨[], MpscSystem.linked_create maxSize node⟩, rfl, rfl, ?_, ?_⟩, ?_⟩
  · exact fun t => rfl
  · intro t
    simp [create, MpscSystem.create, MpscPc.reserving]
  · intro t value oldSize hpc
    cases hpc

/-- In every run of a bounded queue in which no value is taken that its producer has
still to count, and nobody reads that the queue is full while a taken value is not
counted off: the counter does not go below zero, and `try_push` gives up only if
`max_size` values were stored or reserved while it was running. -/
theorem along_sound {maxSize node : ℕ} (hmax : 0 < maxSize) (labels : List (MpscLabel T))
    (h : Along step Orderly (create maxSize node) labels) :
    Along step Sound (create maxSize node) labels :=
  h.of_invariant (fun _ _ _ hs horderly hstep => hs.step horderly hstep)
    (fun _ _ hs _ => hs.sound) (consistent_create hmax)

instance decidableOrderly (s : CountedQueue T) : ∀ label, Decidable (Orderly s label)
  | .push _ _ => inferInstanceAs (Decidable (_ ∧ True))
  | .tryPush _ _ => inferInstanceAs (Decidable (_ ∧ True))
  | .newNode _ _ => inferInstanceAs (Decidable (_ ∧ True))
  | .advance t =>
      inferInstanceAs (Decidable (_ ∧ (s.readsFull t = true → s.system.subSize = false)))
  | .failSpuriously t =>
      inferInstanceAs (Decidable (_ ∧ (s.readsFull t = true → s.system.subSize = false)))
  | .pop =>
      inferInstanceAs (Decidable (_ ∧
        (s.system.nextInFront.isSome = true → s.uncounted.head?.join = none)))
  | .subtract => inferInstanceAs (Decidable (_ ∧ True))

/-- A value is pushed and taken, and another one pushed by `try_push`. -/
def pushAndTry : List (MpscLabel ℕ) :=
  [.push 1 10, .newNode 1 1, .advance 1, .advance 1, .advance 1, .tryPush 2 20, .advance 2,
    .advance 2, .pop, .subtract, .tryPush 2 20, .advance 2, .advance 2, .newNode 2 2, .advance 2,
    .advance 2]

theorem along_sound_pushAndTry :
    (exec step (create 1 0) pushAndTry).isSome = true ∧
      Along step Sound (create 1 0) pushAndTry := by
  refine ⟨by decide, ?_⟩
  apply along_sound Nat.one_pos
  decide

/-- The consumer takes a value between the two steps of a `push`. -/
def takenUncounted : List (MpscLabel ℕ) :=
  [.push 1 10, .newNode 1 1, .advance 1, .advance 1, .pop]

/-- A `try_push` begins when the only value has been taken and not counted off. -/
def notCountedOff : List (MpscLabel ℕ) :=
  [.tryPush 1 10, .advance 1, .advance 1, .newNode 1 1, .advance 1, .advance 1, .pop,
    .tryPush 2 20, .advance 2]

/-- The counter goes below zero, and `try_push` gives up while nothing is stored. -/
theorem takenUncounted_wraps :
    ¬ Along step Sound (create 1 0) (takenUncounted ++ [.subtract]) ∧
      ((exec step (create 1 0) (takenUncounted ++ [.subtract])).map fun s =>
        s.system.queue.size) = some (2 ^ 64 - 1) ∧
      ¬ Along step Sound (create 1 0) (notCountedOff ++ [.advance 2]) := by
  refine ⟨fun h => ?_, by decide, fun h => ?_⟩
  · have hrun : ∃ s, exec step (create 1 0) takenUncounted = some s ∧
        s.system.subSize = true ∧ s.system.queue.size = 0 := ⟨_, rfl, rfl, rfl⟩
    rcases hrun with ⟨s, hexec, hsub, hsize⟩
    have hpos : s.system.subSize = true → 0 < s.system.queue.size := h.last hexec
    rw [hsize] at hpos
    exact absurd (hpos hsub) (lt_irrefl 0)
  · have hrun : ∃ s, exec step (create 1 0) notCountedOff = some s ∧
        s.system.producers 2 = .compareSize 20 1 ∧ s.system.queue.maxSize = 1 ∧
          s.reached 2 = false := ⟨_, rfl, rfl, rfl, rfl⟩
    rcases hrun with ⟨s, hexec, hpc, hmax, hreached⟩
    have hsound : Sound s (.advance 2) := h.last hexec
    unfold Sound at hsound
    simp only [hpc] at hsound
    rw [hsound hmax.le] at hreached
    cases hreached

end CountedQueue

end Concurrent
end Katana
