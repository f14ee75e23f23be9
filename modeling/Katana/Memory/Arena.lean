import Katana.Library.Regions
import Katana.Library.Transition

/-!
# The monotonic arena

The arena hands out memory from the front of blocks of its own.  A request goes
to the current block, else to the first block with room for it, else to a new
block; `reset` rewinds all blocks and keeps them.  Addresses and sizes are 64 bits
wide, and the address 0 is the null pointer.  What `aligned_alloc` returns for a
new block is chosen by the environment.
-/

namespace Katana
namespace Memory

open Library

def MAX_ALIGNMENT : ℕ := 64
def MAX_BLOCKS : ℕ := 32

/-- Memory from `aligned_alloc` and how much of it is in use. -/
abbrev Block := Chunk

def alignUp (n alignment : ℕ) : ℕ :=
  ((n + alignment - 1) % 2 ^ 64) &&& (2 ^ 64 - 1 - (alignment - 1))

def isValidAlignment (alignment : ℕ) : Bool :=
  !(alignment = 0 || alignment &&& (alignment - 1) ≠ 0 || MAX_ALIGNMENT < alignment)

namespace Block

def current (b : Block) : ℕ :=
  (b.data + b.used) % 2 ^ 64

def padding (b : Block) (alignment : ℕ) : ℕ :=
  (alignUp b.current alignment + 2 ^ 64 - b.current) % 2 ^ 64

/-- The address of `bytes` bytes behind what is in use, and the block with them in
use as well. -/
def place (b : Block) (bytes alignment : ℕ) : Option (ℕ × Block) :=
  if b.data ≠ 0 ∧ b.used < b.size then
    let newUsed := (b.used + b.padding alignment + bytes) % 2 ^ 64
    if newUsed ≤ b.size then some (alignUp b.current alignment, { b with used := newUsed })
    else none
  else none

end Block

structure Arena where
  blocks : ℕ → Block := fun _ => {}
  numBlocks : ℕ := 0
  currentBlockIndex : ℕ := 0
  blockSize : ℕ
  bytesAllocated : ℕ := 0
  totalCapacity : ℕ := 0

namespace Arena

def reset (a : Arena) : Arena :=
  { a with
    blocks := fun i => if i < a.numBlocks then { a.blocks i with used := 0 } else a.blocks i
    currentBlockIndex := 0
    bytesAllocated := 0 }

def placeCurrent (a : Arena) (bytes alignment : ℕ) : Option (ℕ × ℕ × Block) :=
  if a.currentBlockIndex < a.numBlocks then
    ((a.blocks a.currentBlockIndex).place bytes alignment).map (a.currentBlockIndex, ·)
  else none

def placeFirst (a : Arena) (bytes alignment : ℕ) : Option (ℕ × ℕ × Block) :=
  (List.range a.numBlocks).findSome? fun i =>
    ((a.blocks i).place bytes alignment).map (i, ·)

def takeFrom (a : Arena) (bytes : ℕ) : ℕ × ℕ × Block → ℕ × Arena
  | (i, address, b) =>
      (address,
        { a with
          blocks := Function.update a.blocks i b
          currentBlockIndex := i
          bytesAllocated := (a.bytesAllocated + bytes) % 2 ^ 64 })

/-- `fresh` is the result of `aligned_alloc`. -/
def allocateNewBlock (a : Arena) (minSize fresh : ℕ) : Bool × Arena :=
  if MAX_BLOCKS ≤ a.numBlocks then (false, a)
  else
    let b : Block := { data := fresh, size := minSize, used := 0 }
    let a' := { a with blocks := Function.update a.blocks a.numBlocks b }
    if fresh = 0 then (false, a')
    else
      (true,
        { a' with
          totalCapacity := (a.totalCapacity + minSize) % 2 ^ 64
          currentBlockIndex := a.numBlocks
          numBlocks := a.numBlocks + 1 })

def newBlockSize (a : Arena) (bytes : ℕ) : ℕ :=
  max a.blockSize ((bytes + MAX_ALIGNMENT) % 2 ^ 64)

def allocateFromNewBlock (a : Arena) (bytes alignment fresh : ℕ) : ℕ × Arena :=
  match a.allocateNewBlock (a.newBlockSize bytes) fresh with
  | (false, a) => (0, a)
  | (true, a) =>
      let i := a.numBlocks - 1
      let b := a.blocks i
      if b.data = 0 then (0, a)
      else
        let aligned := alignUp b.data alignment
        let padding := (aligned + 2 ^ 64 - b.data) % 2 ^ 64
        let newUsed := (padding + bytes) % 2 ^ 64
        if b.size < newUsed then (0, a)
        else a.takeFrom bytes (i, aligned, { b with used := newUsed })

def allocate (a : Arena) (bytes alignment fresh : ℕ) : ℕ × Arena :=
  if bytes = 0 then (0, a)
  else if !isValidAlignment alignment then (0, a)
  else
    match a.placeCurrent bytes alignment with
    | some placed => a.takeFrom bytes placed
    | none =>
        match a.placeFirst bytes alignment with
        | some placed => a.takeFrom bytes placed
        | none => a.allocateFromNewBlock bytes alignment fresh

end Arena

section Alignment

theorem exists_two_pow_of_isValidAlignment {alignment : ℕ}
    (h : isValidAlignment alignment = true) : ∃ k ≤ 6, alignment = 2 ^ k := by
  have hall : ∀ a ≤ 64, isValidAlignment a = true → ∃ k ≤ 6, a = 2 ^ k := by decide +kernel
  apply hall alignment _ h
  simp only [isValidAlignment, MAX_ALIGNMENT, Bool.not_eq_true', Bool.or_eq_false_iff] at h
  exact Nat.not_lt.mp (of_decide_eq_false h.2)

/-- Clearing the low bits of a 64-bit number. -/
theorem land_sub_two_pow {x k : ℕ} (hx : x < 2 ^ 64) (hk : k ≤ 64) :
    x &&& (2 ^ 64 - 1 - (2 ^ k - 1)) = x / 2 ^ k * 2 ^ k := by
  have hpow : 2 ^ 64 - 1 - (2 ^ k - 1) = 2 ^ 64 - ((2 ^ k - 1) + 1) := by omega
  have hle : 2 ^ k ≤ 2 ^ 64 := Nat.pow_le_pow_right (by omega) hk
  have hpos : 0 < 2 ^ k := Nat.two_pow_pos k
  apply Nat.eq_of_testBit_eq
  intro i
  rw [hpow, Nat.testBit_and, Nat.testBit_two_pow_sub_succ (by omega), Nat.testBit_two_pow_sub_one,
    Nat.testBit_mul_two_pow, Nat.testBit_div_two_pow]
  by_cases hi : i < k
  · simp [hi, Nat.not_le.mpr hi]
  · have hki : k ≤ i := Nat.not_lt.mp hi
    rw [Nat.sub_add_cancel hki]
    by_cases hbig : i < 64
    · simp [hi, hki, hbig]
    · have hzero : x.testBit i = false :=
        Nat.testBit_lt_two_pow (lt_of_lt_of_le hx (Nat.pow_le_pow_right (by omega) (by omega)))
      simp [hzero]

/-- The next multiple of the alignment is less than an alignment away. -/
theorem alignUp_spec {current alignment : ℕ} (hvalid : isValidAlignment alignment = true)
    (hcurrent : current < 2 ^ 64) :
    ∃ padding < 64, (current + padding) % alignment = 0 ∧
      alignUp current alignment = (current + padding) % 2 ^ 64 := by
  obtain ⟨k, hk, rfl⟩ := exists_two_pow_of_isValidAlignment hvalid
  unfold alignUp
  rw [land_sub_two_pow (Nat.mod_lt _ (by decide)) (by omega)]
  refine ⟨(2 ^ k - current % 2 ^ k) % 2 ^ k, ?_⟩
  interval_cases k <;> omega

theorem padding_spec (b : Block) {alignment : ℕ} (hvalid : isValidAlignment alignment = true) :
    (b.current + b.padding alignment) % alignment = 0 ∧
      alignUp b.current alignment = (b.current + b.padding alignment) % 2 ^ 64 := by
  have hcurrent : b.current < 2 ^ 64 := Nat.mod_lt _ (by decide)
  obtain ⟨padding, hpadding, haligned, heq⟩ := alignUp_spec hvalid hcurrent
  have hpad : b.padding alignment = padding := by
    unfold Block.padding
    rw [heq]
    omega
  rw [hpad]
  exact ⟨haligned, heq⟩

end Alignment

/-- What a block hands out lies between the old and the new end of what is in use. -/
theorem place_spec {b b' : Block} {bytes alignment address : ℕ}
    (hvalid : isValidAlignment alignment = true) (hbytes : 0 < bytes)
    (hroom : b.data + b.size ≤ 2 ^ 64) (hbound : b.used + b.padding alignment + bytes ≤ 2 ^ 63)
    (h : b.place bytes alignment = some (address, b')) :
    ∃ used, b' = { b with used := used } ∧ b.data + b.used ≤ address ∧
      address + bytes ≤ b.data + used ∧ used ≤ b.size ∧ address % alignment = 0 ∧
      address ≠ 0 := by
  obtain ⟨haligned, haddress⟩ := padding_spec b hvalid
  unfold Block.place at h
  split at h
  next hfree =>
    dsimp only at h
    rw [Nat.mod_eq_of_lt (by omega)] at h
    split at h
    next hfits =>
      simp only [Option.some.injEq, Prod.mk.injEq] at h
      obtain ⟨rfl, rfl⟩ := h
      have hcurrent : b.current = b.data + b.used := Nat.mod_eq_of_lt (by omega)
      rw [hcurrent] at haligned haddress
      rw [Nat.mod_eq_of_lt (by omega)] at haddress
      rw [hcurrent, haddress]
      exact ⟨_, rfl, by omega, by omega, hfits, haligned, by omega⟩
    next => cases h
  next => cases h

namespace Arena

/-- The arena with one more block. -/
def withBlock (a : Arena) (size fresh : ℕ) : Arena :=
  { a with
    blocks := Function.update a.blocks a.numBlocks { data := fresh, size := size, used := 0 }
    totalCapacity := (a.totalCapacity + size) % 2 ^ 64
    currentBlockIndex := a.numBlocks
    numBlocks := a.numBlocks + 1 }

/-- How much of a new block a request takes. -/
def newUsed (bytes alignment fresh : ℕ) : ℕ :=
  ((alignUp fresh alignment + 2 ^ 64 - fresh) % 2 ^ 64 + bytes) % 2 ^ 64

variable {a : Arena} {bytes alignment fresh i : ℕ}

theorem allocateFromNewBlock_full (h : MAX_BLOCKS ≤ a.numBlocks) :
    a.allocateFromNewBlock bytes alignment fresh = (0, a) := by
  rw [allocateFromNewBlock, allocateNewBlock, if_pos h]

theorem allocateFromNewBlock_null (h : ¬MAX_BLOCKS ≤ a.numBlocks) :
    a.allocateFromNewBlock bytes alignment 0 =
      (0, { a with
        blocks := Function.update a.blocks a.numBlocks
          { data := 0, size := a.newBlockSize bytes, used := 0 } }) := by
  rw [allocateFromNewBlock, allocateNewBlock, if_neg h]
  rfl

theorem allocateFromNewBlock_fresh (h : ¬MAX_BLOCKS ≤ a.numBlocks) (hfresh : fresh ≠ 0) :
    a.allocateFromNewBlock bytes alignment fresh =
      if a.newBlockSize bytes < newUsed bytes alignment fresh then
        (0, a.withBlock (a.newBlockSize bytes) fresh)
      else
        (a.withBlock (a.newBlockSize bytes) fresh).takeFrom bytes
          (a.numBlocks, alignUp fresh alignment,
            { data := fresh, size := a.newBlockSize bytes,
              used := newUsed bytes alignment fresh }) := by
  rw [allocateFromNewBlock, allocateNewBlock, if_neg h]
  simp only [if_neg hfresh, Nat.add_sub_cancel, Function.update_self]
  rfl

/-- Where a request looks for room among the blocks there are. -/
def placed (a : Arena) (bytes alignment : ℕ) : Option (ℕ × ℕ × Block) :=
  (a.placeCurrent bytes alignment).or (a.placeFirst bytes alignment)

theorem allocate_eq (hbytes : bytes ≠ 0) (hvalid : isValidAlignment alignment = true) :
    a.allocate bytes alignment fresh =
      match a.placed bytes alignment with
      | some placed => a.takeFrom bytes placed
      | none => a.allocateFromNewBlock bytes alignment fresh := by
  rw [allocate, if_neg hbytes, hvalid, placed]
  cases a.placeCurrent bytes alignment with
  | some placed => rfl
  | none => cases a.placeFirst bytes alignment <;> rfl

theorem allocate_refused (h : bytes = 0 ∨ isValidAlignment alignment = false) :
    a.allocate bytes alignment fresh = (0, a) := by
  unfold allocate
  rcases h with hbytes | hvalid
  · rw [if_pos hbytes]
  · rw [hvalid]
    exact ite_self _

theorem placeCurrent_spec {address : ℕ} {b : Block}
    (h : a.placeCurrent bytes alignment = some (i, address, b)) :
    i < a.numBlocks ∧ (a.blocks i).place bytes alignment = some (address, b) := by
  unfold placeCurrent at h
  split at h
  next hcurrent =>
    rw [Option.map_eq_some_iff] at h
    obtain ⟨placed, hplaced, heq⟩ := h
    simp only [Prod.mk.injEq] at heq
    obtain ⟨rfl, rfl⟩ := heq
    exact ⟨hcurrent, hplaced⟩
  next => cases h

theorem placeFirst_spec {address : ℕ} {b : Block}
    (h : a.placeFirst bytes alignment = some (i, address, b)) :
    i < a.numBlocks ∧ (a.blocks i).place bytes alignment = some (address, b) := by
  obtain ⟨j, hj, hplaced⟩ := List.exists_of_findSome?_eq_some h
  rw [Option.map_eq_some_iff] at hplaced
  obtain ⟨placed, hplaced, heq⟩ := hplaced
  simp only [Prod.mk.injEq] at heq
  obtain ⟨rfl, rfl⟩ := heq
  exact ⟨List.mem_range.mp hj, hplaced⟩

theorem placed_spec {address : ℕ} {b : Block}
    (h : a.placed bytes alignment = some (i, address, b)) :
    i < a.numBlocks ∧ (a.blocks i).place bytes alignment = some (address, b) := by
  rcases Option.or_eq_some_iff.mp h with hcurrent | ⟨-, hfirst⟩
  · exact placeCurrent_spec hcurrent
  · exact placeFirst_spec hfirst

end Arena

/-- A region that was returned, with the alignment that was asked for. -/
structure Allocation where
  region : Region
  alignment : ℕ
deriving Repr, DecidableEq

/-- The arena and what it returned since the last reset. -/
structure ArenaRun where
  arena : Arena
  live : List Allocation := []

inductive ArenaCall where
  | allocate (bytes alignment fresh : ℕ)
  | reset
deriving Repr, DecidableEq

namespace ArenaRun

def initial (blockSize : ℕ) : ArenaRun :=
  { arena := { blockSize := blockSize } }

def step (run : ArenaRun) : ArenaCall → Option ArenaRun
  | .allocate bytes alignment fresh =>
      let result := run.arena.allocate bytes alignment fresh
      some {
        arena := result.2
        live :=
          if result.1 = 0 then run.live
          else run.live ++ [{ region := ⟨result.1, bytes⟩, alignment := alignment }] }
  | .reset => some { arena := run.arena.reset, live := [] }

/-- What is asked for stays below `2 ^ 63` wherever it could be placed, and a block
from `aligned_alloc` is memory apart from the other blocks. -/
def Fits (run : ArenaRun) : ArenaCall → Prop
  | .allocate bytes alignment fresh =>
      (isValidAlignment alignment = true →
        bytes ≤ 2 ^ 63 ∧ ∀ i < run.arena.numBlocks,
          (run.arena.blocks i).used + (run.arena.blocks i).padding alignment + bytes ≤ 2 ^ 63) ∧
      (fresh ≠ 0 → fresh + run.arena.newBlockSize bytes ≤ 2 ^ 64 ∧
        ∀ i < run.arena.numBlocks,
          Region.Apart ⟨fresh, run.arena.newBlockSize bytes⟩ (run.arena.blocks i).region)
  | .reset => True

instance (run : ArenaRun) (call : ArenaCall) : Decidable (run.Fits call) :=
  match call with
  | .allocate _ _ _ => inferInstanceAs (Decidable (_ ∧ _))
  | .reset => inferInstanceAs (Decidable True)

structure Holds (run : ArenaRun) : Prop where
  packed : Packed run.arena.blocks run.arena.numBlocks (run.live.map (·.region))
  room : ∀ i < run.arena.numBlocks,
    0 < (run.arena.blocks i).data ∧ (run.arena.blocks i).data + (run.arena.blocks i).size ≤ 2 ^ 64
  count : run.arena.numBlocks ≤ MAX_BLOCKS
  aligned : ∀ r ∈ run.live, r.region.start % r.alignment = 0
  total : run.arena.bytesAllocated = (run.live.map (·.region.size)).sum % 2 ^ 64

variable {run : ArenaRun}

theorem holds_initial (blockSize : ℕ) : (initial blockSize).Holds := by
  constructor
  · exact Packed.empty _
  · simp [initial]
  · simp [initial]
  · simp [initial]
  · simp [initial]

/-- The blocks lie in the address space without the null pointer, and so does what
they handed out. -/
theorem Holds.total_eq (h : run.Holds) :
    run.arena.bytesAllocated = (run.live.map (·.region.size)).sum := by
  have hsum : ((run.live.map (·.region)).map Region.size).sum ≤
      (Region.mk 1 (2 ^ 64 - 1)).size := by
    apply Region.sum_size_le h.packed.live_apart
    intro r hr
    obtain ⟨i, hi, hin⟩ := h.packed.live_within hr
    obtain ⟨hdata, hend⟩ := h.room i hi
    obtain ⟨hstart, hstop⟩ := hin
    unfold Chunk.region Region.Within Region.stop at *
    dsimp only at *
    omega
  have hmap : (run.live.map (·.region)).map Region.size = run.live.map (·.region.size) := by
    simp
  rw [hmap] at hsum
  dsimp only at hsum
  rw [h.total, Nat.mod_eq_of_lt (by omega)]

theorem Holds.reset (h : run.Holds) :
    Holds { arena := run.arena.reset, live := [] } := by
  constructor
  · apply h.packed.rewind
    · intro i hi
      change i < run.arena.numBlocks at hi
      simp [Arena.reset, hi, Chunk.region]
    · intro i hi
      change i < run.arena.numBlocks at hi
      simp [Arena.reset, hi]
  · intro i hi
    change i < run.arena.numBlocks at hi
    have hroom := h.room i hi
    simpa [Arena.reset, hi] using hroom
  · exact h.count
  · simp
  · simp [Arena.reset]

theorem Holds.takeFrom (h : run.Holds) (i used address bytes alignment : ℕ)
    (hi : i < run.arena.numBlocks)
    (hstart : (run.arena.blocks i).data + (run.arena.blocks i).used ≤ address)
    (hstop : address + bytes ≤ (run.arena.blocks i).data + used)
    (hsize : used ≤ (run.arena.blocks i).size) (haligned : address % alignment = 0) :
    Holds {
      arena := (run.arena.takeFrom bytes
        (i, address, { run.arena.blocks i with used := used })).2
      live := run.live ++ [{ region := ⟨address, bytes⟩, alignment := alignment }] } := by
  constructor
  · have hcarved := h.packed.carve used ⟨address, bytes⟩ hi hstart hstop (by omega) hsize
    simpa [Arena.takeFrom] using hcarved
  · intro j hj
    rcases eq_or_ne j i with rfl | hne
    · simpa [Arena.takeFrom] using h.room j hi
    · simpa [Arena.takeFrom, hne] using h.room j hj
  · exact h.count
  · intro r hr
    rcases List.mem_append.mp hr with hr | hr
    · exact h.aligned r hr
    · rw [List.mem_singleton.mp hr]
      exact haligned
  · simp [Arena.takeFrom, h.total]

theorem Holds.extend (h : run.Holds) {minSize fresh : ℕ}
    (hcount : run.arena.numBlocks < MAX_BLOCKS) (hfresh : fresh ≠ 0)
    (hroom : fresh + minSize ≤ 2 ^ 64)
    (hapart : ∀ i < run.arena.numBlocks,
      Region.Apart ⟨fresh, minSize⟩ (run.arena.blocks i).region) :
    Holds { run with
      arena := { run.arena with
        blocks := Function.update run.arena.blocks run.arena.numBlocks
          { data := fresh, size := minSize, used := 0 }
        totalCapacity := (run.arena.totalCapacity + minSize) % 2 ^ 64
        currentBlockIndex := run.arena.numBlocks
        numBlocks := run.arena.numBlocks + 1 } } := by
  constructor
  · exact h.packed.extend (Nat.zero_le _) hapart
  · intro i hi
    change i < run.arena.numBlocks + 1 at hi
    rcases Nat.lt_succ_iff_lt_or_eq.mp hi with hi | rfl
    · simpa [Function.update_of_ne (Nat.ne_of_lt hi)] using h.room i hi
    · simp only [Function.update_self]
      omega
  · exact hcount
  · exact h.aligned
  · exact h.total

/-- A call that found no memory has at most tried a new block. -/
structure Refused (a a' : Arena) : Prop where
  blocks : ∀ i < a.numBlocks, a'.blocks i = a.blocks i
  numBlocks : a'.numBlocks = a.numBlocks
  bytesAllocated : a'.bytesAllocated = a.bytesAllocated

theorem refused_self (a : Arena) : Refused a a :=
  ⟨fun _ _ => rfl, rfl, rfl⟩

theorem Holds.refused (h : run.Holds) {a' : Arena} (hrefused : Refused run.arena a') :
    Holds { run with arena := a' } := by
  constructor
  · rw [hrefused.numBlocks]
    exact h.packed.congr hrefused.blocks
  · intro i hi
    dsimp only at hi ⊢
    rw [hrefused.numBlocks] at hi
    rw [hrefused.blocks i hi]
    exact h.room i hi
  · rw [hrefused.numBlocks]
    exact h.count
  · exact h.aligned
  · rw [hrefused.bytesAllocated]
    exact h.total

/-- The call returned a region, which is recorded. -/
def Returned (run : ArenaRun) (bytes alignment : ℕ) (result : ℕ × Arena) : Prop :=
  result.1 ≠ 0 ∧
    Holds {
      arena := result.2
      live := run.live ++ [{ region := ⟨result.1, bytes⟩, alignment := alignment }] }

theorem Holds.place (h : run.Holds) {bytes alignment fresh i address : ℕ} {b : Block}
    (hfits : run.Fits (.allocate bytes alignment fresh)) (hbytes : bytes ≠ 0)
    (hvalid : isValidAlignment alignment = true) (hi : i < run.arena.numBlocks)
    (hplace : (run.arena.blocks i).place bytes alignment = some (address, b)) :
    run.Returned bytes alignment (run.arena.takeFrom bytes (i, address, b)) := by
  obtain ⟨used, rfl, hstart, hstop, hsize, haligned, haddress⟩ :=
    place_spec hvalid (Nat.pos_of_ne_zero hbytes) (h.room i hi).2 ((hfits.1 hvalid).2 i hi) hplace
  exact ⟨haddress, h.takeFrom i used address bytes alignment hi hstart hstop hsize haligned⟩

theorem Holds.allocateFromNewBlock (h : run.Holds) {bytes alignment fresh : ℕ}
    (hfits : run.Fits (.allocate bytes alignment fresh))
    (hvalid : isValidAlignment alignment = true) :
    ((run.arena.allocateFromNewBlock bytes alignment fresh).1 = 0 ∧
        Refused run.arena (run.arena.allocateFromNewBlock bytes alignment fresh).2) ∨
      run.Returned bytes alignment (run.arena.allocateFromNewBlock bytes alignment fresh) := by
  have hbig := (hfits.1 hvalid).1
  by_cases hcount : MAX_BLOCKS ≤ run.arena.numBlocks
  · rw [Arena.allocateFromNewBlock_full hcount]
    exact Or.inl ⟨rfl, refused_self _⟩
  · by_cases hfresh : fresh = 0
    · rw [hfresh, Arena.allocateFromNewBlock_null hcount]
      refine Or.inl ⟨rfl, ?_, rfl, rfl⟩
      intro i hi
      exact Function.update_of_ne (Nat.ne_of_lt hi) _ _
    · right
      obtain ⟨hroom, hapart⟩ := hfits.2 hfresh
      have hextended := h.extend (Nat.not_le.mp hcount) hfresh hroom hapart
      have hsize : bytes + 64 ≤ run.arena.newBlockSize bytes := by
        unfold Arena.newBlockSize MAX_ALIGNMENT
        rw [Nat.mod_eq_of_lt (by omega)]
        exact le_max_right _ _
      -- the new block has room for the alignment as well
      obtain ⟨padding, hpadding, haligned, heq⟩ :=
        alignUp_spec hvalid (show fresh < 2 ^ 64 by omega)
      rw [Nat.mod_eq_of_lt (by omega)] at heq
      have hused : Arena.newUsed bytes alignment fresh = padding + bytes := by
        unfold Arena.newUsed
        rw [heq]
        omega
      rw [Arena.allocateFromNewBlock_fresh hcount hfresh, if_neg (by omega), hused, heq]
      refine ⟨?_, ?_⟩
      · simp only [Arena.takeFrom]
        omega
      · have htaken := hextended.takeFrom run.arena.numBlocks (padding + bytes) (fresh + padding)
          bytes alignment
        simp only [Function.update_self] at htaken
        exact htaken (by omega) (by omega) (by omega) (by omega) haligned

theorem Holds.allocate (h : run.Holds) {bytes alignment fresh : ℕ}
    (hfits : run.Fits (.allocate bytes alignment fresh)) :
    ((run.arena.allocate bytes alignment fresh).1 = 0 ∧
        Refused run.arena (run.arena.allocate bytes alignment fresh).2) ∨
      run.Returned bytes alignment (run.arena.allocate bytes alignment fresh) := by
  by_cases hrefused : bytes = 0 ∨ isValidAlignment alignment = false
  · rw [Arena.allocate_refused hrefused]
    exact Or.inl ⟨rfl, refused_self _⟩
  · rw [not_or, Bool.not_eq_false] at hrefused
    obtain ⟨hbytes, hvalid⟩ := hrefused
    rw [Arena.allocate_eq hbytes hvalid]
    cases hplaced : run.arena.placed bytes alignment with
    | some placed =>
        obtain ⟨i, address, b⟩ := placed
        obtain ⟨hi, hplace⟩ := Arena.placed_spec hplaced
        exact Or.inr (h.place hfits hbytes hvalid hi hplace)
    | none => exact h.allocateFromNewBlock hfits hvalid

theorem step_holds (run : ArenaRun) (call : ArenaCall) (h : run.Holds)
    (hfits : run.Fits call) : ∃ run', run.step call = some run' ∧ run'.Holds := by
  cases call with
  | allocate bytes alignment fresh =>
      refine ⟨_, rfl, ?_⟩
      rcases h.allocate hfits with ⟨hnull, hrefused⟩ | ⟨haddress, hholds⟩
      · rw [if_pos hnull]
        exact h.refused hrefused
      · rw [if_neg haddress]
        exact hholds
  | reset => exact ⟨_, rfl, h.reset⟩

/-- After every run the returned regions are apart, lie in blocks of the arena, are
aligned and counted; and a call that returns null leaves them and all blocks alone. -/
theorem allocations_apart (blockSize : ℕ) (calls : List ArenaCall)
    (hfits : Along step Fits (initial blockSize) calls) :
    ∃ run, exec step (initial blockSize) calls = some run ∧
      (run.live.map (·.region)).Pairwise Region.Apart ∧
      (∀ r ∈ run.live,
        (∃ i < run.arena.numBlocks, r.region.Within (run.arena.blocks i).region) ∧
          r.region.start % r.alignment = 0) ∧
      run.arena.numBlocks ≤ MAX_BLOCKS ∧
      run.arena.bytesAllocated = (run.live.map (·.region.size)).sum ∧
      ∀ bytes alignment fresh, run.Fits (.allocate bytes alignment fresh) →
        (run.arena.allocate bytes alignment fresh).1 = 0 →
        ∃ run', run.step (.allocate bytes alignment fresh) = some run' ∧ run'.live = run.live ∧
          ∀ i < run.arena.numBlocks, run'.arena.blocks i = run.arena.blocks i := by
  obtain ⟨run, hexec, hholds⟩ := exec_progress step_holds (holds_initial blockSize) hfits
  refine ⟨run, hexec, hholds.packed.live_apart, ?_, hholds.count, hholds.total_eq, ?_⟩
  · intro r hr
    exact ⟨hholds.packed.live_within (List.mem_map_of_mem hr), hholds.aligned r hr⟩
  · intro bytes alignment fresh hcall hnull
    refine ⟨_, rfl, if_pos hnull, ?_⟩
    rcases hholds.allocate hcall with ⟨-, hrefused⟩ | ⟨haddress, -⟩
    · exact hrefused.blocks
    · exact absurd hnull haddress

/-- Two requests in a block, one that finds no memory, one in a new block, and one
after a reset. -/
def sampleCalls : List ArenaCall :=
  [.allocate 10 8 4096, .allocate 40 64 0, .allocate 100 16 0, .allocate 100 16 8192, .reset,
    .allocate 5 1 0]

theorem allocations_apart_sampleCalls :
    (exec step (initial 128) (sampleCalls.take 4)).map (·.live) =
        some [⟨⟨4096, 10⟩, 8⟩, ⟨⟨4160, 40⟩, 64⟩, ⟨⟨8192, 100⟩, 16⟩] ∧
      ∃ run, exec step (initial 128) sampleCalls = some run ∧
        (run.live.map (·.region)).Pairwise Region.Apart := by
  have happart := allocations_apart 128 sampleCalls (by decide +kernel)
  obtain ⟨run, hexec, hlive, -⟩ := happart
  exact ⟨by decide +kernel, run, hexec, hlive⟩

end ArenaRun

end Memory
end Katana
