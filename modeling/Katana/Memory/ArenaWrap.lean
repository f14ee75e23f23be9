import Katana.Memory.Arena

/-!
# Sizes at the top of the range

The sums of `allocate` wrap around.  A request stays inside a block as long as the
block that the search stops at does not pass the test by a sum that has wrapped, and
no block is made whose size wraps when it is rounded up to the alignment: of such a
block `aligned_alloc` is asked for nothing.
-/

namespace Katana
namespace Memory

open Library

/-- What the constructor of a block asks `aligned_alloc` for. -/
def alignedSize (size : ℕ) : ℕ :=
  alignUp size 64

namespace Block

/-- The memory that `aligned_alloc` gave the block. -/
def memory (b : Block) : Region :=
  ⟨b.data, alignedSize b.size⟩

/-- The size of the block was rounded up without wrapping. -/
def Rounded (b : Block) : Prop :=
  b.size ≤ 2 ^ 64 - 64

end Block

namespace ArenaRun

/-- A size is a word, and `aligned_alloc` returns the null pointer or aligned memory
apart from the other blocks. -/
def Received (run : ArenaRun) : ArenaCall → Prop
  | .allocate bytes _ fresh =>
      let asked := alignedSize (run.arena.newBlockSize bytes)
      bytes < 2 ^ 64 ∧ (fresh ≠ 0 → fresh % 64 = 0 ∧ fresh + asked < 2 ^ 64 ∧
        ∀ i < run.arena.numBlocks, Region.Apart ⟨fresh, asked⟩ (run.arena.blocks i).memory ∧
          fresh ≠ (run.arena.blocks i).data)
  | .reset => True

instance (run : ArenaRun) (call : ArenaCall) : Decidable (run.Received call) :=
  match call with
  | .allocate _ _ _ => inferInstanceAs (Decidable (_ ∧ _))
  | .reset => inferInstanceAs (Decidable True)

/-- Returned bytes lie inside one block, nothing that is in use is given back, and a
request that is larger than every block finds no memory. -/
def Contained (run : ArenaRun) : ArenaCall → Prop
  | .allocate bytes alignment fresh =>
      let result := run.arena.allocate bytes alignment fresh
      (result.1 ≠ 0 → ∃ i < result.2.numBlocks,
        Region.Within ⟨result.1, bytes⟩ (result.2.blocks i).memory) ∧
      (∀ i < run.arena.numBlocks, (run.arena.blocks i).used ≤ (result.2.blocks i).used) ∧
      ((∀ i < result.2.numBlocks, (result.2.blocks i).memory.size < bytes) →
        result.1 = 0 ∧
          ∀ i < run.arena.numBlocks, (result.2.blocks i).used = (run.arena.blocks i).used)
  | .reset => True

instance (run : ArenaRun) (call : ArenaCall) : Decidable (run.Contained call) :=
  match call with
  | .allocate _ _ _ => inferInstanceAs (Decidable (_ ∧ _ ∧ _))
  | .reset => inferInstanceAs (Decidable True)

/-- The block at which the search stops passes the test by a sum that is no larger than
a word, and the size of a new block is rounded up without wrapping. -/
def Unwrapped (run : ArenaRun) : ArenaCall → Prop
  | .allocate bytes alignment fresh =>
      bytes ≠ 0 → isValidAlignment alignment = true →
        match run.arena.placed bytes alignment with
        | some (i, _) =>
            let b := run.arena.blocks i
            b.Rounded ∧ b.used + b.padding alignment + bytes < 2 ^ 64
        | none =>
            let size := run.arena.newBlockSize bytes
            run.arena.numBlocks < MAX_BLOCKS → fresh ≠ 0 → bytes ≤ size → size ≤ 2 ^ 64 - 64
  | .reset => True

/-! ## Rounded sizes -/

theorem alignedSize_spec {size : ℕ} (hsize : size ≤ 2 ^ 64 - 64) :
    size ≤ alignedSize size ∧ alignedSize size % 64 = 0 := by
  unfold alignedSize alignUp
  rw [show (64 : ℕ) - 1 = 2 ^ 6 - 1 by rfl, land_sub_two_pow (Nat.mod_lt _ (by decide)) (by decide)]
  omega

theorem alignedSize_wraps {size : ℕ} (hlarge : 2 ^ 64 - 64 < size) (hsize : size < 2 ^ 64) :
    alignedSize size = 0 := by
  unfold alignedSize alignUp
  rw [show (64 : ℕ) - 1 = 2 ^ 6 - 1 by rfl, land_sub_two_pow (Nat.mod_lt _ (by decide)) (by decide)]
  omega

theorem alignUp_self {current alignment : ℕ} (hvalid : isValidAlignment alignment = true)
    (haligned : current % 64 = 0) (hcurrent : current < 2 ^ 64) :
    alignUp current alignment = current := by
  obtain ⟨k, hk, rfl⟩ := exists_two_pow_of_isValidAlignment hvalid
  unfold alignUp
  rw [land_sub_two_pow (Nat.mod_lt _ (by decide)) (by omega)]
  interval_cases k <;> omega

/-- A block of an arena that has only met such requests. -/
structure Sound (b : Block) : Prop where
  nonnull : 0 < b.data
  aligned : b.data % 64 = 0
  stop : b.data + alignedSize b.size < 2 ^ 64
  size : b.size < 2 ^ 64
  used : b.used ≤ b.size
  unused : ¬b.Rounded → b.used = 0

structure Safe (run : ArenaRun) : Prop where
  blockSize : run.arena.blockSize < 2 ^ 64
  sound : ∀ i < run.arena.numBlocks, Sound (run.arena.blocks i)
  apart : ∀ i < run.arena.numBlocks, ∀ j < run.arena.numBlocks, i ≠ j →
    Region.Apart (run.arena.blocks i).memory (run.arena.blocks j).memory ∧
      (run.arena.blocks i).data ≠ (run.arena.blocks j).data

section Blocks

variable {b b' : Block} {bytes alignment address : ℕ}

theorem place_cases (h : b.place bytes alignment = some (address, b')) :
    b.used < b.size ∧ (b.used + b.padding alignment + bytes) % 2 ^ 64 ≤ b.size ∧
      address = alignUp b.current alignment ∧
      b' = { b with used := (b.used + b.padding alignment + bytes) % 2 ^ 64 } := by
  unfold Block.place at h
  split at h
  next hfree =>
    dsimp only at h
    split at h
    next hfits =>
      rw [Option.some.injEq, Prod.mk.injEq] at h
      exact ⟨hfree.2, hfits, h.1.symm, h.2.symm⟩
    next => cases h
  next => cases h

/-- In a block of a rounded size, the address is behind what is in use. -/
theorem Sound.address_eq (h : Sound b) (hvalid : isValidAlignment alignment = true)
    (hrounded : b.Rounded) (hfree : b.used < b.size) :
    alignUp b.current alignment = b.data + b.used + b.padding alignment := by
  obtain ⟨hle, hmod⟩ := alignedSize_spec hrounded
  have hstop := h.stop
  have haligned := h.aligned
  have hcurrent : b.current = b.data + b.used := Nat.mod_eq_of_lt (by omega)
  obtain ⟨padding, hpadding, -, heq⟩ := alignUp_spec hvalid (show b.current < 2 ^ 64 by omega)
  rw [Nat.mod_eq_of_lt (by omega)] at heq
  have hpad : b.padding alignment = padding := by
    unfold Block.padding
    rw [heq]
    omega
  rw [heq, hpad, hcurrent]

theorem Sound.data_ne (h : Sound b) : b.data ≠ 0 :=
  Nat.ne_of_gt h.nonnull

/-- Where a sum is a word, the bytes lie in the block. -/
theorem Sound.place_fits (h : Sound b) (hvalid : isValidAlignment alignment = true)
    (hrounded : b.Rounded) (hsum : b.used + b.padding alignment + bytes < 2 ^ 64)
    (hplace : b.place bytes alignment = some (address, b')) :
    address ≠ 0 ∧ Region.Within ⟨address, bytes⟩ b.memory ∧ bytes ≤ b.memory.size ∧
      b' = { b with used := b.used + b.padding alignment + bytes } ∧ b'.used ≤ b.size := by
  obtain ⟨hfree, hfits, haddress, hb'⟩ := place_cases hplace
  have hle := (alignedSize_spec hrounded).1
  have hnonnull := h.nonnull
  rw [Nat.mod_eq_of_lt hsum] at hfits hb'
  rw [h.address_eq hvalid hrounded hfree] at haddress
  refine ⟨by omega, ⟨?_, ?_⟩, hle.trans' (by omega), hb', by rwa [hb']⟩
  · show b.data ≤ address
    omega
  · show address + bytes ≤ b.data + alignedSize b.size
    omega

theorem Sound.place_wraps (h : Sound b) (hvalid : isValidAlignment alignment = true)
    (hrounded : b.Rounded) (hsum : 2 ^ 64 ≤ b.used + b.padding alignment + bytes)
    (hplace : b.place bytes alignment = some (address, b')) :
    address ≠ 0 ∧ 2 ^ 64 ≤ address + bytes := by
  obtain ⟨hfree, -, haddress, -⟩ := place_cases hplace
  have hnonnull := h.nonnull
  rw [h.address_eq hvalid hrounded hfree] at haddress
  omega

/-- The first byte of a block that has no memory is handed out. -/
theorem Sound.place_unrounded (h : Sound b) (hvalid : isValidAlignment alignment = true)
    (hrounded : ¬b.Rounded) (hplace : b.place bytes alignment = some (address, b')) :
    address = b.data := by
  obtain ⟨-, -, haddress, -⟩ := place_cases hplace
  have hstop := h.stop
  have hcurrent : b.current = b.data := by
    rw [Block.current, h.unused hrounded, Nat.add_zero, Nat.mod_eq_of_lt (by omega)]
  rw [haddress, hcurrent, alignUp_self hvalid h.aligned (by omega)]

theorem Sound.memory_unrounded (h : Sound b) (hrounded : ¬b.Rounded) : b.memory.size = 0 :=
  alignedSize_wraps (Nat.lt_of_not_le hrounded) h.size

theorem place_memory (h : b.place bytes alignment = some (address, b')) :
    b'.data = b.data ∧ b'.size = b.size := by
  obtain ⟨-, -, -, rfl⟩ := place_cases h
  exact ⟨rfl, rfl⟩

end Blocks

/-! ## Steps -/

section Steps

variable {run : ArenaRun} {bytes alignment fresh : ℕ}

/-- Bytes of nothing lie in no block: not in the one without memory that they are said to
be in, and not in another one. -/
theorem Safe.outside (h : run.Safe) {i address : ℕ} (hi : i < run.arena.numBlocks)
    (haddress : address = (run.arena.blocks i).data) (hbytes : bytes ≠ 0)
    (hempty : (run.arena.blocks i).memory.size = 0) :
    ∀ j < run.arena.numBlocks,
      ¬Region.Within ⟨address, bytes⟩ (run.arena.blocks j).memory := by
  intro j hj hwithin
  have hstart : (run.arena.blocks i).memory.start = (run.arena.blocks i).data := rfl
  have hstart' : (run.arena.blocks j).memory.start = (run.arena.blocks j).data := rfl
  unfold Region.Within Region.stop at hwithin
  dsimp only at hwithin
  by_cases hij : i = j
  · subst hij
    omega
  · obtain ⟨hapart, hne⟩ := h.apart i hi j hj hij
    unfold Region.Apart Region.stop at hapart
    omega

theorem update_memory {blocks : ℕ → Block} {i : ℕ} {b : Block}
    (hb : b.data = (blocks i).data ∧ b.size = (blocks i).size) (j : ℕ) :
    (Function.update blocks i b j).memory = (blocks j).memory ∧
      (Function.update blocks i b j).data = (blocks j).data := by
  by_cases hji : j = i
  · subst hji
    rw [Function.update_self, Block.memory, Block.memory, hb.1, hb.2]
    exact ⟨rfl, rfl⟩
  · rw [Function.update_of_ne hji]
    exact ⟨rfl, rfl⟩

theorem Safe.placed_iff (h : run.Safe) (hbytes : bytes ≠ 0)
    (hvalid : isValidAlignment alignment = true) {i address : ℕ} {b : Block}
    (hplaced : run.arena.placed bytes alignment = some (i, address, b)) :
    run.Contained (.allocate bytes alignment fresh) ↔
      (run.arena.blocks i).Rounded ∧
        (run.arena.blocks i).used + (run.arena.blocks i).padding alignment + bytes < 2 ^ 64 := by
  obtain ⟨hi, hplace⟩ := Arena.placed_spec hplaced
  have hsound := h.sound i hi
  have hmemory (j : ℕ) := @update_memory run.arena.blocks i _ (place_memory hplace) j
  simp only [Contained, Arena.allocate_eq hbytes hvalid, hplaced, Arena.takeFrom, hmemory]
  constructor
  · rintro ⟨hinside, -, -⟩
    by_contra hnot
    by_cases hrounded : (run.arena.blocks i).Rounded
    · have hsum := Nat.le_of_not_lt fun hlt => hnot ⟨hrounded, hlt⟩
      obtain ⟨haddress, hstop⟩ := hsound.place_wraps hvalid hrounded hsum hplace
      obtain ⟨j, hj, hwithin⟩ := hinside haddress
      have hend := (h.sound j hj).stop
      unfold Region.Within Region.stop Block.memory at hwithin
      dsimp only at hwithin
      omega
    · have haddress := hsound.place_unrounded hvalid hrounded hplace
      obtain ⟨j, hj, hwithin⟩ := hinside (haddress ▸ hsound.data_ne)
      exact h.outside hi haddress hbytes (hsound.memory_unrounded hrounded) j hj hwithin
  · rintro ⟨hrounded, hsum⟩
    obtain ⟨haddress, hwithin, hsize, hb, -⟩ := hsound.place_fits hvalid hrounded hsum hplace
    refine ⟨fun _ => ⟨i, hi, hwithin⟩, fun j hj => ?_, fun hlarge => ?_⟩
    · by_cases hji : j = i
      · rw [hji, Function.update_self, hb]
        dsimp only
        omega
      · rw [Function.update_of_ne hji]
    · exact absurd (hlarge i hi) (Nat.not_lt.mpr hsize)

theorem newUsed_eq (hvalid : isValidAlignment alignment = true) (haligned : fresh % 64 = 0)
    (hfresh : fresh < 2 ^ 64) (hbytes : bytes < 2 ^ 64) :
    Arena.newUsed bytes alignment fresh = bytes := by
  rw [Arena.newUsed, alignUp_self hvalid haligned hfresh]
  omega

theorem Safe.newBlockSize_lt (h : run.Safe) (bytes : ℕ) : run.arena.newBlockSize bytes < 2 ^ 64 :=
  max_lt h.blockSize (Nat.mod_lt _ (by decide))

/-- A call that returns null leaves what is in use as it is. -/
theorem contained_of_null (hnull : (run.arena.allocate bytes alignment fresh).1 = 0)
    (hsame : ∀ i < run.arena.numBlocks,
      ((run.arena.allocate bytes alignment fresh).2.blocks i).used = (run.arena.blocks i).used) :
    run.Contained (.allocate bytes alignment fresh) :=
  ⟨fun hne => absurd hnull hne, fun i hi => (hsame i hi).ge, fun _ => ⟨hnull, hsame⟩⟩

theorem Safe.new_iff (h : run.Safe) (hreceived : run.Received (.allocate bytes alignment fresh))
    (hbytes : bytes ≠ 0) (hvalid : isValidAlignment alignment = true)
    (hplaced : run.arena.placed bytes alignment = none) :
    run.Contained (.allocate bytes alignment fresh) ↔
      (run.arena.numBlocks < MAX_BLOCKS → fresh ≠ 0 → bytes ≤ run.arena.newBlockSize bytes →
        run.arena.newBlockSize bytes ≤ 2 ^ 64 - 64) := by
  have hallocate : run.arena.allocate bytes alignment fresh =
      run.arena.allocateFromNewBlock bytes alignment fresh := by
    rw [Arena.allocate_eq hbytes hvalid, hplaced]
  have hkept (blocks : ℕ → Block) (b : Block) (i : ℕ) (hi : i < run.arena.numBlocks) :
      Function.update blocks run.arena.numBlocks b i = blocks i :=
    Function.update_of_ne (Nat.ne_of_lt hi) _ _
  by_cases hcount : MAX_BLOCKS ≤ run.arena.numBlocks
  · have heq := hallocate.trans (Arena.allocateFromNewBlock_full hcount)
    refine iff_of_true (contained_of_null (by rw [heq]) fun i hi => by rw [heq]) ?_
    intro hroom
    exact absurd hcount (Nat.not_le.mpr hroom)
  by_cases hfresh : fresh = 0
  · rw [hfresh] at hallocate ⊢
    have heq := hallocate.trans (Arena.allocateFromNewBlock_null hcount)
    refine iff_of_true (contained_of_null (by rw [heq]) fun i hi => ?_) ?_
    · rw [heq]
      exact congrArg Chunk.used (hkept _ _ i hi)
    · exact fun _ hne => absurd rfl hne
  obtain ⟨hword, hmemory⟩ := hreceived
  obtain ⟨haligned, hstop, hapart⟩ := hmemory hfresh
  have hsize := h.newBlockSize_lt bytes
  have hstart : alignUp fresh alignment = fresh := alignUp_self hvalid haligned (by omega)
  have heq := hallocate.trans (Arena.allocateFromNewBlock_fresh hcount hfresh)
  rw [newUsed_eq hvalid haligned (by omega) hword, hstart] at heq
  by_cases hfits : run.arena.newBlockSize bytes < bytes
  · rw [if_pos hfits] at heq
    refine iff_of_true (contained_of_null (by rw [heq]) fun i hi => ?_) ?_
    · rw [heq]
      exact congrArg Chunk.used (hkept _ _ i hi)
    · exact fun _ _ hle => absurd hfits (Nat.not_lt.mpr hle)
  rw [if_neg hfits] at heq
  simp only [Contained, heq, Arena.takeFrom, Arena.withBlock]
  generalize run.arena.newBlockSize bytes = size at *
  constructor
  · rintro ⟨hinside, -, -⟩ - - -
    by_contra hlarge
    have hwraps := alignedSize_wraps (Nat.lt_of_not_le hlarge) hsize
    obtain ⟨j, hj, hwithin⟩ := hinside hfresh
    by_cases hnew : j = run.arena.numBlocks
    · rw [hnew, Function.update_self] at hwithin
      obtain ⟨-, hend⟩ := hwithin
      change fresh + bytes ≤ fresh + alignedSize size at hend
      omega
    · have hold : j < run.arena.numBlocks := by omega
      rw [hkept _ _ j hold, hkept _ _ j hold] at hwithin
      obtain ⟨hbefore, hne⟩ := hapart j hold
      have hdata : (run.arena.blocks j).memory.start = (run.arena.blocks j).data := rfl
      unfold Region.Within Region.Apart Region.stop at *
      dsimp only at *
      omega
  · intro hrounded
    have hfitted := hrounded (Nat.not_le.mp hcount) hfresh (Nat.le_of_not_lt hfits)
    have hle := (alignedSize_spec hfitted).1
    have hnewBlock : ∀ blocks : ℕ → Block,
        (Function.update blocks run.arena.numBlocks
          ({ data := fresh, size := size, used := bytes } : Block) run.arena.numBlocks).memory =
            ⟨fresh, alignedSize size⟩ := by
      intro blocks
      rw [Function.update_self]
      rfl
    refine ⟨fun _ => ⟨run.arena.numBlocks, Nat.lt_succ_self _, ?_⟩, fun j hj => ?_, fun hlarge => ?_⟩
    · rw [hnewBlock]
      refine ⟨le_rfl, ?_⟩
      show fresh + bytes ≤ fresh + alignedSize size
      omega
    · rw [hkept _ _ j hj, hkept _ _ j hj]
    · have hnone := hlarge run.arena.numBlocks (Nat.lt_succ_self _)
      rw [hnewBlock] at hnone
      dsimp only at hnone
      omega

theorem Safe.contained_iff (h : run.Safe) {call : ArenaCall} (hreceived : run.Received call) :
    run.Contained call ↔ run.Unwrapped call := by
  cases call with
  | reset => exact Iff.rfl
  | allocate bytes alignment fresh =>
    unfold Unwrapped
    by_cases hrefused : bytes = 0 ∨ isValidAlignment alignment = false
    · refine iff_of_true ?_ ?_
      · apply contained_of_null <;> simp [Arena.allocate_refused hrefused]
      · intro hbytes hvalid
        rcases hrefused with hzero | hinvalid
        · exact absurd hzero hbytes
        · rw [hinvalid] at hvalid
          exact absurd hvalid Bool.false_ne_true
    · rw [not_or, Bool.not_eq_false] at hrefused
      simp only [ne_eq, hrefused.1, not_false_eq_true, hrefused.2, forall_const]
      cases hplaced : run.arena.placed bytes alignment with
      | none => exact h.new_iff hreceived hrefused.1 hrefused.2 hplaced
      | some placed => exact h.placed_iff hrefused.1 hrefused.2 hplaced

theorem Safe.of_same (h : run.Safe) {next : ArenaRun}
    (hsize : next.arena.blockSize = run.arena.blockSize)
    (hcount : next.arena.numBlocks = run.arena.numBlocks)
    (hblocks : ∀ i < run.arena.numBlocks, Sound (next.arena.blocks i) ∧
      (next.arena.blocks i).data = (run.arena.blocks i).data ∧
      (next.arena.blocks i).size = (run.arena.blocks i).size) : next.Safe := by
  constructor
  · exact hsize ▸ h.blockSize
  · intro i hi
    exact (hblocks i (hcount ▸ hi)).1
  · intro i hi j hj hne
    rw [hcount] at hi hj
    obtain ⟨-, hdata, hsize⟩ := hblocks i hi
    obtain ⟨-, hdata', hsize'⟩ := hblocks j hj
    unfold Block.memory
    rw [hdata, hsize, hdata', hsize']
    exact h.apart i hi j hj hne

theorem Safe.extended (h : run.Safe) {next : ArenaRun} {b : Block} (hb : Sound b)
    (hapart : ∀ i < run.arena.numBlocks,
      Region.Apart b.memory (run.arena.blocks i).memory ∧ b.data ≠ (run.arena.blocks i).data)
    (hsize : next.arena.blockSize = run.arena.blockSize)
    (hcount : next.arena.numBlocks = run.arena.numBlocks + 1)
    (hold : ∀ i < run.arena.numBlocks, next.arena.blocks i = run.arena.blocks i)
    (hnew : next.arena.blocks run.arena.numBlocks = b) : next.Safe := by
  constructor
  · exact hsize ▸ h.blockSize
  · intro i hi
    rcases Nat.lt_succ_iff_lt_or_eq.mp (hcount ▸ hi) with hlt | rfl
    · exact hold i hlt ▸ h.sound i hlt
    · exact hnew ▸ hb
  · intro i hi j hj hne
    rcases Nat.lt_succ_iff_lt_or_eq.mp (hcount ▸ hi) with hi' | rfl
    · rcases Nat.lt_succ_iff_lt_or_eq.mp (hcount ▸ hj) with hj' | rfl
      · rw [hold i hi', hold j hj']
        exact h.apart i hi' j hj' hne
      · rw [hold i hi', hnew]
        exact ⟨(hapart i hi').1.symm, (hapart i hi').2.symm⟩
    · rcases Nat.lt_succ_iff_lt_or_eq.mp (hcount ▸ hj) with hj' | rfl
      · rw [hnew, hold j hj']
        exact hapart j hj'
      · exact absurd rfl hne

theorem Safe.refused (h : run.Safe) {next : ArenaRun} (heq : next.arena = run.arena) :
    next.Safe :=
  h.of_same (by rw [heq]) (by rw [heq]) fun i hi => by
    rw [heq]
    exact ⟨h.sound i hi, rfl, rfl⟩

theorem Safe.new (h : run.Safe) (hreceived : run.Received (.allocate bytes alignment fresh))
    (hvalid : isValidAlignment alignment = true)
    (hcondition : run.arena.numBlocks < MAX_BLOCKS → fresh ≠ 0 →
      bytes ≤ run.arena.newBlockSize bytes → run.arena.newBlockSize bytes ≤ 2 ^ 64 - 64)
    {next : ArenaRun}
    (hnext : next.arena = (run.arena.allocateFromNewBlock bytes alignment fresh).2) :
    next.Safe := by
  have hkept (blocks : ℕ → Block) (b : Block) (i : ℕ) (hi : i < run.arena.numBlocks) :
      Function.update blocks run.arena.numBlocks b i = blocks i :=
    Function.update_of_ne (Nat.ne_of_lt hi) _ _
  by_cases hcount : MAX_BLOCKS ≤ run.arena.numBlocks
  · rw [Arena.allocateFromNewBlock_full hcount] at hnext
    exact h.refused hnext
  by_cases hfresh : fresh = 0
  · rw [hfresh, Arena.allocateFromNewBlock_null hcount] at hnext
    refine h.of_same (by rw [hnext]) (by rw [hnext]) fun i hi => ?_
    rw [hnext]
    dsimp only
    rw [hkept _ _ i hi]
    exact ⟨h.sound i hi, rfl, rfl⟩
  obtain ⟨hword, hmemory⟩ := hreceived
  obtain ⟨haligned, hstop, hapart⟩ := hmemory hfresh
  have hsize := h.newBlockSize_lt bytes
  have hused := newUsed_eq hvalid haligned (show fresh < 2 ^ 64 by omega) hword
  rw [Arena.allocateFromNewBlock_fresh hcount hfresh, hused] at hnext
  by_cases hfits : run.arena.newBlockSize bytes < bytes
  · rw [if_pos hfits] at hnext
    have hsound : Sound { data := fresh, size := run.arena.newBlockSize bytes, used := 0 } :=
      ⟨Nat.pos_of_ne_zero hfresh, haligned, hstop, hsize, Nat.zero_le _, fun _ => rfl⟩
    refine h.extended hsound hapart (by rw [hnext]; rfl) (by rw [hnext]; rfl) (fun i hi => ?_) ?_
    · rw [hnext]
      exact hkept _ _ i hi
    · rw [hnext]
      exact Function.update_self _ _ _
  · rw [if_neg hfits] at hnext
    have hle := Nat.le_of_not_lt hfits
    have hrounded := hcondition (Nat.not_le.mp hcount) hfresh hle
    have hsound : Sound { data := fresh, size := run.arena.newBlockSize bytes, used := bytes } :=
      ⟨Nat.pos_of_ne_zero hfresh, haligned, hstop, hsize, hle, fun hnot => absurd hrounded hnot⟩
    refine h.extended hsound hapart (by rw [hnext]; rfl) (by rw [hnext]; rfl) (fun i hi => ?_) ?_
    · rw [hnext]
      exact (hkept _ _ i hi).trans (hkept _ _ i hi)
    · rw [hnext]
      exact Function.update_self _ _ _

theorem Safe.placed (h : run.Safe) (hvalid : isValidAlignment alignment = true) {i address : ℕ}
    {b : Block} (hplaced : run.arena.placed bytes alignment = some (i, address, b))
    (hrounded : (run.arena.blocks i).Rounded)
    (hsum : (run.arena.blocks i).used + (run.arena.blocks i).padding alignment + bytes < 2 ^ 64)
    {next : ArenaRun} (hnext : next.arena = (run.arena.takeFrom bytes (i, address, b)).2) :
    next.Safe := by
  obtain ⟨hi, hplace⟩ := Arena.placed_spec hplaced
  have hsound := h.sound i hi
  obtain ⟨-, -, -, hb, hused⟩ := hsound.place_fits hvalid hrounded hsum hplace
  refine h.of_same (by rw [hnext]; rfl) (by rw [hnext]; rfl) fun j hj => ?_
  rw [hnext]
  simp only [Arena.takeFrom]
  by_cases hji : j = i
  · subst hji
    rw [Function.update_self]
    obtain ⟨hdata, hsize⟩ := place_memory hplace
    refine ⟨⟨?_, ?_, ?_, ?_, ?_, ?_⟩, hdata, hsize⟩
    · exact hdata ▸ hsound.nonnull
    · exact hdata ▸ hsound.aligned
    · rw [hdata, hsize]
      exact hsound.stop
    · exact hsize ▸ hsound.size
    · exact hsize ▸ hused
    · intro hnot
      unfold Block.Rounded at hnot hrounded
      rw [hsize] at hnot
      exact absurd hrounded hnot
  · rw [Function.update_of_ne hji]
    exact ⟨h.sound j hj, rfl, rfl⟩

theorem Safe.reset (h : run.Safe) : Safe { arena := run.arena.reset, live := [] } := by
  refine h.of_same rfl rfl fun i hi => ?_
  have hsound := h.sound i hi
  have hblock : run.arena.reset.blocks i = { run.arena.blocks i with used := 0 } := if_pos hi
  dsimp only
  rw [hblock]
  exact ⟨⟨hsound.nonnull, hsound.aligned, hsound.stop, hsound.size, Nat.zero_le _, fun _ => rfl⟩,
    rfl, rfl⟩

/-- The steps that meet the condition keep the blocks sound. -/
theorem Safe.step (h : run.Safe) {call : ArenaCall} (hreceived : run.Received call)
    (hunwrapped : run.Unwrapped call) {next : ArenaRun} (hstep : run.step call = some next) :
    next.Safe := by
  cases call with
  | reset =>
    rw [← Option.some.inj hstep]
    exact h.reset
  | allocate bytes alignment fresh =>
    have hnext : next.arena = (run.arena.allocate bytes alignment fresh).2 := by
      rw [← Option.some.inj hstep]
    by_cases hrefused : bytes = 0 ∨ isValidAlignment alignment = false
    · rw [Arena.allocate_refused hrefused] at hnext
      exact h.refused hnext
    rw [not_or, Bool.not_eq_false] at hrefused
    have hcondition := hunwrapped hrefused.1 hrefused.2
    rw [Arena.allocate_eq hrefused.1 hrefused.2] at hnext
    cases hplaced : run.arena.placed bytes alignment with
    | none =>
      rw [hplaced] at hcondition hnext
      exact h.new hreceived hrefused.2 hcondition hnext
    | some placed =>
      rw [hplaced] at hcondition hnext
      exact h.placed hrefused.2 hplaced hcondition.1 hcondition.2 hnext

end Steps

theorem safe_initial {blockSize : ℕ} (hblockSize : blockSize < 2 ^ 64) :
    (initial blockSize).Safe :=
  ⟨hblockSize, fun i hi => absurd hi (Nat.not_lt_zero i), fun i hi => absurd hi (Nat.not_lt_zero i)⟩

/-- Over every run the requests stay contained exactly if no sum that the search stops at
and no rounded size of a new block wraps. -/
theorem contained_exact_iff {blockSize : ℕ} (hblockSize : blockSize < 2 ^ 64)
    {calls : List ArenaCall} (hreceived : Along step Received (initial blockSize) calls) :
    Along step Contained (initial blockSize) calls ↔
      Along step Unwrapped (initial blockSize) calls :=
  along_iff_along (fun _ _ _ h hreceived hunwrapped => h.step hreceived hunwrapped)
    (fun _ _ h => h.contained_iff) (safe_initial hblockSize) hreceived

/-- A request for the rest of the address space behind a small one. -/
def wrappingCalls : List ArenaCall :=
  [.allocate 16 8 4096, .allocate (2 ^ 64 - 8) 8 0]

theorem contained_exact_iff_wrappingCalls :
    Along step Received (initial 128) wrappingCalls ∧
    (Along step Contained (initial 128) wrappingCalls ↔
      Along step Unwrapped (initial 128) wrappingCalls) := by
  have hreceived : Along step Received (initial 128) wrappingCalls := by decide +kernel
  exact ⟨hreceived, contained_exact_iff (by decide) hreceived⟩

/-- It is answered with the address behind the small one, and gives back half of it. -/
theorem wrappingCalls_uncontained : ¬Along step Contained (initial 128) wrappingCalls := by
  decide +kernel

end ArenaRun

end Memory
end Katana
