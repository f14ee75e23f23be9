import Katana.Memory.Arena

/-!
# Requests made again

A cycle of requests, all of which found memory, is made again behind a reset.  Its
blocks are all there from the start then.  Beside each other, the two runs agree on
the blocks that the first one has so far, and the later ones are still empty in the
second run; so the block that the first run adds is where the second one finds room
first.
-/

namespace Katana
namespace Memory

structure ArenaRequest where
  bytes : ℕ
  alignment : ℕ

namespace Arena

/-- The addresses that a sequence of requests is answered with; `fresh` are the
results of `aligned_alloc`, one for each request. -/
def allocateAll (a : Arena) (fresh : ℕ → UInt64) : List ArenaRequest → List ℕ × Arena
  | [] => ([], a)
  | request :: requests =>
      let first := a.allocate request.bytes request.alignment (fresh 0).toNat
      let rest := first.2.allocateAll (fun n => fresh (n + 1)) requests
      (first.1 :: rest.1, rest.2)

/-- The requests behind a reset, again and again. -/
def allocateCycles (requests : List ArenaRequest) :
    Arena → List (ℕ → UInt64) → List (List ℕ) × Arena
  | a, [] => ([], a)
  | a, fresh :: cycles =>
      let first := a.reset.allocateAll fresh requests
      let rest := allocateCycles requests first.2 cycles
      (first.1 :: rest.1, rest.2)

section Runs

variable {a r last : Arena} {bytes alignment fresh : ℕ}

theorem findSome?_range_eq_some {α : Type*} {f : ℕ → Option α} {n : ℕ} {x : α} :
    (List.range n).findSome? f = some x ↔ ∃ i < n, f i = some x ∧ ∀ j < i, f j = none := by
  induction n with
  | zero => simp
  | succ n ih =>
    rw [List.range_succ, List.findSome?_append, Option.or_eq_some_iff, ih,
      List.findSome?_eq_none_iff]
    simp only [List.mem_range, List.findSome?_singleton]
    constructor
    · rintro (⟨i, hi, hx, hbefore⟩ | ⟨hnone, hx⟩)
      · exact ⟨i, by omega, hx, hbefore⟩
      · exact ⟨n, by omega, hx, hnone⟩
    · rintro ⟨i, hi, hx, hbefore⟩
      rcases Nat.lt_succ_iff_lt_or_eq.mp hi with hlt | rfl
      · exact .inl ⟨i, hlt, hx, hbefore⟩
      · exact .inr ⟨hbefore, hx⟩

/-- What was handed out lies in a block there was, or in a new one. -/
theorem allocate_success (h : (a.allocate bytes alignment fresh).1 ≠ 0) :
    bytes ≠ 0 ∧ isValidAlignment alignment = true ∧
      ((∃ placed, a.placed bytes alignment = some placed ∧
          a.allocate bytes alignment fresh = a.takeFrom bytes placed) ∨
        a.placed bytes alignment = none ∧ fresh ≠ 0 ∧
          newUsed bytes alignment fresh ≤ a.newBlockSize bytes ∧
          a.allocate bytes alignment fresh =
            (a.withBlock (a.newBlockSize bytes) fresh).takeFrom bytes
              (a.numBlocks, alignUp fresh alignment,
                { data := fresh, size := a.newBlockSize bytes,
                  used := newUsed bytes alignment fresh })) := by
  by_cases hrefused : bytes = 0 ∨ isValidAlignment alignment = false
  · rw [allocate_refused hrefused] at h
    exact absurd rfl h
  rw [not_or, Bool.not_eq_false] at hrefused
  obtain ⟨hbytes, hvalid⟩ := hrefused
  refine ⟨hbytes, hvalid, ?_⟩
  rw [allocate_eq hbytes hvalid] at h ⊢
  cases hplaced : a.placed bytes alignment with
  | some placed => exact .inl ⟨placed, rfl, rfl⟩
  | none =>
    rw [hplaced] at h
    dsimp only at h ⊢
    by_cases hcount : MAX_BLOCKS ≤ a.numBlocks
    · rw [allocateFromNewBlock_full hcount] at h
      exact absurd rfl h
    by_cases hfresh : fresh = 0
    · rw [hfresh, allocateFromNewBlock_null hcount] at h
      exact absurd rfl h
    rw [allocateFromNewBlock_fresh hcount hfresh] at h ⊢
    by_cases hroom : a.newBlockSize bytes < newUsed bytes alignment fresh
    · rw [if_pos hroom] at h
      exact absurd rfl h
    · rw [if_neg hroom]
      exact .inr ⟨rfl, hfresh, Nat.not_lt.mp hroom, rfl⟩

/-- Blocks are only added and filled. -/
structure Grows (a last : Arena) : Prop where
  numBlocks : a.numBlocks ≤ last.numBlocks
  blocks : ∀ i < a.numBlocks,
    { last.blocks i with used := 0 : Block } = { a.blocks i with used := 0 }
  beyond : ∀ i, last.numBlocks ≤ i → last.blocks i = a.blocks i
  blockSize : last.blockSize = a.blockSize

theorem Grows.refl (a : Arena) : Grows a a :=
  ⟨le_rfl, fun _ _ => rfl, fun _ _ => rfl, rfl⟩

theorem Grows.trans (h : Grows a r) (h' : Grows r last) : Grows a last :=
  ⟨h.numBlocks.trans h'.numBlocks,
    fun i hi => (h'.blocks i (hi.trans_le h.numBlocks)).trans (h.blocks i hi),
    fun i hi => (h'.beyond i hi).trans (h.beyond i (h'.numBlocks.trans hi)),
    h'.blockSize.trans h.blockSize⟩

theorem place_same {b b' : Block} {address : ℕ} (h : b.place bytes alignment = some (address, b')) :
    { b' with used := 0 : Block } = { b with used := 0 } := by
  unfold Block.place at h
  split at h
  next =>
    dsimp only at h
    split at h
    next =>
      rw [Option.some.injEq, Prod.mk.injEq] at h
      rw [← h.2]
    next => cases h
  next => cases h

theorem allocate_grows (h : (a.allocate bytes alignment fresh).1 ≠ 0) :
    Grows a (a.allocate bytes alignment fresh).2 := by
  obtain ⟨-, -, hplaced | hnew⟩ := allocate_success h
  · obtain ⟨⟨i, address, b⟩, hplaced, heq⟩ := hplaced
    obtain ⟨hi, hplace⟩ := placed_spec hplaced
    rw [heq]
    refine ⟨le_rfl, fun j hj => ?_, fun j hj => ?_, rfl⟩
    · by_cases hsame : j = i
      · rw [hsame]
        simpa [takeFrom] using place_same hplace
      · simp [takeFrom, Function.update_of_ne hsame]
    · have hother : j ≠ i := fun hsame => absurd hi (Nat.not_lt.mpr (hsame ▸ hj))
      simp [takeFrom, Function.update_of_ne hother]
  · obtain ⟨-, -, -, heq⟩ := hnew
    rw [heq]
    refine ⟨Nat.le_succ _, fun j hj => ?_, fun j hj => ?_, rfl⟩
    · simp [takeFrom, withBlock, Function.update_of_ne (Nat.ne_of_lt hj)]
    · change a.numBlocks + 1 ≤ j at hj
      simp [takeFrom, withBlock, Function.update_of_ne (show j ≠ a.numBlocks by omega)]

theorem allocateAll_grows (requests : List ArenaRequest) (fresh : ℕ → UInt64)
    (h : ∀ address ∈ (a.allocateAll fresh requests).1, address ≠ 0) :
    Grows a (a.allocateAll fresh requests).2 := by
  induction requests generalizing a fresh with
  | nil => exact .refl a
  | cons request requests ih =>
    rw [allocateAll, List.forall_mem_cons] at h
    exact (allocate_grows h.1).trans (ih _ h.2)

/-! ## The second run beside the first -/

/-- The second run stands at `r` where the first one, which ends in `last`, stood at `a`. -/
structure Ahead (last a r : Arena) : Prop where
  grows : Grows a last
  current : a.currentBlockIndex < a.numBlocks ∨ a.numBlocks = 0 ∧ a.currentBlockIndex = 0
  blocks : ∀ i < a.numBlocks, r.blocks i = a.blocks i
  later : ∀ i, a.numBlocks ≤ i → i < last.numBlocks → r.blocks i = { last.blocks i with used := 0 }
  rest : r = { last with
    blocks := r.blocks
    currentBlockIndex := a.currentBlockIndex
    bytesAllocated := a.bytesAllocated }
  beyond : ∀ i, last.numBlocks ≤ i → r.blocks i = last.blocks i

theorem Ahead.numBlocks (h : Ahead last a r) : r.numBlocks = last.numBlocks := by
  rw [h.rest]

theorem Ahead.currentBlockIndex (h : Ahead last a r) :
    r.currentBlockIndex = a.currentBlockIndex := by
  rw [h.rest]

theorem Ahead.placeCurrent (h : Ahead last a r) (hcurrent : a.currentBlockIndex < a.numBlocks) :
    r.placeCurrent bytes alignment = a.placeCurrent bytes alignment := by
  unfold Arena.placeCurrent
  rw [h.currentBlockIndex, if_pos hcurrent, h.numBlocks,
    if_pos (hcurrent.trans_le h.grows.numBlocks), h.blocks _ hcurrent]

/-- A request that was placed finds the same room. -/
theorem Ahead.placed_some (h : Ahead last a r) {result : ℕ × ℕ × Block}
    (hplaced : a.placed bytes alignment = some result) :
    r.placed bytes alignment = some result := by
  have hinside := (placed_spec hplaced).1
  have hcurrent : a.currentBlockIndex < a.numBlocks := by
    rcases h.current with hcurrent | ⟨hempty, -⟩
    · exact hcurrent
    · omega
  unfold placed at hplaced ⊢
  rw [Option.or_eq_some_iff, h.placeCurrent hcurrent]
  rcases Option.or_eq_some_iff.mp hplaced with hfound | ⟨hnone, hfirst⟩
  · exact .inl hfound
  · refine .inr ⟨hnone, ?_⟩
    unfold placeFirst at hfirst ⊢
    obtain ⟨i, hi, hplace, hbefore⟩ := findSome?_range_eq_some.mp hfirst
    refine findSome?_range_eq_some.mpr ⟨i, ?_, ?_, fun j hj => ?_⟩
    · exact h.numBlocks ▸ hi.trans_le h.grows.numBlocks
    · rwa [h.blocks i hi]
    · rw [h.blocks j (hj.trans hi)]
      exact hbefore j hj

/-- Where the first run found no room, the second one finds it in the next block. -/
theorem Ahead.placed_new (h : Ahead last a r) (hplaced : a.placed bytes alignment = none)
    {address : ℕ} {b : Block} (hroom : a.numBlocks < last.numBlocks)
    (hplace : (r.blocks a.numBlocks).place bytes alignment = some (address, b)) :
    r.placed bytes alignment = some (a.numBlocks, address, b) := by
  unfold placed at hplaced ⊢
  rw [Option.or_eq_none_iff] at hplaced
  obtain ⟨hnone, hfirst⟩ := hplaced
  rw [Option.or_eq_some_iff]
  rcases h.current with hcurrent | ⟨hempty, hzero⟩
  · right
    refine ⟨by rwa [h.placeCurrent hcurrent], ?_⟩
    unfold placeFirst at hfirst ⊢
    rw [List.findSome?_eq_none_iff] at hfirst
    refine findSome?_range_eq_some.mpr ⟨a.numBlocks, by rwa [h.numBlocks], ?_, fun j hj => ?_⟩
    · rw [hplace]
      rfl
    · rw [h.blocks j hj]
      exact hfirst j (List.mem_range.mpr hj)
  · left
    rw [hempty] at hplace hroom ⊢
    rw [Arena.placeCurrent, h.currentBlockIndex, hzero, h.numBlocks, if_pos hroom, hplace]
    rfl

/-- The same block is taken from in both runs; in the first one it may be new. -/
theorem Ahead.takeFrom (h : Ahead last a r) {a' : Arena} {i address : ℕ} {b : Block}
    (hi : i < a'.numBlocks) (hle : a.numBlocks ≤ a'.numBlocks)
    (hsame : ∀ j < a'.numBlocks, j ≠ i → j < a.numBlocks ∧ a'.blocks j = a.blocks j)
    (hbytes : a'.bytesAllocated = a.bytesAllocated)
    (hgrows : Grows (a'.takeFrom bytes (i, address, b)).2 last) :
    Ahead last (a'.takeFrom bytes (i, address, b)).2 (r.takeFrom bytes (i, address, b)).2 := by
  have hlast : i < last.numBlocks := hi.trans_le hgrows.numBlocks
  have hrest := h.rest
  constructor
  · exact hgrows
  · exact .inl hi
  · intro j hj
    by_cases hji : j = i
    · simp [Arena.takeFrom, hji]
    · obtain ⟨hinside, heq⟩ := hsame j hj hji
      simp [Arena.takeFrom, Function.update_of_ne hji, heq, h.blocks j hinside]
  · intro j hj hjlast
    change a'.numBlocks ≤ j at hj
    have hji : j ≠ i := by omega
    simp [Arena.takeFrom, Function.update_of_ne hji, h.later j (hle.trans hj) hjlast]
  · simp only [Arena.takeFrom, hbytes]
    rw [hrest]
  · intro j hj
    have hji : j ≠ i := by omega
    simp [Arena.takeFrom, Function.update_of_ne hji, h.beyond j hj]

theorem Ahead.allocate (h : Ahead last a r) (again : ℕ) (hfresh : fresh < 2 ^ 64)
    (hsmall : bytes + MAX_ALIGNMENT < 2 ^ 64)
    (hsuccess : (a.allocate bytes alignment fresh).1 ≠ 0)
    (hgrows : Grows (a.allocate bytes alignment fresh).2 last) :
    (r.allocate bytes alignment again).1 = (a.allocate bytes alignment fresh).1 ∧
      Ahead last (a.allocate bytes alignment fresh).2 (r.allocate bytes alignment again).2 := by
  obtain ⟨hbytes, hvalid, hplaced | hnew⟩ := allocate_success hsuccess
  · obtain ⟨⟨i, address, b⟩, hplaced, heq⟩ := hplaced
    have hagain : r.allocate bytes alignment again = r.takeFrom bytes (i, address, b) := by
      rw [allocate_eq hbytes hvalid, h.placed_some hplaced]
    rw [heq] at hgrows ⊢
    rw [hagain]
    have hi := (placed_spec hplaced).1
    exact ⟨rfl, h.takeFrom hi le_rfl (fun j hj _ => ⟨hj, rfl⟩) rfl hgrows⟩
  · obtain ⟨hplaced, hnonnull, hroom, heq⟩ := hnew
    rw [heq] at hgrows ⊢
    have hinside : a.numBlocks < last.numBlocks := hgrows.numBlocks
    have hblock : r.blocks a.numBlocks =
        { data := fresh, size := a.newBlockSize bytes, used := 0 } := by
      rw [h.later _ le_rfl hinside, hgrows.blocks _ (Nat.lt_succ_self a.numBlocks)]
      simp [Arena.takeFrom]
    have hsize : 0 < a.newBlockSize bytes := by
      unfold newBlockSize
      rw [Nat.mod_eq_of_lt hsmall]
      exact lt_of_lt_of_le (Nat.succ_pos _) (le_max_right _ _)
    have hcurrent : Block.current { data := fresh, size := a.newBlockSize bytes, used := 0 } = fresh :=
      Nat.mod_eq_of_lt hfresh
    have hplace : (r.blocks a.numBlocks).place bytes alignment =
        some (alignUp fresh alignment,
          { data := fresh, size := a.newBlockSize bytes,
            used := newUsed bytes alignment fresh }) := by
      rw [hblock, Block.place, if_pos ⟨hnonnull, hsize⟩, Block.padding, hcurrent, Nat.zero_add]
      exact if_pos hroom
    have hagain : r.allocate bytes alignment again = r.takeFrom bytes
        (a.numBlocks, alignUp fresh alignment,
          { data := fresh, size := a.newBlockSize bytes,
            used := newUsed bytes alignment fresh }) := by
      rw [allocate_eq hbytes hvalid, h.placed_new hplaced hinside hplace]
    rw [hagain]
    refine ⟨rfl, h.takeFrom (Nat.lt_succ_self _) (Nat.le_succ _) (fun j hj hne => ?_) rfl hgrows⟩
    have hj' : j < a.numBlocks := by
      change j < a.numBlocks + 1 at hj
      omega
    exact ⟨hj', Function.update_of_ne hne _ _⟩

theorem Ahead.allocateAll (requests : List ArenaRequest)
    (hsmall : ∀ request ∈ requests, request.bytes + MAX_ALIGNMENT < 2 ^ 64)
    (fresh again : ℕ → UInt64)
    (hsuccess : ∀ address ∈ (a.allocateAll fresh requests).1, address ≠ 0)
    (h : Ahead (a.allocateAll fresh requests).2 a r) :
    r.allocateAll again requests = a.allocateAll fresh requests := by
  induction requests generalizing a r fresh again with
  | nil =>
    have hblocks : r.blocks = a.blocks := by
      funext i
      by_cases hi : i < a.numBlocks
      · exact h.blocks i hi
      · exact h.beyond i (Nat.le_of_not_lt hi)
    have hrest := h.rest
    rw [hblocks] at hrest
    exact congrArg (Prod.mk []) hrest
  | cons request requests ih =>
    rw [Arena.allocateAll, List.forall_mem_cons] at hsuccess
    rw [List.forall_mem_cons] at hsmall
    have hgrows := allocateAll_grows requests _ hsuccess.2
    obtain ⟨haddress, hahead⟩ :=
      h.allocate (again 0).toNat (fresh 0).toNat_lt hsmall.1 hsuccess.1 hgrows
    have hrest := ih hsmall.2 (fun n => fresh (n + 1)) (fun n => again (n + 1)) hsuccess.2 hahead
    simp only [Arena.allocateAll, haddress, hrest]

/-- Behind another reset the second run stands where the first one began. -/
theorem ahead_reset (hgrows : Grows a last) (hused : ∀ i < a.numBlocks, (a.blocks i).used = 0)
    (hcurrent : a.currentBlockIndex = 0) (hbytes : a.bytesAllocated = 0) :
    Ahead last a last.reset := by
  constructor
  · exact hgrows
  · omega
  · intro i hi
    have hsame := hgrows.blocks i hi
    simp only [reset, if_pos (hi.trans_le hgrows.numBlocks), hsame]
    rw [← hused i hi]
  · intro i _ hi
    exact if_pos hi
  · rw [hcurrent, hbytes]
    rfl
  · intro i hi
    exact if_neg (Nat.not_lt.mpr hi)

end Runs

/-- A cycle of requests that all found memory behind a reset is answered in the same way
in every further cycle, and leaves the arena with the blocks that it has. -/
theorem allocateCycles_stable (a : Arena) (requests : List ArenaRequest) (fresh : ℕ → UInt64)
    (hsmall : ∀ request ∈ requests, request.bytes + MAX_ALIGNMENT < 2 ^ 64)
    (hsuccess : ∀ address ∈ (a.reset.allocateAll fresh requests).1, address ≠ 0)
    (cycles : List (ℕ → UInt64)) :
    allocateCycles requests (a.reset.allocateAll fresh requests).2 cycles =
      (List.replicate cycles.length (a.reset.allocateAll fresh requests).1,
        (a.reset.allocateAll fresh requests).2) := by
  have hgrows := allocateAll_grows requests fresh hsuccess
  have hused : ∀ i < a.reset.numBlocks, (a.reset.blocks i).used = 0 := by
    intro i hi
    change i < a.numBlocks at hi
    simp [reset, hi]
  have hahead := ahead_reset hgrows hused rfl rfl
  induction cycles with
  | nil => rfl
  | cons again cycles ih =>
    simp only [allocateCycles, hahead.allocateAll requests hsmall fresh again hsuccess, ih]
    rfl

def twoRequests : List ArenaRequest :=
  [⟨10, 8⟩, ⟨100, 16⟩]

def twoBlocks : ℕ → UInt64
  | 0 => 4096
  | _ => 8192

theorem twoRequests_answered :
    (reset { blockSize := 64 } |>.allocateAll twoBlocks twoRequests).1 = [4096, 8192] := by
  decide +kernel

theorem allocateCycles_stable_twoRequests :
    allocateCycles twoRequests (reset { blockSize := 64 } |>.allocateAll twoBlocks twoRequests).2
        [fun _ => 0] =
      ([[4096, 8192]], (reset { blockSize := 64 } |>.allocateAll twoBlocks twoRequests).2) := by
  have hstable := allocateCycles_stable { blockSize := 64 } twoRequests twoBlocks
    (by decide) (by rw [twoRequests_answered]; decide) [fun _ => 0]
  rw [twoRequests_answered] at hstable
  exact hstable

end Arena

end Memory
end Katana
