import Mathlib

/-!
# Searching block by block

A search for the first place where something holds, put together from searches of
ranges that follow each other.  A search fails where it reads outside its text.
Within a block the places are the lanes of a vector, and the first one is read off
a mask of them.
-/

namespace Katana
namespace Library

section Ranges

variable {At : ℕ → Prop} {i j n : ℕ}

/-- The answer names the first place from `i` on, or says that there is none before
`j`. -/
def FirstIn (At : ℕ → Prop) (i j : ℕ) : Option ℕ → Prop
  | some pos => i ≤ pos ∧ pos < j ∧ At pos ∧ ∀ p, i ≤ p → p < pos → ¬At p
  | none => ∀ p, i ≤ p → p < j → ¬At p

/-- The search does not fail and its answer is right for the range. -/
def Finds (At : ℕ → Prop) (i j : ℕ) (search : Option (Option ℕ)) : Prop :=
  ∃ result, search = some result ∧ FirstIn At i j result

theorem FirstIn.unique {result other : Option ℕ} (h : FirstIn At i j result)
    (h' : FirstIn At i j other) : result = other := by
  cases result with
  | none =>
    cases other with
    | none => rfl
    | some pos => exact absurd h'.2.2.1 (h pos h'.1 h'.2.1)
  | some pos =>
    cases other with
    | none => exact absurd h.2.2.1 (h' pos h.1 h.2.1)
    | some pos' =>
      have hle : pos ≤ pos' := by
        by_contra hlt
        exact h.2.2.2 pos' h'.1 (by omega) h'.2.2.1
      have hge : pos' ≤ pos := by
        by_contra hlt
        exact h'.2.2.2 pos h.1 (by omega) h.2.2.1
      rw [Nat.le_antisymm hle hge]

/-- A range with no place in front of another range. -/
theorem FirstIn.behind {result : Option ℕ} (hresult : FirstIn At j n result)
    (hnone : FirstIn At i j none) (hij : i ≤ j) : FirstIn At i n result := by
  cases result with
  | none =>
    intro p hlow hhigh
    by_cases hp : p < j
    · exact hnone p hlow hp
    · exact hresult p (Nat.le_of_not_lt hp) hhigh
  | some pos =>
    refine ⟨hij.trans hresult.1, hresult.2.1, hresult.2.2.1, fun p hlow hhigh => ?_⟩
    by_cases hp : p < j
    · exact hnone p hlow hp
    · exact hresult.2.2.2 p (Nat.le_of_not_lt hp) hhigh

theorem Finds.eq {search : Option (Option ℕ)} {result : Option ℕ} (h : Finds At i j search)
    (hresult : FirstIn At i j result) : search = some result := by
  obtain ⟨found, hsearch, hfound⟩ := h
  rw [hsearch, hfound.unique hresult]

theorem Finds.nothing (hempty : j ≤ i) : Finds At i j (some none) :=
  ⟨none, rfl, fun _ hlow hhigh => absurd (hlow.trans_lt hhigh) (Nat.not_lt.mpr hempty)⟩

/-- The second search is made where the first one finds nothing. -/
def thenSearch (first rest : Option (Option ℕ)) : Option (Option ℕ) :=
  first.bind fun
    | some pos => some (some pos)
    | none => rest

theorem Finds.thenSearch {first rest : Option (Option ℕ)} (hfirst : Finds At i j first)
    (hrest : Finds At j n rest) (hij : i ≤ j) (hjn : j ≤ n) :
    Finds At i n (thenSearch first rest) := by
  obtain ⟨result, rfl, hresult⟩ := hfirst
  cases result with
  | some pos => exact ⟨some pos, rfl, hresult.1, hresult.2.1.trans_le hjn, hresult.2.2⟩
  | none =>
    obtain ⟨found, rfl, hfound⟩ := hrest
    exact ⟨found, rfl, hfound.behind hresult hij⟩

/-- The blocks at the given places, one behind the other. -/
def searchBlocks (block : ℕ → Option (Option ℕ)) : List ℕ → Option (Option ℕ)
  | [] => some none
  | i :: places => thenSearch (block i) (searchBlocks block places)

/-- The block at `i` is read wherever it ends before `length`. -/
def BlockFinds (At : ℕ → Prop) (width length : ℕ) (block : ℕ → Option (Option ℕ)) : Prop :=
  ∀ i, i + width + 1 ≤ length → Finds At i (i + width) (block i)

/-- Blocks of one width that follow each other search what they cover. -/
theorem BlockFinds.searchBlocks {block : ℕ → Option (Option ℕ)} {width length : ℕ}
    (h : BlockFinds At width length block) (count : ℕ) (hroom : i + count * width + 1 ≤ length) :
    Finds At i (i + count * width)
      (searchBlocks block ((List.range count).map fun b => i + b * width)) := by
  induction count generalizing i with
  | zero => exact .nothing (by omega)
  | succ count ih =>
    have hsucc : (count + 1) * width = width + count * width := by rw [Nat.succ_mul, Nat.add_comm]
    have hshift : ((List.range (count + 1)).map fun b => i + b * width) =
        i :: (List.range count).map fun b => i + width + b * width := by
      rw [List.range_succ_eq_map, List.map_cons, List.map_map, Nat.zero_mul, Nat.add_zero]
      congr 1
      apply List.map_congr_left
      intro b hb
      simp only [Function.comp_apply, Nat.succ_mul]
      omega
    rw [hshift, hsucc, ← Nat.add_assoc]
    exact (h i (by omega)).thenSearch (ih (by omega)) (by omega) (by omega)

end Ranges

section Lanes

/-- The number whose bits are the lanes. -/
def movemask : List Bool → ℕ
  | [] => 0
  | lane :: lanes => lane.toNat + 2 * movemask lanes

/-- How many zero bits a number ends in. -/
def ctz (mask : ℕ) : ℕ :=
  if mask = 0 then 0
  else if mask % 2 = 1 then 0
  else ctz (mask / 2) + 1

theorem movemask_eq_zero_iff {lanes : List Bool} : movemask lanes = 0 ↔ true ∉ lanes := by
  induction lanes with
  | nil => simp [movemask]
  | cons lane lanes ih => cases lane <;> simp [movemask, ih]

/-- The complement of a mask is the mask of the other lanes. -/
theorem movemask_add_not (lanes : List Bool) :
    movemask lanes + movemask (lanes.map (!·)) + 1 = 2 ^ lanes.length := by
  induction lanes with
  | nil => rfl
  | cons lane lanes ih =>
    rw [List.length_cons, Nat.pow_succ, ← ih, List.map_cons, movemask, movemask]
    cases lane with
    | true =>
      simp only [Bool.toNat_true, Bool.not_true, Bool.toNat_false]
      ring
    | false =>
      simp only [Bool.toNat_true, Bool.not_false, Bool.toNat_false]
      ring

/-- The first bit of the mask is the first lane that is set. -/
theorem ctz_movemask {lanes : List Bool} (h : true ∈ lanes) :
    lanes[ctz (movemask lanes)]? = some true ∧
      ∀ p < ctz (movemask lanes), lanes[p]? ≠ some true := by
  induction lanes with
  | nil => exact absurd h List.not_mem_nil
  | cons lane lanes ih =>
    cases lane with
    | true =>
      have hfirst : ctz (movemask (true :: lanes)) = 0 := by
        rw [movemask, ctz, Bool.toNat_true, if_neg (by omega), if_pos (by omega)]
      rw [hfirst]
      exact ⟨rfl, fun p hp => absurd hp (Nat.not_lt_zero p)⟩
    | false =>
      have hmem : true ∈ lanes := by simpa using h
      have hsome : movemask lanes ≠ 0 := fun hzero => movemask_eq_zero_iff.mp hzero hmem
      have hnext : ctz (movemask (false :: lanes)) = ctz (movemask lanes) + 1 := by
        rw [movemask, ctz, Bool.toNat_false, if_neg (by omega), if_neg (by omega)]
        congr 2
        omega
      obtain ⟨hat, hbefore⟩ := ih hmem
      rw [hnext]
      refine ⟨hat, fun p hp => ?_⟩
      cases p with
      | zero => simp
      | succ p => exact hbefore p (by omega)

/-- The block whose lanes say where something holds. -/
theorem finds_movemask {At : ℕ → Prop} {i : ℕ} {lanes : List Bool}
    (hlanes : ∀ p < lanes.length, lanes[p]? = some true ↔ At (i + p)) :
    Finds At i (i + lanes.length)
      (if movemask lanes ≠ 0 then some (some (i + ctz (movemask lanes))) else some none) := by
  by_cases hmem : true ∈ lanes
  · obtain ⟨hat, hbefore⟩ := ctz_movemask hmem
    have hinside := (List.getElem?_eq_some_iff.mp hat).1
    rw [if_pos (movemask_eq_zero_iff.not.mpr (not_not.mpr hmem))]
    refine ⟨_, rfl, Nat.le_add_right _ _, by omega, (hlanes _ hinside).mp hat, ?_⟩
    intro p hlow hhigh hp
    apply hbefore (p - i) (by omega)
    rwa [hlanes _ (by omega), Nat.add_sub_cancel' hlow]
  · rw [if_neg (not_not.mpr (movemask_eq_zero_iff.mpr hmem))]
    refine ⟨none, rfl, fun p hlow hhigh hp => hmem ?_⟩
    rw [← Nat.add_sub_cancel' hlow, ← hlanes _ (by omega)] at hp
    exact List.mem_of_getElem? hp

/-- A vector of bytes as a number, the first byte the lowest. -/
def littleEndian : List UInt8 → ℕ
  | [] => 0
  | byte :: bytes => byte.toNat + 256 * littleEndian bytes

theorem littleEndian_byte (bytes : List UInt8) (p : ℕ) :
    littleEndian bytes >>> (p * 8) &&& 0xFF = (bytes[p]?.getD 0).toNat := by
  rw [show (0xFF : ℕ) = 2 ^ 8 - 1 by rfl, Nat.and_two_pow_sub_one_eq_mod, Nat.shiftRight_eq_div_pow]
  induction bytes generalizing p with
  | nil => simp [littleEndian]
  | cons byte bytes ih =>
    have hbyte : byte.toNat < 256 := byte.toNat_lt
    cases p with
    | zero =>
      simp only [littleEndian, Nat.zero_mul, Nat.pow_zero, Nat.div_one, List.getElem?_cons_zero,
        Option.getD_some]
      omega
    | succ p =>
      have hshift : littleEndian (byte :: bytes) / 2 ^ ((p + 1) * 8) =
          littleEndian bytes / 2 ^ (p * 8) := by
        rw [show (p + 1) * 8 = 8 + p * 8 by ring, Nat.pow_add, ← Nat.div_div_eq_div_mul,
          littleEndian]
        congr 1
        omega
      rw [hshift, ih]
      rfl

/-- The first of `count` bytes of a number that is not zero. -/
def firstByte (count word : ℕ) : Option ℕ :=
  (List.range count).find? fun p => (word >>> (p * 8)) &&& 0xFF ≠ 0

theorem finds_firstByte {At : ℕ → Prop} {i : ℕ} {bytes : List UInt8}
    (hbytes : ∀ p < bytes.length, bytes[p]?.getD 0 ≠ 0 ↔ At (i + p)) :
    Finds At i (i + bytes.length)
      (some ((if littleEndian bytes ≠ 0 then firstByte bytes.length (littleEndian bytes)
        else none).map (i + ·))) := by
  have hbyte (p : ℕ) (hp : p < bytes.length) :
      (littleEndian bytes >>> (p * 8)) &&& 0xFF ≠ 0 ↔ At (i + p) := by
    rw [littleEndian_byte, ← hbytes p hp, ← UInt8.toNat_zero, Ne, UInt8.toNat_inj]
  have hnone (hall : ∀ p < bytes.length, (littleEndian bytes >>> (p * 8)) &&& 0xFF = 0) :
      FirstIn At i (i + bytes.length) none := by
    intro p hlow hhigh
    have hp := hbyte (p - i) (by omega)
    rw [Nat.add_sub_cancel' hlow] at hp
    rw [← hp, not_not]
    exact hall _ (by omega)
  refine ⟨_, rfl, ?_⟩
  split
  next hword =>
    cases hfind : firstByte bytes.length (littleEndian bytes) with
    | none =>
      apply hnone
      intro p hp
      have hp' := List.find?_eq_none.mp hfind p (List.mem_range.mpr hp)
      simpa using hp'
    | some pos =>
      obtain ⟨hat, hmem, hbefore⟩ := List.find?_range_eq_some.mp hfind
      have hinside := List.mem_range.mp hmem
      show i ≤ i + pos ∧ i + pos < i + bytes.length ∧ At (i + pos) ∧ _
      refine ⟨by omega, by omega, (hbyte pos hinside).mp (of_decide_eq_true hat), ?_⟩
      intro p hlow hhigh hp
      have hbefore' := hbefore (p - i) (by change p < i + pos at hhigh; omega)
      have hp' := hbyte (p - i) (by change p < i + pos at hhigh; omega)
      rw [Nat.add_sub_cancel' hlow] at hp'
      simp [hp'.mpr hp] at hbefore'
  next hword =>
    apply hnone
    intro p hp
    rw [not_not.mp hword, Nat.zero_shiftRight, Nat.zero_and]

end Lanes

end Library
end Katana
