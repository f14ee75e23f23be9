import Katana.Http.Bytes
import Katana.Library.BlockSearch
import Katana.Library.Storage

/-!
# The search for the end of a line

`simd::find_crlf` in its four versions.  A byte or a vector is loaded from the
given range only, and a load that does not lie inside it fails.  A vector is the
list of its lanes.  Prefetches load nothing and are left out.  A position in the
range plus the width of a block stays below the size of the address space.
-/

namespace Katana
namespace Http

open Library

/-- The test of the scalar loop at one position. -/
def crlfAt (data : List Byte) (i : ℕ) : Option Bool := do
  let byte ← data[i]?
  if byte = CR then
    let next ← data[i + 1]?
    return next == LF
  else
    return false

def scalarLoop (data : List Byte) (i : ℕ) : Option (Option ℕ) :=
  if i ≤ data.length - 2 then
    match crlfAt data i with
    | none => none
    | some true => some (some i)
    | some false => scalarLoop data (i + 1)
  else
    some none
termination_by data.length + 1 - i

def findCrlfScalar (data : List Byte) : Option (Option ℕ) :=
  if data.length < 2 then some none else scalarLoop data 0

/-- The scalar search of what is left behind the blocks. -/
def scalarTail (data : List Byte) (i : ℕ) : Option (Option ℕ) :=
  (findCrlfScalar (data.drop i)).map (Option.map (i + ·))

/-- One block of the x86 versions. -/
def maskBlock (width : ℕ) (data : List Byte) (i : ℕ) : Option (Option ℕ) := do
  let chunk ← load data i width
  let nextChunk ← load data (i + 1) width
  let crMatch := chunk.map (· == CR)
  let lfMatch := nextChunk.map (· == LF)
  let mask := movemask (List.zipWith (· && ·) crMatch lfMatch)
  if mask ≠ 0 then
    return some (i + ctz mask)
  else
    return none

def laneMatch (chunk : List Byte) (byte : Byte) : List Byte :=
  chunk.map fun lane => if lane = byte then 0xFF else 0

/-- One block of the NEON version. -/
def neonBlock (data : List Byte) (i : ℕ) : Option (Option ℕ) := do
  let chunk ← load data i 16
  let nextChunk ← load data (i + 1) 16
  let crlfMatch := List.zipWith (· &&& ·) (laneMatch chunk CR) (laneMatch nextChunk LF)
  let maskLow := littleEndian (crlfMatch.take 8)
  let maskHigh := littleEndian (crlfMatch.drop 8)
  let low := if maskLow ≠ 0 then firstByte 8 maskLow else none
  let high := if maskHigh ≠ 0 then firstByte 8 maskHigh else none
  thenSearch (some (low.map (i + ·))) (some (high.map (i + 8 + ·)))

/-- The loop over single blocks, and the scalar search of the remainder. -/
def blockLoop (block : ℕ → Option (Option ℕ)) (width : ℕ) [NeZero width] (data : List Byte)
    (i : ℕ) : Option (Option ℕ) :=
  if i + (width + 1) ≤ data.length then
    thenSearch (block i) (blockLoop block width data (i + width))
  else
    scalarTail data i
termination_by data.length + 1 - i
decreasing_by
  have := NeZero.pos width
  omega

/-- The loop over 64 bytes a pass, in `count` blocks, and what follows it. -/
def largeLoop (block : ℕ → Option (Option ℕ)) (width count : ℕ) [NeZero width] (data : List Byte)
    (i : ℕ) : Option (Option ℕ) :=
  if i + 65 ≤ data.length then
    thenSearch (searchBlocks block ((List.range count).map fun b => i + b * width))
      (largeLoop block width count data (i + 64))
  else
    blockLoop block width data i
termination_by data.length + 1 - i

/-- The x86 versions, which differ in the width of a vector. -/
def findCrlfMask (width count : ℕ) [NeZero width] (data : List Byte) : Option (Option ℕ) :=
  if data.length < 2 then some none
  else if 4096 ≤ data.length then largeLoop (maskBlock width data) width count data 0
  else blockLoop (maskBlock width data) width data 0

def findCrlfAvx2 (data : List Byte) : Option (Option ℕ) :=
  findCrlfMask 32 2 data

def findCrlfSse2 (data : List Byte) : Option (Option ℕ) :=
  findCrlfMask 16 4 data

def findCrlfNeon (data : List Byte) : Option (Option ℕ) :=
  if data.length < 2 then some none else blockLoop (neonBlock data) 16 data 0

/-! ## The scalar search -/

/-- CR followed by LF. -/
def CrlfAt (data : List Byte) (i : ℕ) : Prop :=
  data[i]? = some CR ∧ data[i + 1]? = some LF

section Search

variable {data : List Byte} {i : ℕ}

theorem CrlfAt.inside (h : CrlfAt data i) : i + 1 < data.length :=
  (List.getElem?_eq_some_iff.mp h.2).1

theorem crlfAt_drop {p : ℕ} : CrlfAt (data.drop i) p ↔ CrlfAt data (i + p) := by
  simp only [CrlfAt, List.getElem?_drop, Nat.add_assoc]

theorem crlfAt_iff : CrlfAt data i ↔ CRLF <+: data.drop i := by
  unfold CrlfAt CRLF
  constructor
  · rintro ⟨hcr, hlf⟩
    obtain ⟨hi, hcr⟩ := List.getElem?_eq_some_iff.mp hcr
    obtain ⟨hnext, hlf⟩ := List.getElem?_eq_some_iff.mp hlf
    rw [List.drop_eq_getElem_cons hi, List.drop_eq_getElem_cons hnext, hcr, hlf]
    exact ⟨_, rfl⟩
  · rintro ⟨rest, hrest⟩
    have hcell (p : ℕ) : data[i + p]? = (CR :: LF :: rest)[p]? := by
      rw [← List.getElem?_drop, ← hrest]
      rfl
    exact ⟨hcell 0, hcell 1⟩

/-- The search of the model of the parser. -/
theorem firstIn_findCrlf (data : List Byte) :
    FirstIn (CrlfAt data) 0 data.length (findCrlf data) := by
  unfold findCrlf
  cases hfind : firstIndex CRLF data with
  | none =>
    intro p hlow hhigh hp
    exact (firstIndex_eq_none_iff (by decide)).mp hfind p (crlfAt_iff.mp hp)
  | some pos =>
    obtain ⟨-, hat, hbefore⟩ := (firstIndex_eq_some_iff).mp hfind
    have hpos : CrlfAt data pos := crlfAt_iff.mpr hat
    refine ⟨Nat.zero_le pos, ?_, hpos, fun p _ hp hcrlf => hbefore p hp (crlfAt_iff.mp hcrlf)⟩
    exact (Nat.lt_succ_self pos).trans hpos.inside

theorem crlfAt_eq (h : i + 1 < data.length) :
    ∃ found, crlfAt data i = some found ∧ (found = true ↔ CrlfAt data i) := by
  have hi : i < data.length := by omega
  unfold crlfAt CrlfAt
  rw [List.getElem?_eq_getElem hi, List.getElem?_eq_getElem h]
  by_cases hcr : data[i] = CR
  · exact ⟨data[i + 1] == LF, by simp [hcr], by simp [hcr]⟩
  · exact ⟨false, by simp [hcr], by simp [hcr]⟩

theorem scalarLoop_finds (h : 2 ≤ data.length) :
    Finds (CrlfAt data) i data.length (scalarLoop data i) := by
  fun_induction scalarLoop data i with
  | case1 i hi hfails =>
    obtain ⟨found, hfound, -⟩ := crlfAt_eq (show i + 1 < data.length by omega)
    rw [hfails] at hfound
    exact absurd hfound (Option.some_ne_none found).symm
  | case2 i hi htrue =>
    obtain ⟨found, hfound, hiff⟩ := crlfAt_eq (show i + 1 < data.length by omega)
    rw [htrue] at hfound
    refine ⟨some i, rfl, le_rfl, by omega, hiff.mp (Option.some.inj hfound).symm, ?_⟩
    intro p hlow hhigh
    omega
  | case3 i hi hfalse ih =>
    obtain ⟨found, hfound, hiff⟩ := crlfAt_eq (show i + 1 < data.length by omega)
    rw [hfalse] at hfound
    have hnone : ¬CrlfAt data i := by
      rw [← hiff, ← Option.some.inj hfound]
      exact Bool.false_ne_true
    have hhere : Finds (CrlfAt data) i (i + 1) (some none) := by
      refine ⟨none, rfl, fun p hlow hhigh => ?_⟩
      rwa [show p = i by omega]
    exact hhere.thenSearch ih (by omega) (by omega)
  | case4 i hi =>
    refine ⟨none, rfl, fun p hlow hhigh hp => ?_⟩
    have := hp.inside
    omega

theorem findCrlfScalar_finds (data : List Byte) :
    Finds (CrlfAt data) 0 data.length (findCrlfScalar data) := by
  unfold findCrlfScalar
  split
  next hshort =>
    refine ⟨none, rfl, fun p hlow hhigh hp => ?_⟩
    have := hp.inside
    omega
  next hlong => exact scalarLoop_finds (by omega)

theorem scalarTail_finds (hi : i ≤ data.length) :
    Finds (CrlfAt data) i data.length (scalarTail data i) := by
  obtain ⟨result, hscalar, hresult⟩ := findCrlfScalar_finds (data.drop i)
  refine ⟨result.map (i + ·), by rw [scalarTail, hscalar]; rfl, ?_⟩
  cases result with
  | none =>
    intro p hlow hhigh
    have hp := hresult (p - i) (Nat.zero_le _) (by rw [List.length_drop]; omega)
    rwa [crlfAt_drop, Nat.add_sub_cancel' hlow] at hp
  | some pos =>
    obtain ⟨-, hinside, hat, hbefore⟩ := hresult
    rw [List.length_drop] at hinside
    show i ≤ i + pos ∧ i + pos < data.length ∧ CrlfAt data (i + pos) ∧ _
    refine ⟨by omega, by omega, crlfAt_drop.mp hat, fun p hlow hhigh => ?_⟩
    have hp := hbefore (p - i) (Nat.zero_le _) (by change p < i + pos at hhigh; omega)
    rwa [crlfAt_drop, Nat.add_sub_cancel' hlow] at hp

/-! ## Blocks -/

theorem maskBlock_finds (data : List Byte) (width : ℕ) :
    BlockFinds (CrlfAt data) width data.length (maskBlock width data) := by
  intro i hroom
  have hchunk : i + width ≤ data.length := by omega
  have hnext : i + 1 + width ≤ data.length := by omega
  let lanes := List.zipWith (· && ·) ((slice data i width).map (· == CR))
    ((slice data (i + 1) width).map (· == LF))
  have hlength : lanes.length = width := by
    simp [lanes, length_slice hchunk, length_slice hnext]
  have hlanes (p : ℕ) (hp : p < lanes.length) : lanes[p]? = some true ↔ CrlfAt data (i + p) := by
    rw [hlength] at hp
    rw [List.getElem?_zipWith, List.getElem?_map, List.getElem?_map, getElem?_slice hp,
      getElem?_slice hp, show i + 1 + p = i + p + 1 by omega, CrlfAt,
      List.getElem?_eq_getElem (show i + p < data.length by omega),
      List.getElem?_eq_getElem (show i + p + 1 < data.length by omega)]
    simp
  have hfinds := finds_movemask hlanes
  rw [hlength] at hfinds
  unfold maskBlock
  simp only [load_eq hchunk, load_eq hnext, Option.bind_eq_bind, Option.bind_some]
  exact hfinds

theorem laneMatch_and (cr lf : Byte) :
    (if cr = CR then (0xFF : Byte) else 0) &&& (if lf = LF then 0xFF else 0) ≠ 0 ↔
      cr = CR ∧ lf = LF := by
  by_cases hcr : cr = CR <;> by_cases hlf : lf = LF <;> simp [hcr, hlf]

theorem neonBlock_finds (data : List Byte) :
    BlockFinds (CrlfAt data) 16 data.length (neonBlock data) := by
  intro i hroom
  have hchunk : i + 16 ≤ data.length := by omega
  have hnext : i + 1 + 16 ≤ data.length := by omega
  let lanes := List.zipWith (· &&& ·) (laneMatch (slice data i 16) CR)
    (laneMatch (slice data (i + 1) 16) LF)
  have hlength : lanes.length = 16 := by
    simp [lanes, laneMatch, length_slice hchunk, length_slice hnext]
  have hlanes (p : ℕ) (hp : p < 16) : lanes[p]?.getD 0 ≠ 0 ↔ CrlfAt data (i + p) := by
    rw [List.getElem?_zipWith, laneMatch, laneMatch, List.getElem?_map, List.getElem?_map,
      getElem?_slice hp, getElem?_slice hp, show i + 1 + p = i + p + 1 by omega, CrlfAt,
      List.getElem?_eq_getElem (show i + p < data.length by omega),
      List.getElem?_eq_getElem (show i + p + 1 < data.length by omega), Option.some.injEq,
      Option.some.injEq]
    exact laneMatch_and _ _
  have hlow : (lanes.take 8).length = 8 := by rw [List.length_take, hlength]; rfl
  have hhigh : (lanes.drop 8).length = 8 := by rw [List.length_drop, hlength]
  have hfront : ∀ p < (lanes.take 8).length, (lanes.take 8)[p]?.getD 0 ≠ 0 ↔ CrlfAt data (i + p) := by
    intro p hp
    rw [List.getElem?_take_of_lt (by omega), hlanes p (by omega)]
  have hback : ∀ p < (lanes.drop 8).length,
      (lanes.drop 8)[p]?.getD 0 ≠ 0 ↔ CrlfAt data (i + 8 + p) := by
    intro p hp
    rw [List.getElem?_drop, hlanes _ (by omega), Nat.add_assoc]
  have hfinds := (finds_firstByte hfront).thenSearch (hlow ▸ finds_firstByte hback)
    (Nat.le_add_right _ _) (Nat.le_add_right _ _)
  rw [hlow, hhigh] at hfinds
  unfold neonBlock
  simp only [load_eq hchunk, load_eq hnext, Option.bind_eq_bind, Option.bind_some]
  exact hfinds

/-! ## The loops -/

theorem blockLoop_finds {block : ℕ → Option (Option ℕ)} {width : ℕ} [NeZero width]
    (hblock : BlockFinds (CrlfAt data) width data.length block) (hi : i ≤ data.length) :
    Finds (CrlfAt data) i data.length (blockLoop block width data i) := by
  fun_induction blockLoop block width data i with
  | case1 i hroom ih => exact (hblock i (by omega)).thenSearch (ih (by omega)) (by omega) (by omega)
  | case2 i hroom => exact scalarTail_finds hi

theorem largeLoop_finds {block : ℕ → Option (Option ℕ)} {width count : ℕ} [NeZero width]
    (hblock : BlockFinds (CrlfAt data) width data.length block) (hcount : count * width = 64)
    (hi : i ≤ data.length) :
    Finds (CrlfAt data) i data.length (largeLoop block width count data i) := by
  fun_induction largeLoop block width count data i with
  | case1 i hroom ih =>
    have hblocks := hblock.searchBlocks (i := i) count (by omega)
    rw [hcount] at hblocks
    exact hblocks.thenSearch (ih (by omega)) (by omega) (by omega)
  | case2 i hroom => exact blockLoop_finds hblock hi

theorem findCrlfMask_finds {width count : ℕ} [NeZero width] (hcount : count * width = 64)
    (data : List Byte) :
    Finds (CrlfAt data) 0 data.length (findCrlfMask width count data) := by
  unfold findCrlfMask
  split
  next hshort =>
    have hscalar := findCrlfScalar_finds data
    rwa [findCrlfScalar, if_pos hshort] at hscalar
  next =>
    have hblock := maskBlock_finds data width
    split
    next => exact largeLoop_finds hblock hcount (Nat.zero_le _)
    next => exact blockLoop_finds hblock (Nat.zero_le _)

theorem findCrlfNeon_finds (data : List Byte) :
    Finds (CrlfAt data) 0 data.length (findCrlfNeon data) := by
  unfold findCrlfNeon
  split
  next hshort =>
    have hscalar := findCrlfScalar_finds data
    rwa [findCrlfScalar, if_pos hshort] at hscalar
  next => exact blockLoop_finds (neonBlock_finds data) (Nat.zero_le _)

end Search

/-- No version reads outside the range, and all of them give the first position of a
CR that is followed by LF, or none if there is none. -/
theorem findCrlf_vectorised (data : List Byte) :
    ∃ result, findCrlfAvx2 data = some result ∧ findCrlfSse2 data = some result ∧
      findCrlfNeon data = some result ∧ findCrlfScalar data = some result ∧
      FirstIn (CrlfAt data) 0 data.length result := by
  have hfirst := firstIn_findCrlf data
  exact ⟨findCrlf data, (findCrlfMask_finds rfl data).eq hfirst,
    (findCrlfMask_finds rfl data).eq hfirst, (findCrlfNeon_finds data).eq hfirst,
    (findCrlfScalar_finds data).eq hfirst, hfirst⟩

end Http
end Katana
