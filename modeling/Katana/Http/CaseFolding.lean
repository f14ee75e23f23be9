import Katana.Http.Bytes

/-!
# Case-insensitive comparison

`ci_equal` compares up to eight bytes as one word and longer names block by
block, after setting bit `0x20` everywhere, and the bytes left over by the
blocks one by one.  Which blocks there are depends on the build.  In every build
the comparison looks at each position separately, and the relation it decides at
a position depends only on the common length.
-/

namespace Katana
namespace Http

/-- The vector instructions a build may use. -/
inductive Simd where
  | scalar
  | sse2
  | avx2
  deriving DecidableEq

def asciiLower (c : Byte) : Byte :=
  if 65 ≤ c && c ≤ 90 then c + 0x20 else c

def ciCharEqual (a b : Byte) : Bool :=
  a = b || (a ^^^ b = 0x20 && 97 ≤ (a ||| 0x20) && (a ||| 0x20) ≤ 122)

/-- Bit `0x20` set in every lane. -/
def lowerMask (bytes : List Byte) : List Byte :=
  bytes.map (· ||| 0x20)

def charsEqual (a b : List Byte) : Bool :=
  (a.zip b).all fun (x, y) => ciCharEqual x y

/-- Strings shorter than 16 bytes.  Lanes beyond the end are zero in both
words, so they never differ. -/
def ciEqualShort (simd : Simd) (a b : List Byte) : Bool :=
  if a.length ≠ b.length then false
  else if a.length ≤ 8 then lowerMask a = lowerMask b
  else if a.length ≤ 15 then
    match simd with
    | .scalar => charsEqual a b
    | _ => lowerMask a = lowerMask b
  else false

/-- `blocks` full vectors of `width` bytes, then the remaining bytes. -/
def ciEqualBlocks (width : ℕ) : ℕ → List Byte → List Byte → Bool
  | 0, a, b => charsEqual a b
  | blocks + 1, a, b =>
      lowerMask (a.take width) = lowerMask (b.take width) &&
        ciEqualBlocks width blocks (a.drop width) (b.drop width)

def ciEqualOn (simd : Simd) (a b : List Byte) : Bool :=
  if a.length ≠ b.length then false
  else if a.length < 16 then ciEqualShort simd a b
  else
    match simd with
    | .scalar => charsEqual a b
    | .sse2 => ciEqualBlocks 16 (a.length / 16) a b
    | .avx2 =>
        if 32 ≤ a.length then ciEqualBlocks 32 (a.length / 32) a b
        else ciEqualBlocks 16 (a.length / 16) a b

/-- `ci_equal` of the x86-64 baseline build. -/
def ciEqual (a b : List Byte) : Bool :=
  ciEqualOn .sse2 a b

/-! ## The relation at one position -/

/-- A position compared through a vector lane, or byte by byte. -/
def positionEqual (lane : Bool) (x y : Byte) : Prop :=
  if lane then x ||| 0x20 = y ||| 0x20 else ciCharEqual x y = true

theorem byte_forall {P : Byte → Prop} (h : ∀ n < 256, P (UInt8.ofNat n)) (c : Byte) :
    P c := by
  have hc := h c.toNat c.toNat_lt
  rwa [UInt8.ofNat_toNat] at hc

theorem ciCharEqual_iff (x y : Byte) :
    ciCharEqual x y = true ↔ asciiLower x = asciiLower y := by
  constructor
  · intro h
    simp only [ciCharEqual, Bool.or_eq_true, Bool.and_eq_true, decide_eq_true_eq] at h
    rcases h with rfl | ⟨⟨hxor, hlow⟩, hhigh⟩
    · rfl
    · have hy : y = x ^^^ 0x20 := by
        rw [← hxor, ← UInt8.xor_assoc, UInt8.xor_self, UInt8.zero_xor]
      subst hy
      revert hlow hhigh
      clear hxor
      revert x
      apply byte_forall
      decide +kernel
  · intro h
    by_cases hx : (65 ≤ x && x ≤ 90) = true <;> by_cases hy : (65 ≤ y && y ≤ 90) = true
    · have hxy : x = y := by simpa [asciiLower, hx, hy] using h
      simp [ciCharEqual, hxy]
    · have hyx : y = x + 0x20 := by simpa [asciiLower, hx, hy] using h.symm
      subst hyx
      revert hx
      clear h hy
      revert x
      apply byte_forall
      decide +kernel
    · have hxy : x = y + 0x20 := by simpa [asciiLower, hx, hy] using h
      subst hxy
      revert hy
      clear h hx
      revert y
      apply byte_forall
      decide +kernel
    · have hxy : x = y := by simpa [asciiLower, hx, hy] using h
      simp [ciCharEqual, hxy]

theorem asciiLower_or (x : Byte) : asciiLower x ||| 0x20 = x ||| 0x20 := by
  revert x
  apply byte_forall
  decide +kernel

theorem positionEqual_equivalence (lane : Bool) : Equivalence (positionEqual lane) := by
  cases lane with
  | true =>
      refine ⟨fun x => rfl, fun h => h.symm, fun h h' => h.trans h'⟩
  | false =>
      have hiff : ∀ x y, positionEqual false x y ↔ asciiLower x = asciiLower y :=
        fun x y => by simp [positionEqual, ciCharEqual_iff]
      refine ⟨fun x => (hiff x x).mpr rfl, fun h => ?_, fun h h' => ?_⟩
      · exact (hiff _ _).mpr ((hiff _ _).mp h).symm
      · exact (hiff _ _).mpr (((hiff _ _).mp h).trans ((hiff _ _).mp h'))

/-- Two byte strings agree position by position. -/
def PositionsEqual (lanes : ℕ → Bool) (a b : List Byte) : Prop :=
  a.length = b.length ∧
    ∀ i x y, a[i]? = some x → b[i]? = some y → positionEqual (lanes i) x y

theorem positionsEqual_cons {lanes : ℕ → Bool} {x y : Byte} {a b : List Byte} :
    PositionsEqual lanes (x :: a) (y :: b) ↔
      positionEqual (lanes 0) x y ∧ PositionsEqual (fun i => lanes (i + 1)) a b := by
  unfold PositionsEqual
  constructor
  · rintro ⟨hlen, hpos⟩
    refine ⟨hpos 0 x y rfl rfl, by simpa using hlen, ?_⟩
    intro i x' y' hx hy
    exact hpos (i + 1) x' y' (by simpa using hx) (by simpa using hy)
  · rintro ⟨hhead, hlen, hpos⟩
    refine ⟨by simpa using hlen, ?_⟩
    intro i x' y' hx hy
    cases i with
    | zero =>
        simp only [List.getElem?_cons_zero, Option.some.injEq] at hx hy
        rwa [← hx, ← hy]
    | succ i => exact hpos i x' y' (by simpa using hx) (by simpa using hy)

theorem positionsEqual_append (lanes : ℕ → Bool) {a b : List Byte} (a' b' : List Byte)
    (hlen : a.length = b.length) :
    PositionsEqual lanes (a ++ a') (b ++ b') ↔
      PositionsEqual lanes a b ∧ PositionsEqual (fun i => lanes (i + a.length)) a' b' := by
  induction a generalizing b lanes with
  | nil =>
      cases b with
      | nil => simp [PositionsEqual]
      | cons y b => simp at hlen
  | cons x a ih =>
      cases b with
      | nil => simp at hlen
      | cons y b =>
          rw [List.cons_append, List.cons_append, positionsEqual_cons,
            positionsEqual_cons, ih _ (by simpa using hlen), and_assoc]
          simp only [List.length_cons, Nat.add_assoc]

theorem lowerMask_eq_iff {a b : List Byte} :
    lowerMask a = lowerMask b ↔ PositionsEqual (fun _ => true) a b := by
  induction a generalizing b with
  | nil => cases b <;> simp [lowerMask, PositionsEqual]
  | cons x a ih =>
      cases b with
      | nil => simp [lowerMask, PositionsEqual]
      | cons y b =>
          rw [positionsEqual_cons, ← ih]
          simp [lowerMask, positionEqual]

theorem charsEqual_iff {a b : List Byte} (hlen : a.length = b.length) :
    charsEqual a b = true ↔ PositionsEqual (fun _ => false) a b := by
  induction a generalizing b with
  | nil => cases b <;> simp [charsEqual, PositionsEqual] at *
  | cons x a ih =>
      cases b with
      | nil => simp at hlen
      | cons y b =>
          rw [positionsEqual_cons, ← ih (by simpa using hlen)]
          simp [charsEqual, positionEqual]

theorem ciEqualBlocks_iff {width blocks : ℕ} {a b : List Byte}
    (hlen : a.length = b.length) (hfit : width * blocks ≤ a.length) :
    ciEqualBlocks width blocks a b = true ↔
      PositionsEqual (fun i => decide (i < width * blocks)) a b := by
  induction blocks generalizing a b with
  | zero => simpa [ciEqualBlocks] using charsEqual_iff hlen
  | succ blocks ih =>
      rw [Nat.mul_add_one] at hfit
      have hwidth : width ≤ a.length := by omega
      have htake : (a.take width).length = width := by simp [hwidth]
      have htake' : (b.take width).length = width := by
        simp only [List.length_take, ← hlen]
        omega
      have hsplit := positionsEqual_append (fun i => decide (i < width * (blocks + 1)))
        (a.drop width) (b.drop width) (htake.trans htake'.symm)
      rw [List.take_append_drop, List.take_append_drop, htake] at hsplit
      have hrest : (fun i => decide (i + width < width * (blocks + 1))) =
          fun i => decide (i < width * blocks) := by
        funext i
        rw [Nat.mul_succ, decide_eq_decide]
        omega
      rw [hsplit, hrest, ciEqualBlocks, Bool.and_eq_true, decide_eq_true_iff,
        lowerMask_eq_iff, ih (by simp [hlen]) (by
          rw [List.length_drop]
          omega)]
      refine and_congr_left fun _ => ?_
      unfold PositionsEqual
      refine and_congr_right fun _ => forall_congr' fun i => forall_congr' fun x =>
        forall_congr' fun y => imp_congr_right fun hx => ?_
      have hi : i < width := by
        have := (List.getElem?_eq_some_iff.mp hx).1
        omega
      have hlane : i < width * (blocks + 1) := by
        rw [Nat.mul_succ]
        omega
      simp [hlane]

/-- The positions that the build compares through vector lanes. -/
def lanesOf (simd : Simd) (length : ℕ) (i : ℕ) : Bool :=
  if length ≤ 8 then true
  else
    match simd with
    | .scalar => false
    | .sse2 => length < 16 || i < 16 * (length / 16)
    | .avx2 =>
        length < 16 || (if 32 ≤ length then i < 32 * (length / 32)
          else i < 16 * (length / 16))

theorem ciEqualOn_iff (simd : Simd) (a b : List Byte) :
    ciEqualOn simd a b = true ↔ PositionsEqual (lanesOf simd a.length) a b := by
  by_cases hlen : a.length = b.length
  swap
  · simp [ciEqualOn, hlen, PositionsEqual]
  have hsame : ¬ a.length ≠ b.length := by simpa using hlen
  by_cases h8 : a.length ≤ 8
  · have h16 : a.length < 16 := by omega
    have hlanes : lanesOf simd a.length = fun _ => true := by
      funext i
      simp [lanesOf, h8]
    rw [hlanes, ← lowerMask_eq_iff]
    simp [ciEqualOn, ciEqualShort, hsame, h16, h8]
  by_cases h16 : a.length < 16
  · have h15 : a.length ≤ 15 := by omega
    cases simd with
    | scalar =>
        have hlanes : lanesOf .scalar a.length = fun _ => false := by
          funext i
          simp [lanesOf, h8]
        rw [hlanes, ← charsEqual_iff hlen]
        simp [ciEqualOn, ciEqualShort, hsame, h16, h8, h15]
    | sse2 =>
        have hlanes : lanesOf .sse2 a.length = fun _ => true := by
          funext i
          simp [lanesOf, h8, h16]
        rw [hlanes, ← lowerMask_eq_iff]
        simp [ciEqualOn, ciEqualShort, hsame, h16, h8, h15]
    | avx2 =>
        have hlanes : lanesOf .avx2 a.length = fun _ => true := by
          funext i
          simp [lanesOf, h8, h16]
        rw [hlanes, ← lowerMask_eq_iff]
        simp [ciEqualOn, ciEqualShort, hsame, h16, h8, h15]
  · have hfit : ∀ width, width * (a.length / width) ≤ a.length :=
      fun width => Nat.mul_div_le a.length width
    cases simd with
    | scalar =>
        have hlanes : lanesOf .scalar a.length = fun _ => false := by
          funext i
          simp [lanesOf, h8]
        rw [hlanes, ← charsEqual_iff hlen]
        simp [ciEqualOn, hsame, h16]
    | sse2 =>
        have hlanes : lanesOf .sse2 a.length =
            fun i => decide (i < 16 * (a.length / 16)) := by
          funext i
          simp [lanesOf, h8, h16]
        rw [hlanes, ← ciEqualBlocks_iff hlen (hfit 16)]
        simp [ciEqualOn, hsame, h16]
    | avx2 =>
        by_cases h32 : 32 ≤ a.length
        · have hlanes : lanesOf .avx2 a.length =
              fun i => decide (i < 32 * (a.length / 32)) := by
            funext i
            simp [lanesOf, h8, h16, h32]
          rw [hlanes, ← ciEqualBlocks_iff hlen (hfit 32)]
          simp [ciEqualOn, hsame, h16, h32]
        · have hlanes : lanesOf .avx2 a.length =
              fun i => decide (i < 16 * (a.length / 16)) := by
            funext i
            simp [lanesOf, h8, h16, h32]
          rw [hlanes, ← ciEqualBlocks_iff hlen (hfit 16)]
          simp [ciEqualOn, hsame, h16, h32]

theorem ciEqual_length {a b : List Byte} (h : ciEqual a b = true) :
    a.length = b.length :=
  ((ciEqualOn_iff .sse2 a b).mp h).1

theorem ciEqual_refl (a : List Byte) : ciEqual a a = true := by
  refine (ciEqualOn_iff .sse2 a a).mpr ⟨rfl, ?_⟩
  intro i x y hx hy
  rw [hx] at hy
  cases hy
  exact (positionEqual_equivalence _).refl x

theorem ciEqual_symm {a b : List Byte} (h : ciEqual a b = true) : ciEqual b a = true := by
  obtain ⟨hlen, hpos⟩ := (ciEqualOn_iff .sse2 a b).mp h
  refine (ciEqualOn_iff .sse2 b a).mpr ⟨hlen.symm, ?_⟩
  intro i x y hx hy
  rw [← hlen]
  exact (positionEqual_equivalence _).symm (hpos i y x hy hx)

theorem ciEqual_comm (a b : List Byte) : ciEqual a b = ciEqual b a := by
  rw [Bool.eq_iff_iff]
  exact ⟨ciEqual_symm, ciEqual_symm⟩

theorem ciEqual_trans {a b c : List Byte} (hab : ciEqual a b = true)
    (hbc : ciEqual b c = true) : ciEqual a c = true := by
  obtain ⟨hlen, hpos⟩ := (ciEqualOn_iff .sse2 a b).mp hab
  obtain ⟨hlen', hpos'⟩ := (ciEqualOn_iff .sse2 b c).mp hbc
  refine (ciEqualOn_iff .sse2 a c).mpr ⟨hlen.trans hlen', ?_⟩
  intro i x z hx hz
  have hi : i < b.length := by
    rw [← hlen]
    exact (List.getElem?_eq_some_iff.mp hx).1
  have hy : b[i]? = some b[i] := List.getElem?_eq_getElem hi
  refine (positionEqual_equivalence _).trans (hpos i x b[i] hx hy) ?_
  rw [hlen]
  exact hpos' i b[i] z hy hz

/-- Whatever lanes are used, equal strings agree up to bit `0x20`. -/
theorem ciEqual_or_eq {a b : List Byte} (h : ciEqual a b = true) {i : ℕ} {x y : Byte}
    (hx : a[i]? = some x) (hy : b[i]? = some y) : x ||| 0x20 = y ||| 0x20 := by
  have hposition := ((ciEqualOn_iff .sse2 a b).mp h).2 i x y hx hy
  cases hlane : lanesOf .sse2 a.length i with
  | true => simpa [positionEqual, hlane] using hposition
  | false =>
      rw [positionEqual, hlane, if_neg Bool.false_ne_true, ciCharEqual_iff] at hposition
      rw [← asciiLower_or x, hposition, asciiLower_or]

theorem ciEqual_or_get {a b : List Byte} (h : ciEqual a b = true) (i : ℕ) :
    (a.getD i 0 ||| 0x20) = (b.getD i 0 ||| 0x20) := by
  have hlength := ciEqual_length h
  simp only [List.getD_eq_getElem?_getD]
  by_cases hi : i < a.length
  · have ha := List.getElem?_eq_getElem hi
    have hb := List.getElem?_eq_getElem (show i < b.length by omega)
    rw [ha, hb]
    exact ciEqual_or_eq h ha hb
  · rw [List.getElem?_eq_none (by omega), List.getElem?_eq_none (by omega)]

theorem ciEqual_congr_right {a b : List Byte} (h : ciEqual a b = true) (c : List Byte) :
    ciEqual c a = ciEqual c b := by
  rw [Bool.eq_iff_iff]
  exact ⟨fun hca => ciEqual_trans hca h, fun hcb => ciEqual_trans hcb (ciEqual_symm h)⟩

end Http
end Katana
