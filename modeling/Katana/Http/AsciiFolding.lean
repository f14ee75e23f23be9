import Katana.Http.CaseFolding

/-!
# Comparison and ASCII folding

The bytes that are compared one by one are equal if they are the same letter in
either case or the same byte.  A word or a vector compares them after setting bit
`0x20`, which also makes bytes equal that are no letters, such as `@` and the
grave accent.  A build compares two strings as their folded texts compare unless
such bytes meet in one of its lanes and the strings agree otherwise.
-/

namespace Katana
namespace Http

def toLower (s : List Byte) : List Byte :=
  s.map asciiLower

/-- `ci_hash`, the 64-bit FNV-1a hash of the folded text. -/
def ciHash (sv : List Byte) : UInt64 :=
  sv.foldl (fun hash c => (hash ^^^ (asciiLower c).toUInt64) * 1099511628211)
    14695981039346656037

/-- The bytes differ in bit `0x20` and are not the two cases of a letter. -/
def onlyCaseBit (x y : Byte) : Bool :=
  x ^^^ y = 0x20 && !(97 ≤ (x ||| 0x20) && (x ||| 0x20) ≤ 122)

/-- At each position the strings have the same folded byte, or bytes in a lane that
differ in the case bit only, and the latter occurs. -/
def Confusable (simd : Simd) (a b : List Byte) : Prop :=
  a.length = b.length ∧
    (∀ (i : ℕ) x y, a[i]? = some x → b[i]? = some y →
      asciiLower x = asciiLower y ∨
        lanesOf simd a.length i = true ∧ onlyCaseBit x y = true) ∧
    ∃ (i : ℕ) (x y : Byte), a[i]? = some x ∧ b[i]? = some y ∧ onlyCaseBit x y = true

/-- What the containers that use `ci_hash` and `ci_equal_fn` rely on. -/
structure FoldsCase (simd : Simd) (a b : List Byte) : Prop where
  folds : ciEqualOn simd a b = true ↔ toLower a = toLower b
  hash : ciEqualOn simd a b = true → ciHash a = ciHash b

/-! ## Lanes -/

theorem eq_or_xor_of_or_eq {x y : Byte} (h : x ||| 0x20 = y ||| 0x20) :
    y = x ∨ y = x ^^^ 0x20 := by
  have hclear : ∀ z : Byte, (z ||| 0x20) &&& 0xDF = z &&& 0xDF := by
    apply byte_forall
    decide +kernel
  have hrest : ∀ z : Byte, z &&& 0xDF = 0 → z = 0 ∨ z = 0x20 := by
    apply byte_forall
    decide +kernel
  have hmask : x &&& 0xDF = y &&& 0xDF := by
    rw [← hclear x, h, hclear y]
  have hdistrib : (x ^^^ y) &&& 0xDF = (x &&& 0xDF) ^^^ (y &&& 0xDF) := by
    apply UInt8.toNat_inj.mp
    rw [UInt8.toNat_and, UInt8.toNat_xor, UInt8.toNat_xor, UInt8.toNat_and, UInt8.toNat_and,
      Nat.and_xor_distrib_right]
  have hzero : (x ^^^ y) &&& 0xDF = 0 := by
    rw [hdistrib, hmask, UInt8.xor_self]
  have hback : y = x ^^^ (x ^^^ y) := by
    rw [← UInt8.xor_assoc, UInt8.xor_self, UInt8.zero_xor]
  rcases hrest _ hzero with hsame | hbit
  · left
    rw [hback, hsame, UInt8.xor_zero]
  · right
    rw [hback, hbit]

theorem asciiLower_ne_of_onlyCaseBit {x y : Byte} (h : onlyCaseBit x y = true) :
    asciiLower x ≠ asciiLower y := by
  intro hsame
  have hchar := (ciCharEqual_iff x y).mpr hsame
  simp only [onlyCaseBit, ciCharEqual, Bool.and_eq_true, Bool.or_eq_true, Bool.not_eq_true',
    decide_eq_true_eq] at h hchar
  rcases hchar with rfl | hletter
  · simp at h
  · simp [hletter.1.2, hletter.2] at h

/-- What a lane takes to be equal: the same folded byte, or the case bit alone. -/
theorem positionEqual_iff (lane : Bool) (x y : Byte) :
    positionEqual lane x y ↔
      asciiLower x = asciiLower y ∨ lane = true ∧ onlyCaseBit x y = true := by
  cases lane with
  | false => simp [positionEqual, ciCharEqual_iff]
  | true =>
      have hflip : ∀ z : Byte, asciiLower z = asciiLower (z ^^^ 0x20) ∨
          onlyCaseBit z (z ^^^ 0x20) = true := by
        apply byte_forall
        decide +kernel
      have hset : ∀ z : Byte, z ||| 0x20 = (z ^^^ 0x20) ||| 0x20 := by
        apply byte_forall
        decide +kernel
      simp only [positionEqual, if_true, true_and]
      constructor
      · intro hor
        rcases eq_or_xor_of_or_eq hor with rfl | rfl
        · exact .inl rfl
        · exact hflip x
      · rintro (hsame | hbit)
        · rw [← asciiLower_or x, hsame, asciiLower_or]
        · simp only [onlyCaseBit, Bool.and_eq_true, decide_eq_true_eq] at hbit
          have hy : y = x ^^^ 0x20 := by
            rw [← hbit.1, ← UInt8.xor_assoc, UInt8.xor_self, UInt8.zero_xor]
          rw [hy]
          exact hset x

/-! ## Folded texts -/

theorem toLower_eq_iff {a b : List Byte} :
    toLower a = toLower b ↔ PositionsEqual (fun _ => false) a b := by
  induction a generalizing b with
  | nil => cases b <;> simp [toLower, PositionsEqual]
  | cons x a ih =>
      cases b with
      | nil => simp [toLower, PositionsEqual]
      | cons y b =>
          rw [positionsEqual_cons, ← ih]
          simp [toLower, positionEqual, ciCharEqual_iff]

theorem PositionsEqual.lanes {lanes : ℕ → Bool} {a b : List Byte}
    (h : PositionsEqual (fun _ => false) a b) : PositionsEqual lanes a b := by
  refine ⟨h.1, fun i x y hx hy => ?_⟩
  have hposition := h.2 i x y hx hy
  rw [positionEqual, if_neg Bool.false_ne_true, ciCharEqual_iff] at hposition
  exact (positionEqual_iff _ x y).mpr (.inl hposition)

/-- Every build takes strings with the same folded text to be equal. -/
theorem ciEqualOn_of_toLower (simd : Simd) {a b : List Byte} (h : toLower a = toLower b) :
    ciEqualOn simd a b = true :=
  (ciEqualOn_iff simd a b).mpr (toLower_eq_iff.mp h).lanes

theorem ciHash_eq (sv : List Byte) :
    ciHash sv = (toLower sv).foldl (fun hash c => (hash ^^^ c.toUInt64) * 1099511628211)
      14695981039346656037 := by
  rw [ciHash, toLower, List.foldl_map]

/-- A build compares two strings as their folded texts compare exactly if they are not
confusable for it, and the builds for which they are not agree. -/
theorem foldsCase_iff (simd : Simd) (a b : List Byte) :
    (FoldsCase simd a b ↔ ¬ Confusable simd a b) ∧
      ∀ other, ¬ Confusable simd a b → ¬ Confusable other a b →
        ciEqualOn simd a b = ciEqualOn other a b := by
  have hiff : ∀ build, FoldsCase build a b ↔ ¬ Confusable build a b := by
    intro build
    constructor
    · rintro ⟨hfolds, -⟩ ⟨hlength, hpositions, i, x, y, hx, hy, hbit⟩
      have hequal : ciEqualOn build a b = true := by
        apply (ciEqualOn_iff build a b).mpr
        exact ⟨hlength, fun j u v hu hv => (positionEqual_iff _ u v).mpr (hpositions j u v hu hv)⟩
      have hfolded := (toLower_eq_iff.mp (hfolds.mp hequal)).2 i x y hx hy
      rw [positionEqual, if_neg Bool.false_ne_true, ciCharEqual_iff] at hfolded
      exact asciiLower_ne_of_onlyCaseBit hbit hfolded
    · intro hclear
      have hfolds : ciEqualOn build a b = true ↔ toLower a = toLower b := by
        constructor
        · intro hequal
          obtain ⟨hlength, hpositions⟩ := (ciEqualOn_iff build a b).mp hequal
          have hsplit := fun i x y hx hy => (positionEqual_iff _ x y).mp (hpositions i x y hx hy)
          apply (toLower_eq_iff).mpr
          refine ⟨hlength, fun i x y hx hy => (positionEqual_iff _ x y).mpr ?_⟩
          by_contra hdiffers
          have hbit := (hsplit i x y hx hy).resolve_left fun hsame => hdiffers (.inl hsame)
          exact hclear ⟨hlength, hsplit, i, x, y, hx, hy, hbit.2⟩
        · exact ciEqualOn_of_toLower build
      refine ⟨hfolds, fun hequal => ?_⟩
      rw [ciHash_eq, ciHash_eq, hfolds.mp hequal]
  refine ⟨hiff simd, fun other hsimd hother => ?_⟩
  rw [Bool.eq_iff_iff, ((hiff simd).mpr hsimd).folds, ((hiff other).mpr hother).folds]

theorem not_foldsCase_grave (simd : Simd) : ¬ FoldsCase simd [0x40] [0x60] := by
  intro h
  have hequal : ciEqualOn simd [0x40] [0x60] = true := by
    cases simd <;> decide
  have hfolded := h.folds.mp hequal
  revert hfolded
  decide

/-- `@` and the grave accent are equal in every build. -/
theorem at_equals_grave : ¬ FoldsCase .scalar [0x40] [0x60] ∧ ¬ FoldsCase .sse2 [0x40] [0x60] ∧
    ¬ FoldsCase .avx2 [0x40] [0x60] :=
  ⟨not_foldsCase_grave .scalar, not_foldsCase_grave .sse2, not_foldsCase_grave .avx2⟩

end Http
end Katana
