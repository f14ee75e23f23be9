import Katana.Library.JsonText
import Katana.Serde.Cursor

/-!
# Reading 64-bit integers

`parse_int64` accumulates the digits in an unsigned word, which wraps, and tests the
range when all digits have been read.  A number that is out of range is taken for one
in range if what is left of it after wrapping is in range.
-/

namespace Katana
namespace Serde

open Library
open Http (Byte isDigit digitValue numeralValue)

def INT64_MAX : ℕ := 2 ^ 63 - 1

/-- `std::from_chars` into an `int64_t`; what follows the digits is not looked at. -/
def fromCharsInt64 (text : List Byte) : Option Int64 :=
  let negative := text.head? = some 0x2d
  let digits := (if negative then text.tail else text).takeWhile (isDigit 10)
  let value : ℤ := if negative then -numeralValue 10 digits else numeralValue 10 digits
  if digits = [] then none
  else if -2 ^ 63 ≤ value ∧ value < 2 ^ 63 then some (.ofInt value)
  else none

/-- The loop over the digits. -/
def accumulate : UInt64 → List Byte → UInt64 × List Byte
  | val, [] => (val, [])
  | val, c :: rest =>
      let d := c - 0x30
      if 9 < d then (val, c :: rest) else accumulate (val * 10 + d.toUInt64) rest

/-- The conversion to a signed number with its protection against overflow. -/
def toSigned (negative : Bool) (val : UInt64) : Option Int64 :=
  if negative then
    if INT64_MAX + 1 < val.toNat then none
    else if val.toNat = INT64_MAX + 1 then some Int64.minValue
    else some (-Int64.ofNat val.toNat)
  else if INT64_MAX < val.toNat then none
  else some (Int64.ofNat val.toNat)

def parseInt64 (cur : JsonCursor) : Option Int64 × JsonCursor :=
  match JsonCursor.skipWs cur with
  | [] => (none, [])
  | c :: rest =>
      if c = QUOTE then
        match JsonCursor.string (c :: rest) with
        | (some text, rest) => (fromCharsInt64 text, rest)
        | (none, rest) => (none, rest)
      else
        match (if c = 0x2d || c = 0x2b then rest else c :: rest) with
        | [] => (none, c :: rest)
        | d :: digits =>
            if 9 < d - 0x30 then (none, c :: rest)
            else
              let result := accumulate 0 (d :: digits)
              (toSigned (c = 0x2d) result.1, result.2)

inductive Sign where
  | none | plus | minus
  deriving DecidableEq

def Sign.text : Sign → List Byte
  | .none => []
  | .plus => [0x2b]
  | .minus => [0x2d]

/-- A cursor at an optional sign and a run of digits that no further digit follows. -/
structure SignedDigits where
  sign : Sign
  digits : JsonText.Digits
  rest : List Byte
  maximal : ∀ c ∈ rest.head?, JsonText.isDigit c = false

namespace SignedDigits

def cur (n : SignedDigits) : JsonCursor :=
  n.sign.text ++ n.digits.text ++ n.rest

def magnitude (n : SignedDigits) : ℕ :=
  numeralValue 10 n.digits.text

/-- The integer that the text denotes. -/
def value (n : SignedDigits) : ℤ :=
  if n.sign = .minus then -n.magnitude else n.magnitude

/-- The integer that is denoted if it is in range, and the cursor behind the digits. -/
def Exact (n : SignedDigits) : Prop :=
  (parseInt64 n.cur).1.map Int64.toInt =
      (if -2 ^ 63 ≤ n.value ∧ n.value ≤ 2 ^ 63 - 1 then some n.value else none) ∧
    (parseInt64 n.cur).2 = n.rest

/-- The greatest magnitude of a number with the sign. -/
def limit (n : SignedDigits) : ℕ :=
  if n.sign = .minus then 2 ^ 63 else 2 ^ 63 - 1

end SignedDigits

/-! ## The loop over the digits -/

theorem digit_toNat {c : Byte} (hc : JsonText.isDigit c = true) :
    (c - 0x30).toNat = digitValue c ∧ digitValue c ≤ 9 := by
  simp only [JsonText.isDigit, Bool.and_eq_true, decide_eq_true_eq] at hc
  have hlow : 48 ≤ c.toNat := hc.1
  have hhigh : c.toNat ≤ 57 := hc.2
  have hvalue : digitValue c = c.toNat - 48 := by
    have hboth : (48 ≤ c && c ≤ 57) = true := by
      rw [Bool.and_eq_true, decide_eq_true_eq, decide_eq_true_eq]
      exact hc
    rw [digitValue, if_pos hboth]
  have hsub : (c - 0x30).toNat = c.toNat - 48 := UInt8.toNat_sub_of_le c 0x30 hc.1
  rw [hsub, hvalue]
  omega

theorem not_digit_lt {c : Byte} (hc : JsonText.isDigit c = false) : 9 < c - 0x30 := by
  simp only [JsonText.isDigit, Bool.and_eq_false_iff, decide_eq_false_iff_not, UInt8.not_le,
    UInt8.lt_iff_toNat_lt] at hc
  have hbyte := c.toNat_lt
  have hzero : (0x30 : Byte).toNat = 48 := rfl
  have hnine : (0x39 : Byte).toNat = 57 := rfl
  have hmax : (9 : Byte).toNat = 9 := rfl
  rw [hzero, hnine] at hc
  rw [UInt8.lt_iff_toNat_lt, UInt8.toNat_sub, hzero, hmax]
  omega

theorem accumulate_rest {rest : List Byte} (hmaximal : ∀ c ∈ rest.head?, JsonText.isDigit c = false)
    (val : UInt64) : accumulate val rest = (val, rest) := by
  cases rest with
  | nil => rfl
  | cons c rest =>
      have hc := not_digit_lt (hmaximal c rfl)
      rw [accumulate]
      simp only [if_pos hc]

/-- The digits are accumulated modulo the size of a word. -/
theorem accumulate_digits {rest : List Byte}
    (hmaximal : ∀ c ∈ rest.head?, JsonText.isDigit c = false) {digits : List Byte}
    (hdigits : ∀ c ∈ digits, JsonText.isDigit c = true) (n : ℕ) :
    accumulate (UInt64.ofNat n) (digits ++ rest) =
      (UInt64.ofNat (digits.foldl (fun value c => value * 10 + digitValue c) n), rest) := by
  induction digits generalizing n with
  | nil => exact accumulate_rest hmaximal _
  | cons c digits ih =>
      have hc := digit_toNat (hdigits c (by simp))
      have hle : ¬ 9 < c - 0x30 := by
        rw [UInt8.lt_iff_toNat_lt, hc.1]
        exact Nat.not_lt.mpr hc.2
      have hnext : UInt64.ofNat n * 10 + (c - 0x30).toUInt64 =
          UInt64.ofNat (n * 10 + digitValue c) := by
        rw [← hc.1, UInt64.ofNat_add, UInt64.ofNat_mul]
        simp
      rw [List.cons_append, accumulate]
      simp only [if_neg hle, hnext, List.foldl_cons]
      exact ih (fun d hd => hdigits d (by simp [hd])) _

namespace SignedDigits

theorem accumulate_eq (n : SignedDigits) :
    accumulate 0 (n.digits.text ++ n.rest) = (UInt64.ofNat n.magnitude, n.rest) :=
  accumulate_digits n.maximal n.digits.digits 0

/-- What `parse_int64` does at a sign and digits. -/
theorem parseInt64_eq (n : SignedDigits) :
    parseInt64 n.cur = (toSigned (n.sign = .minus) (UInt64.ofNat n.magnitude), n.rest) := by
  have hresult := n.accumulate_eq
  cases htext : n.digits.text with
  | nil => exact absurd htext n.digits.nonempty
  | cons d digits =>
      have hd : JsonText.isDigit d = true := n.digits.digits d (by rw [htext]; simp)
      have hdigit := digit_toNat hd
      have hle : ¬ 9 < d - 0x30 := by
        rw [UInt8.lt_iff_toNat_lt, hdigit.1]
        exact Nat.not_lt.mpr hdigit.2
      have hne {c : Byte} (hc : JsonText.isDigit c = false) : d ≠ c := by
        rintro rfl
        rw [hd] at hc
        cases hc
      have hspace : isJsonWhitespace d = false := by
        simp [isJsonWhitespace, hne (show JsonText.isDigit 0x09 = false from rfl),
          hne (show JsonText.isDigit 0x0a = false from rfl),
          hne (show JsonText.isDigit 0x0d = false from rfl),
          hne (show JsonText.isDigit 0x20 = false from rfl)]
      have hquote : d ≠ QUOTE := hne rfl
      have hminus : d ≠ 0x2d := hne rfl
      have hplus : d ≠ 0x2b := hne rfl
      rw [htext, List.cons_append] at hresult
      unfold cur
      rw [htext]
      cases hsign : n.sign with
      | none =>
          have hskip : JsonCursor.skipWs (d :: (digits ++ n.rest)) = d :: (digits ++ n.rest) :=
            List.dropWhile_cons_of_neg (by simp [hspace])
          simp [parseInt64, Sign.text, hskip, hquote, hplus, hle, hresult, hminus]
      | plus =>
          have hskip : JsonCursor.skipWs (0x2b :: d :: (digits ++ n.rest)) =
              0x2b :: d :: (digits ++ n.rest) := rfl
          simp [parseInt64, Sign.text, hskip, hle, hresult, QUOTE]
      | minus =>
          have hskip : JsonCursor.skipWs (0x2d :: d :: (digits ++ n.rest)) =
              0x2d :: d :: (digits ++ n.rest) := rfl
          simp [parseInt64, Sign.text, hskip, hle, hresult, QUOTE]

/-- The conversion of a number that fits into a word. -/
theorem toSigned_eq (n : SignedDigits) {val : ℕ} (hval : val < 2 ^ 64) :
    (toSigned (n.sign = .minus) (UInt64.ofNat val)).map Int64.toInt =
      if val ≤ n.limit then some (if n.sign = .minus then -(val : ℤ) else val) else none := by
  have hword : (UInt64.ofNat val).toNat = val := UInt64.toNat_ofNat_of_lt' hval
  unfold toSigned limit INT64_MAX
  rw [hword]
  by_cases hsign : n.sign = .minus
  · simp only [hsign, decide_true, if_true]
    rcases lt_trichotomy val (2 ^ 63) with hlt | heq | hgt
    · rw [if_neg (by omega), if_neg (by omega), if_pos (by omega), Option.map_some,
        Int64.toInt_neg_ofNat_of_le hlt.le]
    · rw [heq]
      rfl
    · rw [if_pos (by omega), if_neg (by omega), Option.map_none]
  · simp only [hsign, decide_false, Bool.false_eq_true, if_false]
    by_cases hle : val ≤ 2 ^ 63 - 1
    · rw [if_neg (by omega), if_pos hle, Option.map_some, Int64.toInt_ofNat_of_lt (by omega)]
    · rw [if_pos (by omega), if_neg hle, Option.map_none]

theorem value_inRange_iff (n : SignedDigits) :
    (-2 ^ 63 ≤ n.value ∧ n.value ≤ 2 ^ 63 - 1) ↔ n.magnitude ≤ n.limit := by
  unfold value limit
  split_ifs <;> omega

/-- The result is exact exactly if the magnitude is in range or is not in range after
wrapping either. -/
theorem exact_iff (n : SignedDigits) :
    n.Exact ↔ n.magnitude ≤ n.limit ∨ n.limit < n.magnitude % 2 ^ 64 := by
  have hwrap : UInt64.ofNat n.magnitude = UInt64.ofNat (n.magnitude % 2 ^ 64) := by
    apply UInt64.toNat_inj.mp
    simp
  have hlt : n.magnitude % 2 ^ 64 < 2 ^ 64 := Nat.mod_lt _ (by norm_num)
  unfold Exact
  rw [parseInt64_eq, hwrap, n.toSigned_eq hlt]
  simp only [value_inRange_iff, and_true]
  have hlimit : n.limit < 2 ^ 64 := by
    unfold limit
    split_ifs <;> norm_num
  have hsmall : n.magnitude ≤ n.limit → n.magnitude % 2 ^ 64 = n.magnitude :=
    fun hle => Nat.mod_eq_of_lt (by omega)
  generalize n.magnitude % 2 ^ 64 = wrapped at hlt hsmall ⊢
  by_cases hrange : n.magnitude ≤ n.limit
  · simp [hsmall hrange, hrange, value]
  · by_cases hwrapped : wrapped ≤ n.limit
    · simp [hrange, hwrapped]
    · simp [hrange, hwrapped, Nat.not_le.mp hwrapped]

/-- The digits of 2 ^ 64. -/
def twoPow64 : SignedDigits where
  sign := .none
  digits :=
    { text := [0x31, 0x38, 0x34, 0x34, 0x36, 0x37, 0x34, 0x34, 0x30, 0x37, 0x33, 0x37, 0x30, 0x39,
        0x35, 0x35, 0x31, 0x36, 0x31, 0x36]
      nonempty := List.cons_ne_nil _ _
      digits := List.all_eq_true.mp rfl }
  rest := []
  maximal := fun _ hc => nomatch hc

theorem twoPow64_zero : (parseInt64 twoPow64.cur).1 = some 0 ∧ ¬ twoPow64.Exact := by
  have hzero : (parseInt64 twoPow64.cur).1 = some 0 := by decide
  refine ⟨hzero, ?_⟩
  intro h
  have hnone : (if -2 ^ 63 ≤ twoPow64.value ∧ twoPow64.value ≤ 2 ^ 63 - 1 then
      some twoPow64.value else none) = none := by decide
  rw [Exact, hzero, hnone] at h
  cases h.1

end SignedDigits

end Serde
end Katana
