import Katana.Library.Delimiter
import Mathlib

/-!
# Bytes, views and numerals

The character classes of the HTTP parser, `std::string_view` as a view into the
input buffer or into bytes of its own, and the two conversions `std::from_chars`
and `std::to_chars` on unsigned numbers.
-/

namespace Katana
namespace Http

open Library

abbrev Byte := UInt8

instance lawfulBEqBytes : LawfulBEq (List Byte) :=
  inferInstance

/-- Bytes of an ASCII literal. -/
def bytesOf (text : String) : List Byte :=
  text.toList.map fun c => c.toNat.toUInt8

def CR : Byte := 13
def LF : Byte := 10
def SP : Byte := 32
def HTAB : Byte := 9
def CRLF : List Byte := [CR, LF]

/-- `simd::find_crlf`: offset of the first CR followed by LF. -/
def findCrlf (bytes : List Byte) : Option ℕ :=
  firstIndex CRLF bytes

/-- The entries of `TOKEN_CHARS`: letters, digits and fifteen marks. -/
def isTokenChar (c : Byte) : Bool :=
  (97 ≤ c && c ≤ 122) || (65 ≤ c && c ≤ 90) || (48 ≤ c && c ≤ 57) ||
    [0x21, 0x23, 0x24, 0x25, 0x26, 0x27, 0x2a, 0x2b, 0x2d, 0x2e, 0x5e, 0x5f, 0x60,
      0x7c, 0x7e].contains c

/-- The entries of `INVALID_HEADER_CHARS`: control characters other than the
tab, and everything from DEL on. -/
def isInvalidHeaderChar (c : Byte) : Bool :=
  (c < 0x20 && c ≠ HTAB) || 0x7f ≤ c

def isCtl (c : Byte) : Bool :=
  c < 0x20 || c = 0x7f

def isOws (c : Byte) : Bool :=
  c = SP || c = HTAB

def trimOws (value : List Byte) : List Byte :=
  (value.dropWhile isOws).rdropWhile isOws

def containsInvalidHeaderValue (value : List Byte) : Bool :=
  value.any isInvalidHeaderChar

def containsInvalidUriChar (uri : List Byte) : Bool :=
  uri.any fun c => c = SP || c = CR || c = LF || isCtl c || 0x80 ≤ c

/-- The byte check of the header section: NUL, a byte above 0x7f, or a LF that
does not follow a CR.  `previous` is the byte in front of the range. -/
def hasInvalidByte (previous : Option Byte) : List Byte → Bool
  | [] => false
  | c :: rest =>
      (c = 0 || 0x80 ≤ c || (c = LF && previous ≠ some CR)) ||
        hasInvalidByte (some c) rest

/-! ## Views -/

/-- A `std::string_view`: default constructed, into `buffer_`, or into bytes
that do not change while the view is used (arena memory, literals). -/
inductive View where
  | null
  | buffer (offset length : ℕ)
  | owned (bytes : List Byte)
  deriving DecidableEq

namespace View

/-- Bytes seen through the view when `buffer_` holds `memory`. -/
def read (memory : List Byte) : View → List Byte
  | .null => []
  | .buffer offset length => (memory.drop offset).take length
  | .owned bytes => bytes

def isNull : View → Bool
  | .null => true
  | _ => false

/-- The view whose length has been stored in a `uint16_t`. -/
def truncate16 : View → View
  | .null => .null
  | .buffer offset length => .buffer offset (length % 2 ^ 16)
  | .owned bytes => .owned (bytes.take (bytes.length % 2 ^ 16))

/-- Every byte seen through the view lies in the first `bound` bytes. -/
def Within (bound : ℕ) : View → Prop
  | .buffer offset length => offset + length ≤ bound
  | _ => True

@[simp] theorem read_null (memory : List Byte) : View.null.read memory = [] := rfl

@[simp] theorem read_owned (memory bytes : List Byte) :
    (View.owned bytes).read memory = bytes := rfl

theorem read_buffer (memory : List Byte) (offset length : ℕ) :
    (View.buffer offset length).read memory = (memory.drop offset).take length := rfl

/-- A view reads the same bytes in two memories that agree below its bound. -/
theorem Within.read_eq {bound : ℕ} {view : View} (hview : view.Within bound)
    {memory memory' : List Byte} (hagree : memory.take bound = memory'.take bound) :
    view.read memory = view.read memory' := by
  cases view with
  | null => rfl
  | owned bytes => rfl
  | buffer offset length =>
      have hfit : offset + length ≤ bound := hview
      have hcut : ∀ m : List Byte,
          (m.drop offset).take length = ((m.take bound).drop offset).take length := by
        intro m
        rw [List.drop_take, List.take_take]
        congr 1
        omega
      rw [read_buffer, read_buffer, hcut memory, hcut memory', hagree]

theorem Within.mono {bound bound' : ℕ} {view : View} (hview : view.Within bound)
    (hle : bound ≤ bound') : view.Within bound' := by
  cases view with
  | null => trivial
  | owned bytes => trivial
  | buffer offset length => exact Nat.le_trans hview hle

theorem Within.truncate16 {bound : ℕ} {view : View} (hview : view.Within bound) :
    view.truncate16.Within bound := by
  cases view with
  | null => trivial
  | owned bytes => trivial
  | buffer offset length =>
      have hfit : offset + length ≤ bound := hview
      have hmod := Nat.mod_le length (2 ^ 16)
      show offset + length % 2 ^ 16 ≤ bound
      omega

/-- Below 64 KiB the stored length is the length. -/
theorem truncate16_owned {bytes : List Byte} (hshort : bytes.length < 2 ^ 16) :
    (View.owned bytes).truncate16 = .owned bytes := by
  rw [truncate16, Nat.mod_eq_of_lt hshort, List.take_length]

end View

/-! ## Numerals -/

def digitValue (c : Byte) : ℕ :=
  if 48 ≤ c && c ≤ 57 then c.toNat - 48
  else if 97 ≤ c && c ≤ 102 then c.toNat - 87
  else if 65 ≤ c && c ≤ 70 then c.toNat - 55
  else 255

def isDigit (base : ℕ) (c : Byte) : Bool :=
  digitValue c < base

def numeralValue (base : ℕ) (digits : List Byte) : ℕ :=
  digits.foldl (fun value c => value * base + digitValue c) 0

/-- `std::from_chars` into an `unsigned long long`: the value, if there is a
digit and it does not overflow, and what follows the digits. -/
def fromChars (base : ℕ) (bytes : List Byte) : Option ℕ × List Byte :=
  let digits := bytes.takeWhile (isDigit base)
  if digits = [] then (none, bytes)
  else if numeralValue base digits < 2 ^ 64 then
    (some (numeralValue base digits), bytes.dropWhile (isDigit base))
  else (none, bytes.dropWhile (isDigit base))

/-- `std::to_chars` of an unsigned number. -/
def toChars (base n : ℕ) : List Byte :=
  (Nat.toDigits base n).map fun c => c.toNat.toUInt8

theorem toChars_ne_nil (base n : ℕ) : toChars base n ≠ [] := by
  simp [toChars, Nat.toDigits_ne_nil]

theorem digitValue_digitChar : ∀ d < 16, digitValue d.digitChar.toNat.toUInt8 = d := by
  decide

section Digits

variable {base : ℕ}

theorem toChars_of_lt {n : ℕ} (hn : n < base) :
    toChars base n = [n.digitChar.toNat.toUInt8] := by
  simp [toChars, Nat.toDigits_of_lt_base hn]

theorem toChars_of_le (hbase : 1 < base) {n : ℕ} (hn : base ≤ n) :
    toChars base n = toChars base (n / base) ++ [(n % base).digitChar.toNat.toUInt8] := by
  simp [toChars, Nat.toDigits_of_base_le hbase hn]

/-- `to_chars` writes digits of the base. -/
theorem toChars_digits (hbase : 1 < base) (hmax : base ≤ 16) (n : ℕ) :
    ∀ c ∈ toChars base n, isDigit base c = true := by
  induction n using Nat.strong_induction_on with
  | _ n ih =>
      intro c hc
      rcases Nat.lt_or_ge n base with hn | hn
      · rw [toChars_of_lt hn, List.mem_singleton] at hc
        rw [hc, isDigit, digitValue_digitChar n (by omega)]
        exact decide_eq_true hn
      · rw [toChars_of_le hbase hn, List.mem_append, List.mem_singleton] at hc
        rcases hc with hc | rfl
        · exact ih (n / base) (Nat.div_lt_self (by omega) hbase) c hc
        · have hlt : n % base < base := Nat.mod_lt n (by omega)
          rw [isDigit, digitValue_digitChar _ (by omega)]
          exact decide_eq_true hlt

/-- The digits that `to_chars` writes have the value of the number. -/
theorem numeralValue_toChars (hbase : 1 < base) (hmax : base ≤ 16) (n : ℕ) :
    numeralValue base (toChars base n) = n := by
  induction n using Nat.strong_induction_on with
  | _ n ih =>
      rcases Nat.lt_or_ge n base with hn | hn
      · rw [toChars_of_lt hn]
        simp [numeralValue, digitValue_digitChar n (by omega)]
      · have hlt : n % base < base := Nat.mod_lt n (by omega)
        have hquotient := ih (n / base) (Nat.div_lt_self (by omega) hbase)
        unfold numeralValue at hquotient ⊢
        rw [toChars_of_le hbase hn, List.foldl_append, hquotient]
        simp only [List.foldl_cons, List.foldl_nil, digitValue_digitChar _ (by omega : n % base < 16)]
        exact Nat.div_add_mod' n base

end Digits

end Http
end Katana
