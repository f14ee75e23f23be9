import Katana.Http.Problem
import Katana.Json.Fields
import Katana.Library.JsonSpelling

/-!
# Arrays of integers

`serialize_int_array_into` writes the elements to a buffer of 512 bytes, which is put
out when the next element would begin in its last 16 bytes.  The text is that of the
numbers for every type; the buffer is large enough for the types of up to 32 bits, and
for the others unless a long number begins in the four bytes in front of the last 16.
-/

namespace Katana
namespace Json

open Library
open Http (Byte bytesOf toChars intToChars)

def BUFFER_SIZE : ℕ := 512

/-- The offset of `end`. -/
def FLUSH_OFFSET : ℕ := BUFFER_SIZE - 16

/-- The two digits of every number below 100. -/
def digitsLut : List Byte :=
  bytesOf ("00010203040506070809101112131415161718192021222324252627282930313233343536373839" ++
    "40414243444546474849505152535455565758596061626364656667686970717273747576777879" ++
    "8081828384858687888990919293949596979899")

/-- `memcpy` of two digits. -/
def twoDigits (n : ℕ) : List Byte :=
  (digitsLut.drop (n * 2)).take 2

def formatUintFast (val : ℕ) : List Byte :=
  if val < 10 then [(0x30 + val).toUInt8]
  else if val < 100 then twoDigits val
  else if val < 1000 then (0x30 + val / 100).toUInt8 :: twoDigits (val % 100)
  else if val < 10000 then twoDigits (val / 100) ++ twoDigits (val % 100)
  else toChars 10 val

section Elements

variable {bits : ℕ} (signed : Bool)

/-- The number that an element of the type stands for. -/
def elementValue (val : BitVec bits) : ℤ :=
  if signed then val.toInt else val.toNat

def isNegative (val : BitVec bits) : Bool :=
  signed && val.toInt < 0

/-- The subtraction is made in `int` or in the unsigned type, and its result is cast to
the unsigned type. -/
def unsignedValue (val : BitVec bits) : ℕ :=
  if isNegative signed val then ((0 - (val.toNat : ℤ)) % 2 ^ bits).toNat else val.toNat

/-- A separator, a sign and the digits, as they are written one behind the other. -/
def elementPieces (i : ℕ) (val : BitVec bits) : List (List Byte) :=
  [if 0 < i then [Serde.COMMA] else [], if isNegative signed val then [0x2d] else [],
    if bits ≤ 32 then formatUintFast (unsignedValue signed val)
    else toChars 10 (unsignedValue signed val)]

end Elements

/-- What has been put out and what is in the buffer up to `ptr`. -/
structure ArrayWriter where
  out : List Byte
  buffer : List Byte := []

namespace ArrayWriter

def put (w : ArrayWriter) (bytes : List Byte) : ArrayWriter :=
  { w with buffer := w.buffer ++ bytes }

def flush (w : ArrayWriter) : ArrayWriter where
  out := w.out ++ w.buffer
  buffer := []

/-- The test in front of every element. -/
def makeRoom (w : ArrayWriter) : ArrayWriter :=
  if FLUSH_OFFSET ≤ w.buffer.length then w.flush else w

variable {bits : ℕ} (signed : Bool)

def writeElement (i : ℕ) (val : BitVec bits) (w : ArrayWriter) : ArrayWriter :=
  (elementPieces signed i val).foldl put w.makeRoom

/-- The loop from the element with index `i` on. -/
def writeElements : ℕ → List (BitVec bits) → ArrayWriter → ArrayWriter
  | _, [], w => w
  | i, val :: rest, w => writeElements (i + 1) rest (writeElement signed i val w)

/-- The offsets of `ptr` behind the test and behind every piece. -/
def elementOffsets (i : ℕ) (val : BitVec bits) (w : ArrayWriter) : List ℕ :=
  ((elementPieces signed i val).scanl put w.makeRoom).map fun w => w.buffer.length

def writeOffsets : ℕ → List (BitVec bits) → ArrayWriter → List ℕ
  | _, [], _ => []
  | i, val :: rest, w =>
      elementOffsets signed i val w ++ writeOffsets (i + 1) rest (writeElement signed i val w)

end ArrayWriter

open ArrayWriter

section Serialize

variable {bits : ℕ} (signed : Bool)

/-- What `out` becomes if the buffer is large enough. -/
def serializeIntArrayInto (arr : List (BitVec bits)) (out : List Byte) : List Byte :=
  if arr.length = 0 then out ++ bytesOf "[]"
  else
    let w := writeElements signed 0 arr { out := out ++ [Serde.OPEN_BRACKET] }
    w.flush.out ++ [Serde.CLOSE_BRACKET]

/-- Every offset of `ptr` in the course of the call. -/
def serializeOffsets (arr : List (BitVec bits)) : List ℕ :=
  if arr.length = 0 then [] else writeOffsets signed 0 arr { out := [Serde.OPEN_BRACKET] }

end Serialize

/-! ## Digits -/

theorem twoDigits_eq : ∀ n < 100, twoDigits n =
    [(n / 10).digitChar.toNat.toUInt8, (n % 10).digitChar.toNat.toUInt8] := by
  decide +kernel

theorem oneDigit_eq : ∀ n < 10, (0x30 + n).toUInt8 = n.digitChar.toNat.toUInt8 := by
  decide

theorem toChars_hundred {n : ℕ} (hn : 10 ≤ n / 10) : toChars 10 n =
    toChars 10 (n / 100) ++ twoDigits (n % 100) := by
  have hdiv : n / 10 / 10 = n / 100 := by omega
  have hmod : n / 10 % 10 = n % 100 / 10 := by omega
  have hlast : n % 100 % 10 = n % 10 := by omega
  rw [Http.toChars_of_le (by omega) (show 10 ≤ n by omega), Http.toChars_of_le (by omega) hn,
    twoDigits_eq _ (Nat.mod_lt _ (by omega)), hdiv, hmod, hlast, List.append_assoc]
  rfl

/-- The digits of every number are those of `to_chars`. -/
theorem formatUintFast_eq (val : ℕ) : formatUintFast val = toChars 10 val := by
  have htwo {n : ℕ} (hlow : 10 ≤ n) (hhigh : n < 100) : twoDigits n = toChars 10 n := by
    rw [twoDigits_eq n hhigh, Http.toChars_of_le (by omega) hlow,
      Http.toChars_of_lt (by omega : n / 10 < 10)]
    rfl
  unfold formatUintFast
  split_ifs with hten hhundred hthousand hlast
  · rw [oneDigit_eq val hten, Http.toChars_of_lt hten]
  · exact htwo (by omega) hhundred
  · rw [toChars_hundred (by omega), Http.toChars_of_lt (by omega : val / 100 < 10),
      oneDigit_eq _ (by omega)]
    rfl
  · rw [toChars_hundred (by omega), htwo (by omega) (by omega)]
  · rfl

/-! ## One element -/

section Elements

variable {bits : ℕ} (signed : Bool)

theorem isNegative_iff (val : BitVec bits) :
    isNegative signed val = true ↔ elementValue signed val < 0 := by
  cases signed with
  | true => simp [isNegative, elementValue]
  | false => simp [isNegative, elementValue]

/-- The negation in the unsigned type is the absolute value, for the least value too. -/
theorem unsignedValue_eq (val : BitVec bits) :
    unsignedValue signed val = (elementValue signed val).natAbs := by
  unfold unsignedValue
  split
  next hnegative =>
    have hneg := (isNegative_iff signed val).mp hnegative
    cases signed with
    | false => simp [isNegative] at hnegative
    | true =>
        have hlt := val.isLt
        have hvalue : elementValue true val = (val.toNat : ℤ) - 2 ^ bits := by
          unfold elementValue at hneg ⊢
          rw [if_pos rfl, BitVec.toInt_eq_toNat_cond] at hneg ⊢
          split at hneg
          next => omega
          next hhigh =>
            rw [if_neg hhigh]
            push_cast
            rfl
        have hpos : 0 < val.toNat := by
          rcases Nat.eq_zero_or_pos val.toNat with hzero | hpos
          · have hnone : elementValue true val = 0 := by
              have hbits : val = BitVec.ofNat bits 0 := BitVec.eq_of_toNat_eq (by simpa using hzero)
              simp [elementValue, hbits]
            omega
          · exact hpos
        have hlow : (val.toNat : ℤ) < 2 ^ bits := by
          exact_mod_cast hlt
        have hmod : (0 - (val.toNat : ℤ)) % 2 ^ bits = 2 ^ bits - val.toNat := by
          rw [← Int.add_emod_right, Int.emod_eq_of_lt] <;> omega
        rw [hmod, hvalue]
        generalize (2 ^ bits : ℤ) = top at hlow ⊢
        omega
  next hnonneg =>
    have hpos : 0 ≤ elementValue signed val := by
      rw [isNegative_iff] at hnonneg
      omega
    cases signed with
    | false => simp [elementValue]
    | true =>
        unfold elementValue at hpos ⊢
        rw [if_pos rfl, BitVec.toInt_eq_toNat_cond] at hpos ⊢
        have hlow : (val.toNat : ℤ) < 2 ^ bits := by
          exact_mod_cast val.isLt
        split
        next => simp
        next hhigh =>
          rw [if_neg hhigh] at hpos
          push_cast at hpos
          generalize (2 ^ bits : ℤ) = top at hlow hpos
          omega

/-- The separator and the number. -/
def elementText (i : ℕ) (val : BitVec bits) : List Byte :=
  (if 0 < i then [Serde.COMMA] else []) ++ intToChars (elementValue signed val)

theorem elementPieces_flatten (i : ℕ) (val : BitVec bits) :
    (elementPieces signed i val).flatten = elementText signed i val := by
  unfold elementPieces elementText intToChars
  rw [formatUintFast_eq, unsignedValue_eq, ite_self]
  cases hnegative : isNegative signed val with
  | true =>
      rw [if_pos ((isNegative_iff signed val).mp hnegative)]
      simp
  | false =>
      have hnot : ¬ elementValue signed val < 0 := by
        rw [← isNegative_iff, hnegative]
        exact Bool.false_ne_true
      rw [if_neg hnot]
      simp

theorem foldl_put (pieces : List (List Byte)) (w : ArrayWriter) :
    pieces.foldl put w = { w with buffer := w.buffer ++ pieces.flatten } := by
  induction pieces generalizing w with
  | nil => simp
  | cons piece pieces ih =>
      rw [List.foldl_cons, ih]
      simp [put]

theorem writeElement_eq (i : ℕ) (val : BitVec bits) (w : ArrayWriter) :
    writeElement signed i val w =
      { w.makeRoom with buffer := w.makeRoom.buffer ++ elementText signed i val } := by
  rw [writeElement, foldl_put, elementPieces_flatten]

/-- What has been written, in the buffer or not. -/
def ArrayWriter.written (w : ArrayWriter) : List Byte :=
  w.out ++ w.buffer

theorem makeRoom_written (w : ArrayWriter) : w.makeRoom.written = w.written := by
  unfold makeRoom
  split
  next => simp [flush, ArrayWriter.written]
  next => rfl

theorem writeElement_written (i : ℕ) (val : BitVec bits) (w : ArrayWriter) :
    (writeElement signed i val w).written = w.written ++ elementText signed i val := by
  rw [writeElement_eq, ← makeRoom_written w]
  simp [ArrayWriter.written]

theorem writeElements_written (arr : List (BitVec bits)) (i : ℕ) (w : ArrayWriter) :
    (writeElements signed (i + 1) arr w).written = w.written ++
      (arr.map fun val => intToChars (elementValue signed val)).flatMap (Serde.COMMA :: ·) := by
  induction arr generalizing i w with
  | nil => simp [writeElements]
  | cons val rest ih =>
      rw [writeElements, ih, writeElement_written]
      simp [elementText]

end Elements

/-! ## The text -/

/-- The numbers in decimal with commas between them, for every type and every length; the
digits of an unsigned number are canonical. -/
theorem serializeIntArrayInto_eq {bits : ℕ} (signed : Bool) (arr : List (BitVec bits))
    (out : List Byte) :
    serializeIntArrayInto signed arr out = out ++ JsonText.arrayText
        (JsonText.commaSeparated (arr.map fun val => intToChars (elementValue signed val))) ∧
      ∀ val, formatUintFast val = toChars 10 val := by
  refine ⟨?_, formatUintFast_eq⟩
  unfold serializeIntArrayInto
  cases arr with
  | nil => rfl
  | cons val rest =>
      have hwritten := writeElements_written signed rest 0
        (writeElement signed 0 val { out := out ++ [Serde.OPEN_BRACKET] })
      rw [writeElement_written] at hwritten
      rw [if_neg (by simp), List.map_cons, JsonText.commaSeparated_cons, writeElements]
      unfold ArrayWriter.written at hwritten
      dsimp only [flush]
      rw [hwritten]
      simp [elementText, JsonText.arrayText, Serde.OPEN_BRACKET, JsonText.OPEN_BRACKET,
        Serde.CLOSE_BRACKET, JsonText.CLOSE_BRACKET, Serde.COMMA, JsonText.COMMA]

/-! ## The buffer -/

section Offsets

variable {bits : ℕ} (signed : Bool)

def elementLengths : ℕ → List (BitVec bits) → List ℕ
  | _, [] => []
  | i, val :: rest => (elementText signed i val).length :: elementLengths (i + 1) rest

/-- Where the texts of these lengths begin and how long they are, if one that would begin
at the flush offset or behind it begins at the front instead. -/
def elementStarts : ℕ → List ℕ → List (ℕ × ℕ)
  | _, [] => []
  | offset, length :: rest =>
      let start := if FLUSH_OFFSET ≤ offset then 0 else offset
      (start, length) :: elementStarts (start + length) rest

theorem makeRoom_length (w : ArrayWriter) : w.makeRoom.buffer.length =
    if FLUSH_OFFSET ≤ w.buffer.length then 0 else w.buffer.length := by
  unfold makeRoom
  split <;> rfl

/-- The last offset of an element is the greatest. -/
theorem elementOffsets_le_iff (i : ℕ) (val : BitVec bits) (w : ArrayWriter) (bound : ℕ) :
    (∀ offset ∈ elementOffsets signed i val w, offset ≤ bound) ↔
      w.makeRoom.buffer.length + (elementText signed i val).length ≤ bound := by
  rw [← elementPieces_flatten]
  unfold elementOffsets elementPieces
  simp only [List.scanl_cons, List.scanl_nil, List.map_cons, List.map_nil, List.forall_mem_cons,
    put, List.length_append, List.flatten_cons, List.flatten_nil, List.length_nil]
  constructor
  · rintro ⟨-, -, -, hlast, -⟩
    omega
  · intro hlast
    refine ⟨?_, ?_, ?_, ?_, List.forall_mem_nil _⟩ <;> omega

theorem writeOffsets_le_iff (arr : List (BitVec bits)) (i : ℕ) (w : ArrayWriter) (bound : ℕ) :
    (∀ offset ∈ writeOffsets signed i arr w, offset ≤ bound) ↔
      ∀ p ∈ elementStarts w.buffer.length (elementLengths signed i arr), p.1 + p.2 ≤ bound := by
  induction arr generalizing i w with
  | nil => simp [writeOffsets, elementLengths, elementStarts]
  | cons val rest ih =>
      have hbuffer : (writeElement signed i val w).buffer.length =
          w.makeRoom.buffer.length + (elementText signed i val).length := by
        rw [writeElement_eq, List.length_append]
      rw [writeOffsets, List.forall_mem_append, elementOffsets_le_iff, ih, hbuffer, makeRoom_length,
        elementLengths, elementStarts, List.forall_mem_cons]

theorem elementStarts_lt {offset : ℕ} {lengths : List ℕ} {p : ℕ × ℕ}
    (hp : p ∈ elementStarts offset lengths) : p.1 < FLUSH_OFFSET ∧ p.2 ∈ lengths := by
  induction lengths generalizing offset with
  | nil => cases hp
  | cons length rest ih =>
      rw [elementStarts, List.mem_cons] at hp
      rcases hp with rfl | hrest
      · refine ⟨?_, List.mem_cons_self⟩
        dsimp only
        split
        next => decide
        next hless => omega
      · exact ⟨(ih hrest).1, List.mem_cons_of_mem length (ih hrest).2⟩

theorem mem_elementLengths {arr : List (BitVec bits)} {i length : ℕ}
    (h : length ∈ elementLengths signed i arr) :
    ∃ j val, length = (elementText signed j val : List Byte).length ∧ val ∈ arr := by
  induction arr generalizing i with
  | nil => cases h
  | cons val rest ih =>
      rcases List.mem_cons.mp h with rfl | hrest
      · exact ⟨i, val, rfl, List.mem_cons_self⟩
      · rcases ih hrest with ⟨j, other, hlength, hother⟩
        exact ⟨j, other, hlength, List.mem_cons_of_mem val hother⟩

end Offsets

theorem intToChars_length_le {value : ℤ} {digits : ℕ} (hpos : 0 < digits)
    (h : value.natAbs < 10 ^ digits) :
    (intToChars value).length ≤ digits + if value < 0 then 1 else 0 := by
  have hdigits : (toChars 10 value.natAbs).length ≤ digits := by
    rw [toChars, List.length_map]
    exact (Nat.length_toDigits_le_iff (by omega) hpos).mpr h
  unfold intToChars
  split
  next => simpa using hdigits
  next => simpa using hdigits

theorem natAbs_signed_lt {bits digits : ℕ} (val : BitVec bits)
    (h : 2 ^ bits < 2 * 10 ^ digits) : (elementValue true val).natAbs < 10 ^ digits := by
  have hlow : -(2 ^ bits : ℤ) ≤ 2 * val.toInt := by
    exact_mod_cast BitVec.le_two_mul_toInt
  have hhigh : 2 * val.toInt < (2 ^ bits : ℤ) := by
    exact_mod_cast BitVec.two_mul_toInt_lt
  have habs : 2 * |val.toInt| ≤ (2 ^ bits : ℤ) := by
    rcases abs_cases val.toInt with ⟨heq, -⟩ | ⟨heq, -⟩ <;> rw [heq] <;> linarith
  have hdouble : 2 * val.toInt.natAbs ≤ 2 ^ bits := by
    zify
    exact habs
  exact lt_of_mul_lt_mul_left (hdouble.trans_lt h) (Nat.zero_le 2)

theorem natAbs_unsigned_lt {bits : ℕ} (val : BitVec bits) :
    0 ≤ elementValue false val ∧ (elementValue false val).natAbs < 2 ^ bits :=
  ⟨Int.natCast_nonneg _, val.isLt⟩

/-- The longest numbers. -/
theorem intToChars_element_le (width : IntegralWidth) (signed : Bool) (val : BitVec width.bits) :
    (intToChars (elementValue signed val)).length ≤ if width = .bits64 then 20 else 11 := by
  cases signed with
  | true =>
      cases width with
      | bits64 =>
          have h : (intToChars (elementValue true val)).length ≤ 19 + _ :=
            intToChars_length_le (by omega) (natAbs_signed_lt val (by decide))
          apply h.trans
          split <;> decide
      | bits8 | bits16 | bits32 =>
          have h : (intToChars (elementValue true val)).length ≤ 10 + _ :=
            intToChars_length_le (by omega) (natAbs_signed_lt val (by decide))
          apply h.trans
          split <;> decide
  | false =>
      have habs := natAbs_unsigned_lt val
      cases width with
      | bits64 =>
          have h : (intToChars (elementValue false val)).length ≤ 20 + _ :=
            intToChars_length_le (by omega) (habs.2.trans (by decide))
          rw [if_neg (not_lt.mpr habs.1)] at h
          exact h
      | bits8 | bits16 | bits32 =>
          have h : (intToChars (elementValue false val)).length ≤ 10 + _ :=
            intToChars_length_le (by omega) (habs.2.trans (by decide))
          rw [if_neg (not_lt.mpr habs.1)] at h
          exact h.trans (by decide)

theorem elementText_length_le (width : IntegralWidth) (signed : Bool) (i : ℕ)
    (val : BitVec width.bits) :
    (elementText signed i val).length ≤ if width = .bits64 then 21 else 12 := by
  have hcomma : (if 0 < i then [Serde.COMMA] else []).length ≤ 1 := by
    split <;> simp
  have htext := intToChars_element_le width signed val
  unfold elementText
  rw [List.length_append]
  by_cases hwidth : width = .bits64
  · rw [if_pos hwidth] at htext ⊢
    omega
  · rw [if_neg hwidth] at htext ⊢
    omega

/-- The offset of `ptr` stays within the buffer exactly if the type has at most 32 bits or
no text that begins at one of the offsets from 492 to 495 is too long for what is left. -/
theorem serializeOffsets_le_iff (width : IntegralWidth) (signed : Bool)
    (arr : List (BitVec width.bits)) :
    (∀ offset ∈ serializeOffsets signed arr, offset ≤ BUFFER_SIZE) ↔
      ¬ (width = .bits64 ∧ ∃ p ∈ elementStarts 0 (elementLengths signed 0 arr),
        492 ≤ p.1 ∧ p.1 < 496 ∧ BUFFER_SIZE < p.1 + p.2) := by
  have hoffsets : (∀ offset ∈ serializeOffsets signed arr, offset ≤ BUFFER_SIZE) ↔
      ∀ p ∈ elementStarts 0 (elementLengths signed 0 arr), p.1 + p.2 ≤ BUFFER_SIZE := by
    unfold serializeOffsets
    cases arr with
    | nil => simp [elementLengths, elementStarts]
    | cons val rest =>
        rw [if_neg (by simp)]
        exact writeOffsets_le_iff signed (val :: rest) 0 _ BUFFER_SIZE
  rw [hoffsets]
  constructor
  · rintro h ⟨-, p, hp, -, -, hlarge⟩
    exact absurd (h p hp) (by omega)
  · intro h p hp
    by_contra hlarge
    have hstart := elementStarts_lt hp
    rcases mem_elementLengths signed hstart.2 with ⟨i, val, hlength, -⟩
    have hbound := elementText_length_le width signed i val
    rw [← hlength] at hbound
    have hless : p.1 < 496 := hstart.1
    have hsize : BUFFER_SIZE = 512 := rfl
    by_cases hwidth : width = .bits64
    · rw [if_pos hwidth] at hbound
      exact h ⟨hwidth, p, hp, by omega, hless, by omega⟩
    · rw [if_neg hwidth] at hbound
      omega

/-- Twenty-three numbers of twenty digits, one of twelve, and another of twenty. -/
def crowdedArray : List (BitVec 64) :=
  List.replicate 23 18446744073709551615#64 ++ [100000000000#64, 18446744073709551615#64]

theorem crowdedArray_overflows : 516 ∈ serializeOffsets false crowdedArray ∧
    ¬ ∀ offset ∈ serializeOffsets false crowdedArray, offset ≤ BUFFER_SIZE := by
  have hlate : 516 ∈ serializeOffsets false crowdedArray := by
    decide +kernel
  exact ⟨hlate, fun h => absurd (h 516 hlate) (by decide)⟩

end Json
end Katana
