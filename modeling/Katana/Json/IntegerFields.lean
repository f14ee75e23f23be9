import Katana.Json.Readers

/-!
# Integer fields

An integer field and the elements of an integer array are read with `parse_size`,
which takes no sign and stops at a point or an exponent, and then cast.  A field takes
the literals below 2^63 and sees what is left of other numbers; the literals from 2^63
on come out negative, and those with a sign are refused.  The text of an element ends
with the element, so what `parse_size` leaves of it is lost, and the cast brings every
value into the range of the type.
-/

namespace Katana
namespace Json

open Library Serde
open Library.JsonText (Space Digits Number Element)
open Http (Byte bytesOf)

/-- The least value of the type. -/
def IntegralType.low : IntegralType → ℤ
  | .bool => 0
  | .int width true => -2 ^ (width.bits - 1)
  | .int _ false => 0

/-- The greatest value of the type. -/
def IntegralType.high : IntegralType → ℤ
  | .bool => 1
  | .int width true => 2 ^ (width.bits - 1) - 1
  | .int width false => 2 ^ width.bits - 1

theorem IntegralType.low_le (type : IntegralType) : type.low ≤ 0 := by
  cases type with
  | bool => exact le_rfl
  | int width signed => cases signed <;> cases width <;> decide

theorem IntegralType.le_high (type : IntegralType) : 0 ≤ type.high := by
  cases type with
  | bool => decide
  | int width signed => cases signed <;> cases width <;> decide

theorem IntegralType.high_lt (type : IntegralType) : type.high < 2 ^ 64 := by
  cases type with
  | bool => decide
  | int width signed => cases signed <;> cases width <;> decide

/-- The cast keeps what is in range. -/
theorem IntegralType.cast_eq {type : IntegralType} {value : ℕ} (h : (value : ℤ) ≤ type.high) :
    type.cast value = value := by
  cases type with
  | bool =>
      have hone : value ≤ 1 := Int.ofNat_le.mp h
      interval_cases value <;> rfl
  | int width signed =>
      cases signed with
      | true =>
          apply Int.bmod_eq_of_le <;> cases width <;>
            simp only [IntegralType.high, IntegralWidth.bits] at h ⊢ <;> omega
      | false =>
          have hlt : value < 2 ^ width.bits := by
            zify
            exact Int.le_sub_one_iff.mp h
          exact congrArg Int.ofNat (Nat.mod_eq_of_lt hlt)

/-- The number has neither a fraction nor an exponent. -/
def isInteger (n : Number) : Bool :=
  n.frac.isNone && n.exponent.isNone

def integerValue (n : Number) : ℤ :=
  if n.minus then -wholeValue n else wholeValue n

theorem behind_integer {n : Number} (h : isInteger n = true) : n.behind = [] := by
  simp only [isInteger, Bool.and_eq_true, Option.isNone_iff_eq_none] at h
  simp [JsonText.Number.behind, h]

theorem behind_other {n : Number} (h : isInteger n = false) : Lost n.behind := by
  apply (behind_lost n).resolve_left
  intro hnil
  have hboth : isInteger n = true := by
    simp only [JsonText.Number.behind, List.append_eq_nil_iff] at hnil
    unfold isInteger
    cases hfrac : n.frac with
    | some digits => simp [hfrac] at hnil
    | none =>
        cases hexponent : n.exponent with
        | some exponent => simp [hexponent, JsonText.Exponent.text] at hnil
        | none => rfl
  rw [h] at hboth
  cases hboth

/-! ## Fields -/

/-- The checks of the constraints, and the value stored if it passes them. -/
def checked (desc : FieldDescriptor) (value : Int64) (rest : JsonCursor) (obj : Record) :
    FieldOutcome :=
  match numberError desc value.toFloat with
  | some error => ⟨some error, rest, obj⟩
  | none => ⟨none, rest, Function.update obj desc.offset (.integer value)⟩

/-- The field takes the number if it is an integer of 64 bits, and does not take it
otherwise. -/
def FieldExact (desc : FieldDescriptor) (n : Number) : Prop :=
  ∀ rest obj, EndsValue rest →
    if isInteger n = true ∧ -2 ^ 63 ≤ integerValue n ∧ integerValue n ≤ 2 ^ 63 - 1 then
      parseIntegerField desc (n.text ++ rest) obj =
        checked desc (Int64.ofInt (integerValue n)) rest obj
    else
      (parseIntegerField desc (n.text ++ rest) obj).error =
          some { field := desc.jsonName, code := .invalidType } ∨
        Lost (parseIntegerField desc (n.text ++ rest) obj).cur

/-- Integers with a sign that are in range, and those without one that are in range as
a `size_t` only. -/
def FieldMisreads (n : Number) : Prop :=
  isInteger n = true ∧
    if n.minus then wholeValue n ≤ 2 ^ 63 else 2 ^ 63 ≤ wholeValue n ∧ wholeValue n < 2 ^ 64

theorem parseIntegerField_number (desc : FieldDescriptor) (n : Number) {rest : JsonCursor}
    (hrest : Apart rest) (obj : Record) :
    parseIntegerField desc (n.text ++ rest) obj =
      if n.minus = false ∧ wholeValue n < 2 ^ 64 then
        checked desc (Int64.ofNat (wholeValue n)) (n.behind ++ rest) obj
      else ⟨some { field := desc.jsonName, code := .invalidType }, n.text ++ rest, obj⟩ := by
  unfold parseIntegerField parseScalarField checked
  by_cases hread : n.minus = false ∧ wholeValue n < 2 ^ 64
  · simp only [parseSize_number n hrest, if_pos hread, Option.map_some] <;> rfl
  · simp only [parseSize_number n hrest, if_neg hread, Option.map_none]

theorem checked_cur (desc : FieldDescriptor) (value : Int64) (rest : JsonCursor) (obj : Record) :
    (checked desc value rest obj).cur = rest := by
  unfold checked
  cases numberError desc value.toFloat <;> rfl

theorem numberError_code {desc : FieldDescriptor} {value : Float} {error : ValidationError}
    (h : numberError desc value = some error) : error.code ≠ .invalidType := by
  unfold numberError at h
  split_ifs at h <;> cases h <;> nofun

/-- The check of a number does not say that it has the wrong type. -/
theorem checked_error (desc : FieldDescriptor) (value : Int64) (rest : JsonCursor) (obj : Record) :
    (checked desc value rest obj).error ≠
      some { field := desc.jsonName, code := .invalidType } := by
  unfold checked
  cases herror : numberError desc value.toFloat with
  | none => nofun
  | some error =>
      intro heq
      apply numberError_code herror
      rw [Option.some.inj heq]

theorem fieldExact_iff (desc : FieldDescriptor) (n : Number) :
    FieldExact desc n ↔ ¬ FieldMisreads n := by
  have hread {rest : JsonCursor} (hrest : EndsValue rest) (obj : Record) :=
    parseIntegerField_number desc n hrest.apart obj
  unfold FieldExact FieldMisreads integerValue
  cases hinteger : isInteger n with
  | false =>
      -- a fraction or an exponent is left behind
      simp only [Bool.false_eq_true, false_and, if_false, not_false_iff, iff_true]
      intro rest obj hrest
      rw [hread hrest]
      split
      · right
        rw [checked_cur]
        exact (behind_other hinteger).append rest
      · exact .inl rfl
  | true =>
      have hbehind := behind_integer hinteger
      simp only [true_and, hbehind, List.nil_append] at hread ⊢
      cases hminus : n.minus with
      | true =>
          simp only [hminus, Bool.true_eq_false, false_and, if_false] at hread
          simp only [if_true]
          constructor
          · intro hexact hle
            have hrange : -2 ^ 63 ≤ -(wholeValue n : ℤ) ∧ -(wholeValue n : ℤ) ≤ 2 ^ 63 - 1 := by
              omega
            have hvalue := hexact [] (fun _ => .boolean false) (.inl rfl)
            rw [if_pos hrange, hread (.inl rfl)] at hvalue
            exact checked_error desc _ _ _ (congrArg FieldOutcome.error hvalue).symm
          · intro hlarge rest obj hrest
            have hrange : ¬ (-2 ^ 63 ≤ -(wholeValue n : ℤ) ∧ -(wholeValue n : ℤ) ≤ 2 ^ 63 - 1) := by
              omega
            rw [if_neg hrange, hread hrest]
            exact .inl rfl
      | false =>
          simp only [hminus, true_and] at hread
          simp only [Bool.false_eq_true, if_false]
          constructor
          · intro hexact hmiddle
            have hrange : ¬ (-2 ^ 63 ≤ (wholeValue n : ℤ) ∧ (wholeValue n : ℤ) ≤ 2 ^ 63 - 1) := by
              omega
            have hrefused := hexact [] (fun _ => .boolean false) (.inl rfl)
            rw [if_neg hrange, hread (.inl rfl), if_pos hmiddle.2, checked_cur] at hrefused
            rcases hrefused with herror | ⟨c, tail, hcur, -⟩
            · exact checked_error desc _ _ _ herror
            · cases hcur
          · intro houtside rest obj hrest
            rw [hread hrest]
            by_cases hsmall : wholeValue n < 2 ^ 63
            · have hrange : -2 ^ 63 ≤ (wholeValue n : ℤ) ∧ (wholeValue n : ℤ) ≤ 2 ^ 63 - 1 := by
                omega
              rw [if_pos hrange, if_pos (by omega), Int64.ofInt_eq_ofNat]
            · have hrange : ¬ (-2 ^ 63 ≤ (wholeValue n : ℤ) ∧ (wholeValue n : ℤ) ≤ 2 ^ 63 - 1) := by
                omega
              rw [if_neg hrange, if_neg (by omega)]
              exact .inl rfl

/-! ## Elements of arrays -/

/-- The pass over an element stores the number if it is an integer in the range of the
type, and ends the loop with an error otherwise. -/
def ElementExact (type : IntegralType) (n : Number) : Prop :=
  ∀ (before after : Space) (tail : List Byte) (vec : List ℤ), Follows tail →
    if isInteger n = true ∧ type.low ≤ integerValue n ∧ integerValue n ≤ type.high then
      arrayPass (parseIntegerElem type) ⟨(⟨before, n.text, after⟩ : Element).text ++ tail, vec⟩ =
        .again ⟨(JsonCursor.tryComma tail).2, vec ++ [integerValue n]⟩
    else
      ∃ s, arrayPass (parseIntegerElem type)
        ⟨(⟨before, n.text, after⟩ : Element).text ++ tail, vec⟩ = .done (false, s)

/-- Integers with a sign that are in range, and numbers without one that are not
integers in range, as long as their digits in front of the point are a `size_t`. -/
def ElementMisreads (type : IntegralType) (n : Number) : Prop :=
  if n.minus then isInteger n = true ∧ type.low ≤ integerValue n
  else wholeValue n < 2 ^ 64 ∧ ¬ (isInteger n = true ∧ (wholeValue n : ℤ) ≤ type.high)

theorem notDelimited_number (n : Number) : isDelimited n.text = false := by
  rcases number_start n [] with ⟨c, tail, htext, hc, -, -⟩
  have hfacts := isScalarByte_facts hc
  rw [List.append_nil] at htext
  simp [isDelimited, htext, hfacts]

theorem parseIntegerElem_number (type : IntegralType) (n : Number) (before after : Space) :
    parseIntegerElem type (skippedText ⟨before, n.text, after⟩) =
      if n.minus = false ∧ wholeValue n < 2 ^ 64 then some (type.cast (wholeValue n)) else none := by
  have hapart : Apart after.text := by
    intro c hc
    have hspace : isJsonWhitespace c = true := after.blank c (List.mem_of_mem_head? hc)
    simp [isScalarByte, hspace]
  simp only [skippedText, notDelimited_number, Bool.false_eq_true, if_false, parseIntegerElem,
    parseSize_number n hapart]
  by_cases hread : n.minus = false ∧ wholeValue n < 2 ^ 64
  · simp only [if_pos hread, Option.map_some]
  · simp only [if_neg hread, Option.map_none]

theorem arrayPass_number (type : IntegralType) (n : Number) (before after : Space)
    {tail : List Byte} (htail : Follows tail) (vec : List ℤ) :
    if n.minus = false ∧ wholeValue n < 2 ^ 64 then
      arrayPass (parseIntegerElem type) ⟨(⟨before, n.text, after⟩ : Element).text ++ tail, vec⟩ =
        .again ⟨(JsonCursor.tryComma tail).2, vec ++ [type.cast (wholeValue n)]⟩
    else
      ∃ s, arrayPass (parseIntegerElem type)
        ⟨(⟨before, n.text, after⟩ : Element).text ++ tail, vec⟩ = .done (false, s) := by
  have hvalue : JsonText.IsValue 0 (⟨before, n.text, after⟩ : Element).value := .number n
  have hpass := arrayPass_element (parseIntegerElem type) hvalue htail vec
  rw [parseIntegerElem_number] at hpass
  split
  next hread =>
    rw [if_pos hread] at hpass
    exact hpass
  next hread =>
    rw [if_neg hread] at hpass
    exact ⟨_, hpass⟩

theorem elementExact_iff (type : IntegralType) (n : Number) :
    ElementExact type n ↔ ¬ ElementMisreads type n := by
  have hpass {tail : List Byte} (htail : Follows tail) (before after : Space) (vec : List ℤ) :=
    arrayPass_number type n before after htail vec
  have hlow := type.low_le
  have hhigh := type.le_high
  have hword := type.high_lt
  unfold ElementExact ElementMisreads integerValue
  cases hminus : n.minus with
  | true =>
      have hrange : (isInteger n = true ∧ type.low ≤ -(wholeValue n : ℤ) ∧
          -(wholeValue n : ℤ) ≤ type.high) ↔
            isInteger n = true ∧ type.low ≤ -(wholeValue n : ℤ) := by
        have hle : -(wholeValue n : ℤ) ≤ type.high := by omega
        simp [hle]
      simp only [hminus, Bool.true_eq_false, false_and, if_false] at hpass
      simp only [if_true, hrange]
      constructor
      · intro hexact hin
        have hagain := hexact .none .none _ [] (follows_close [])
        rw [if_pos hin] at hagain
        rcases hpass (follows_close []) .none .none [] with ⟨s, hdone⟩
        rw [hagain] at hdone
        cases hdone
      · intro hout before after tail vec htail
        rw [if_neg hout]
        exact hpass htail before after vec
  | false =>
      have hrange : (isInteger n = true ∧ type.low ≤ (wholeValue n : ℤ) ∧
          (wholeValue n : ℤ) ≤ type.high) ↔
            isInteger n = true ∧ (wholeValue n : ℤ) ≤ type.high := by
        have hle : type.low ≤ (wholeValue n : ℤ) := by omega
        simp [hle]
      simp only [hminus, true_and] at hpass
      simp only [Bool.false_eq_true, if_false, hrange]
      by_cases hsize : wholeValue n < 2 ^ 64
      · simp only [hsize, if_true, true_and, not_not] at hpass ⊢
        constructor
        · intro hexact
          by_contra hout
          have hdone := hexact .none .none _ [] (follows_close [])
          rw [if_neg hout, hpass (follows_close []) .none .none []] at hdone
          rcases hdone with ⟨s, hdone⟩
          cases hdone
        · intro hin before after tail vec htail
          rw [if_pos hin, hpass htail before after vec, IntegralType.cast_eq hin.2]
      · have hout : ¬ (isInteger n = true ∧ (wholeValue n : ℤ) ≤ type.high) := by
          intro hin
          have hle := hin.2
          omega
        simp only [hsize, hout, if_false, false_and, not_false_iff, iff_true] at hpass ⊢
        intro before after tail vec htail
        exact hpass htail before after vec

/-- An integer field reads the numbers exactly that are not among those it misreads, and
an element of an array likewise. -/
theorem integer_exact_iff (desc : FieldDescriptor) (type : IntegralType) (n : Number) :
    (FieldExact desc n ↔ ¬ FieldMisreads n) ∧ (ElementExact type n ↔ ¬ ElementMisreads type n) :=
  ⟨fieldExact_iff desc n, elementExact_iff type n⟩

theorem digits_five : ∀ c ∈ [(0x35 : Byte)], JsonText.isDigit c = true := by
  simp [JsonText.isDigit]

theorem digits_threeHundred : ∀ c ∈ [(0x33 : Byte), 0x30, 0x30], JsonText.isDigit c = true := by
  simp [JsonText.isDigit]

/-- `-5` -/
def minusFive : Number where
  minus := true
  whole := ⟨[0x35], List.cons_ne_nil _ _, digits_five⟩
  frac := none
  exponent := none
  zero := fun _ => rfl

theorem zero_threeHundred (h : [(0x33 : Byte), 0x30, 0x30].head? = some 0x30) :
    [(0x33 : Byte), 0x30, 0x30].length = 1 := by
  cases Option.some.inj h

/-- `300` -/
def threeHundred : Number where
  minus := false
  whole := ⟨[0x33, 0x30, 0x30], List.cons_ne_nil _ _, digits_threeHundred⟩
  frac := none
  exponent := none
  zero := zero_threeHundred

def amountField : FieldDescriptor :=
  { jsonName := bytesOf "amount", kind := .integer, required := true, offset := 0 }

/-- -5 is refused by a field of 64 bits, and 300 is stored as 44 in an array of bytes. -/
theorem misread_numbers :
    ¬ FieldExact amountField minusFive ∧ ¬ ElementExact (.int .bits8 false) threeHundred ∧
      parseIntegerElem (.int .bits8 false) threeHundred.text = some 44 := by
  refine ⟨?_, ?_, by decide⟩
  · rw [fieldExact_iff]
    unfold FieldMisreads
    decide
  · rw [elementExact_iff]
    unfold ElementMisreads
    decide

end Json
end Katana
