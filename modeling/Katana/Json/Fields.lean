import Katana.Library.Loop
import Katana.Serde.Cursor

/-!
# Parsing JSON objects into fields

`json_parser.hpp`: an array of field descriptors says which members of an object are
stored where.  The object itself is a record of fields by their offsets.  A
descriptor made by one of the factories has the parse function of its kind.  The
loops over the members and over the elements of an array end because every further
pass moves the cursor.
-/

namespace Katana
namespace Json

open Library Serde
open Http (Byte bytesOf)

def SIZE_MAX : ℕ := 2 ^ 64 - 1

structure StringConstraints where
  minLength : ℕ := 0
  maxLength : ℕ := SIZE_MAX

structure NumberConstraints where
  minimum : Float := -(1.0 / 0.0)
  maximum : Float := 1.0 / 0.0
  exclusiveMinimum : Bool := false
  exclusiveMaximum : Bool := false

structure ArrayConstraints where
  minItems : ℕ := 0
  maxItems : ℕ := SIZE_MAX

inductive FieldKind where
  | string | integer | number | boolean
  | arrayString | arrayInteger | arrayNumber | arrayBoolean
  deriving DecidableEq

def FieldKind.isArray : FieldKind → Bool
  | .arrayString | .arrayInteger | .arrayNumber | .arrayBoolean => true
  | _ => false

inductive IntegralWidth where
  | bits8 | bits16 | bits32 | bits64
  deriving DecidableEq

def IntegralWidth.bits : IntegralWidth → ℕ
  | .bits8 => 8
  | .bits16 => 16
  | .bits32 => 32
  | .bits64 => 64

/-- An integral type, the `Value` of an integer array. -/
inductive IntegralType where
  | bool
  | int (width : IntegralWidth) (signed : Bool)

/-- `static_cast` of a `size_t`. -/
def IntegralType.cast (type : IntegralType) (value : ℕ) : ℤ :=
  match type with
  | .bool => if value = 0 then 0 else 1
  | .int width true => Int.bmod value (2 ^ width.bits)
  | .int width false => (value % 2 ^ width.bits : ℕ)

structure FieldDescriptor where
  jsonName : List Byte
  kind : FieldKind
  required : Bool
  offset : ℤ
  str : StringConstraints := {}
  num : NumberConstraints := {}
  arr : ArrayConstraints := {}
  value : IntegralType := .int .bits64 true

inductive FieldValue where
  | string (value : List Byte)
  | integer (value : Int64)
  | number (value : Float)
  | boolean (value : Bool)
  | strings (values : List (List Byte))
  | integers (values : List ℤ)
  | numbers (values : List Float)
  | booleans (values : List Bool)

/-- The fields of the object by their offsets. -/
abbrev Record := ℤ → FieldValue

inductive ValidationErrorCode where
  | requiredFieldMissing | invalidType | stringTooShort | stringTooLong
  | valueTooSmall | valueTooLarge | valueBelowExclusiveMinimum | valueAboveExclusiveMaximum
  | arrayTooSmall | arrayTooLarge
  deriving DecidableEq

structure ValidationError where
  field : List Byte
  code : ValidationErrorCode
  constraintValue : Float := 0.0

/-- Where the cursor and the object are when a parse function returns, and whether
it returns an error. -/
structure FieldOutcome where
  error : Option ValidationError
  cur : JsonCursor
  obj : Record

/-! ## Single values -/

/-- The checks of the length of a string. -/
def lengthError (desc : FieldDescriptor) (length : ℕ) : Option ValidationError :=
  if length < desc.str.minLength then
    some ⟨desc.jsonName, .stringTooShort, .ofNat desc.str.minLength⟩
  else if desc.str.maxLength < length then
    some ⟨desc.jsonName, .stringTooLong, .ofNat desc.str.maxLength⟩
  else none

/-- The checks of a number, which has been converted to `double`. -/
def numberError (desc : FieldDescriptor) (value : Float) : Option ValidationError :=
  if desc.num.exclusiveMinimum && value ≤ desc.num.minimum then
    some ⟨desc.jsonName, .valueBelowExclusiveMinimum, desc.num.minimum⟩
  else if !desc.num.exclusiveMinimum && value < desc.num.minimum then
    some ⟨desc.jsonName, .valueTooSmall, desc.num.minimum⟩
  else if desc.num.exclusiveMaximum && desc.num.maximum ≤ value then
    some ⟨desc.jsonName, .valueAboveExclusiveMaximum, desc.num.maximum⟩
  else if !desc.num.exclusiveMaximum && desc.num.maximum < value then
    some ⟨desc.jsonName, .valueTooLarge, desc.num.maximum⟩
  else none

/-- A field of one value: it is read, checked and stored. -/
def parseScalarField {α : Type} (read : JsonCursor → Option α × JsonCursor)
    (check : α → Option ValidationError) (store : α → FieldValue) (desc : FieldDescriptor)
    (cur : JsonCursor) (obj : Record) : FieldOutcome :=
  match read cur with
  | (none, cur) => ⟨some { field := desc.jsonName, code := .invalidType }, cur, obj⟩
  | (some value, cur) =>
      match check value with
      | some error => ⟨some error, cur, obj⟩
      | none => ⟨none, cur, Function.update obj desc.offset (store value)⟩

def parseStringField (desc : FieldDescriptor) : JsonCursor → Record → FieldOutcome :=
  parseScalarField JsonCursor.string (fun text => lengthError desc text.length) .string desc

def parseIntegerField (desc : FieldDescriptor) : JsonCursor → Record → FieldOutcome :=
  parseScalarField (fun cur => ((parseSize cur).1.map Int64.ofNat, (parseSize cur).2))
    (fun value => numberError desc value.toFloat) .integer desc

def parseNumberField (desc : FieldDescriptor) : JsonCursor → Record → FieldOutcome :=
  parseScalarField parseDouble (numberError desc) .number desc

def parseBoolField (desc : FieldDescriptor) : JsonCursor → Record → FieldOutcome :=
  parseScalarField parseBool (fun _ => none) .boolean desc

/-! ## Arrays -/

/-- The text that a call of `skip_value` moved over. -/
def skippedValue (cur : JsonCursor) : List Byte :=
  cur.take (cur.length - (JsonCursor.skipValue cur).length)

/-- The cursor in the loop over the elements, and the elements so far. -/
structure ArrayState (α : Type) where
  cur : JsonCursor
  vec : List α

/-- One pass of the loop of `parse_array`; an element whose parser returns nothing
is an error of the type. -/
def arrayPass {α : Type} (parseValue : List Byte → Option α) (s : ArrayState α) :
    Pass (ArrayState α) (Bool × ArrayState α) :=
  if s.cur.isEmpty then .done (true, s)
  else
    let cur := s.cur.skipWs
    let closed := JsonCursor.tryArrayEnd cur
    if closed.1 then .done (true, { s with cur := closed.2 })
    else
      match parseValue (skippedValue cur) with
      | none => .done (false, { s with cur := cur.skipValue })
      | some value =>
          .again { cur := (JsonCursor.tryComma cur.skipValue).2, vec := s.vec ++ [value] }

def arrayLoop {α : Type} (parseValue : List Byte → Option α) (s : ArrayState α) :
    Bool × ArrayState α :=
  evalLoop (arrayPass parseValue) (fun s => s.cur.length) (fun s => (false, s)) s

def sizeError (desc : FieldDescriptor) (size : ℕ) : Option ValidationError :=
  if size < desc.arr.minItems then
    some ⟨desc.jsonName, .arrayTooSmall, .ofNat desc.arr.minItems⟩
  else if desc.arr.maxItems < size then
    some ⟨desc.jsonName, .arrayTooLarge, .ofNat desc.arr.maxItems⟩
  else none

/-- `parse_array`; the vector is the field itself. -/
def parseArray {α : Type} (parseValue : List Byte → Option α) (store : List α → FieldValue)
    (desc : FieldDescriptor) (cur : JsonCursor) (obj : Record) : FieldOutcome :=
  let opened := JsonCursor.tryArrayStart cur
  if !opened.1 then ⟨some { field := desc.jsonName, code := .invalidType }, opened.2, obj⟩
  else
    let result := arrayLoop parseValue ⟨opened.2, []⟩
    let obj := Function.update obj desc.offset (store result.2.vec)
    if !result.1 then ⟨some { field := desc.jsonName, code := .invalidType }, result.2.cur, obj⟩
    else ⟨sizeError desc result.2.vec.length, result.2.cur, obj⟩

def parseStringElem (sv : List Byte) : Option (List Byte) := (JsonCursor.string sv).1

def parseIntegerElem (type : IntegralType) (sv : List Byte) : Option ℤ :=
  (parseSize sv).1.map type.cast

def parseNumberElem (sv : List Byte) : Option Float := (parseDouble sv).1

def parseBoolElem (sv : List Byte) : Option Bool := (parseBool sv).1

def parseStringArray (desc : FieldDescriptor) : JsonCursor → Record → FieldOutcome :=
  parseArray parseStringElem .strings desc

def parseIntegerArray (desc : FieldDescriptor) : JsonCursor → Record → FieldOutcome :=
  parseArray (parseIntegerElem desc.value) .integers desc

def parseNumberArray (desc : FieldDescriptor) : JsonCursor → Record → FieldOutcome :=
  parseArray parseNumberElem .numbers desc

def parseBoolArray (desc : FieldDescriptor) : JsonCursor → Record → FieldOutcome :=
  parseArray parseBoolElem .booleans desc

/-- The `parse` member of a descriptor. -/
def FieldDescriptor.parse (desc : FieldDescriptor) : JsonCursor → Record → FieldOutcome :=
  match desc.kind with
  | .string => parseStringField desc
  | .integer => parseIntegerField desc
  | .number => parseNumberField desc
  | .boolean => parseBoolField desc
  | .arrayString => parseStringArray desc
  | .arrayInteger => parseIntegerArray desc
  | .arrayNumber => parseNumberArray desc
  | .arrayBoolean => parseBoolArray desc

/-! ## Objects -/

/-- The cursor in the loop over the members, the object, and which fields have been
seen. -/
structure ObjectState where
  cur : JsonCursor
  obj : Record
  seen : ℕ → Bool

/-- The value of a member, with the first descriptor of its name. -/
def parseMember (fields : List FieldDescriptor) (key : List Byte) (cur : JsonCursor)
    (s : ObjectState) : Option ValidationError × ObjectState :=
  match fields.findIdx? (fun desc => key = desc.jsonName) with
  | none => (none, { s with cur := cur.skipValue })
  | some i =>
      match fields[i]? with
      | none => (none, { s with cur := cur })
      | some desc =>
          let outcome := desc.parse cur s.obj
          (outcome.error,
            { cur := outcome.cur, obj := outcome.obj, seen := Function.update s.seen i true })

/-- One pass of the loop of `parse_object`. -/
def objectPass (fields : List FieldDescriptor) (s : ObjectState) :
    Pass ObjectState (Option ValidationError × ObjectState) :=
  if s.cur.isEmpty then .done (none, s)
  else
    let closed := JsonCursor.tryObjectEnd s.cur.skipWs
    if closed.1 then .done (none, { s with cur := closed.2 })
    else
      match JsonCursor.string closed.2 with
      | (none, cur) => .done (some { field := [], code := .invalidType }, { s with cur := cur })
      | (some key, cur) =>
          let colon := JsonCursor.consume COLON cur
          if !colon.1 then
            .done (some { field := [], code := .invalidType }, { s with cur := colon.2 })
          else
            match parseMember fields key colon.2 s with
            | (some error, s) => .done (some error, s)
            | (none, s) => .again { s with cur := (JsonCursor.tryComma s.cur).2 }

def objectLoop (fields : List FieldDescriptor) (s : ObjectState) :
    Option ValidationError × ObjectState :=
  evalLoop (objectPass fields) (fun s => s.cur.length) (fun s => (none, s)) s

/-- The first required field that has not been seen. -/
def missingField (fields : List FieldDescriptor) (seen : ℕ → Bool) : Option ValidationError :=
  ((fields.zipIdx.find? fun entry => entry.1.required && !seen entry.2).map fun entry =>
    { field := entry.1.jsonName, code := .requiredFieldMissing })

/-- The first `parse_object`, which writes into an object and tells what it has
seen. -/
def parseObjectInto (json : List Byte) (fields : List FieldDescriptor) (out : Record)
    (seen : ℕ → Bool) : Option ValidationError × ObjectState :=
  let opened := JsonCursor.tryObjectStart json
  if !opened.1 then (some { field := [], code := .invalidType }, ⟨opened.2, out, seen⟩)
  else
    match objectLoop fields ⟨opened.2, out, seen⟩ with
    | (some error, s) => (some error, s)
    | (none, s) => (missingField fields s.seen, s)

/-- The second `parse_object`; `obj` is a `T` just constructed. -/
def parseObject (json : List Byte) (fields : List FieldDescriptor) (obj : Record) :
    Except ValidationError Record :=
  match parseObjectInto json fields obj (fun _ => false) with
  | (some error, _) => .error error
  | (none, s) => .ok s.obj

/-! ## The loops end -/

theorem parseScalarField_suffix {α : Type} {read : JsonCursor → Option α × JsonCursor}
    (hread : ∀ cur, (read cur).2 <:+ cur) (check : α → Option ValidationError)
    (store : α → FieldValue) (desc : FieldDescriptor) (cur : JsonCursor) (obj : Record) :
    (parseScalarField read check store desc cur obj).cur <:+ cur := by
  have hcur := hread cur
  unfold parseScalarField
  split
  next heq => simpa [heq] using hcur
  next value behind heq =>
    rw [heq] at hcur
    split <;> exact hcur

theorem skippedValue_of_skipWs {cur : JsonCursor} (hcur : cur.skipWs = []) :
    skippedValue cur.skipWs = [] := by
  simp [hcur, skippedValue]

/-- Where no bytes are skipped, the element has no text. -/
theorem skipValue_lt_of_skipped {cur : JsonCursor} (h : skippedValue cur ≠ []) :
    cur.skipValue.length < cur.length := by
  by_contra hnot
  apply h
  unfold skippedValue
  rw [Nat.sub_eq_zero_of_le (Nat.not_lt.mp hnot), List.take_zero]

theorem tryComma_suffix (cur : JsonCursor) : (JsonCursor.tryComma cur).2 <:+ cur :=
  JsonCursor.consume_suffix _ _

section Elements

variable {α : Type} {parseValue : List Byte → Option α}

theorem arrayPass_suffix {s next : ArrayState α} (hpass : arrayPass parseValue s = .again next) :
    next.cur <:+ s.cur := by
  unfold arrayPass at hpass
  dsimp only at hpass
  split_ifs at hpass
  split at hpass
  next => cases hpass
  next value hvalue =>
    cases hpass
    exact ((tryComma_suffix _).trans (JsonCursor.skipValue_suffix _)).trans
      (JsonCursor.skipWs_suffix _)

theorem decreases_arrayPass (hempty : parseValue [] = none) :
    Decreases (arrayPass parseValue) fun s => s.cur.length := by
  intro s next hpass
  unfold arrayPass at hpass
  dsimp only at hpass
  split_ifs at hpass
  split at hpass
  next => cases hpass
  next value hvalue =>
    cases hpass
    have htext : skippedValue s.cur.skipWs ≠ [] := by
      intro hnil
      rw [hnil, hempty] at hvalue
      cases hvalue
    calc (JsonCursor.tryComma s.cur.skipWs.skipValue).2.length
        ≤ s.cur.skipWs.skipValue.length := (tryComma_suffix _).length_le
      _ < s.cur.skipWs.length := skipValue_lt_of_skipped htext
      _ ≤ s.cur.length := (JsonCursor.skipWs_suffix _).length_le

theorem arrayPass_done_suffix {s : ArrayState α} {result : Bool × ArrayState α}
    (hpass : arrayPass parseValue s = .done result) : result.2.cur <:+ s.cur := by
  have hws := JsonCursor.skipWs_suffix s.cur
  unfold arrayPass at hpass
  dsimp only at hpass
  split_ifs at hpass
  · cases hpass
    exact List.suffix_rfl
  · cases hpass
    exact (JsonCursor.consume_suffix _ _).trans hws
  · split at hpass
    next =>
      cases hpass
      exact (JsonCursor.skipValue_suffix _).trans hws
    next => cases hpass

theorem arrayLoop_suffix (hempty : parseValue [] = none) (s : ArrayState α) :
    (arrayLoop parseValue s).2.cur <:+ s.cur := by
  rcases evalLoop_endsWith (decreases_arrayPass hempty) (fun s => (false, s)) s with
    ⟨last, hpasses, hdone⟩
  have hkeep : ∀ t next, t.cur <:+ s.cur → arrayPass parseValue t = .again next →
      next.cur <:+ s.cur := by
    intro t next hgood hpass
    exact (arrayPass_suffix hpass).trans hgood
  exact (arrayPass_done_suffix hdone).trans (hpasses.invariant hkeep List.suffix_rfl)

theorem parseArray_suffix (hempty : parseValue [] = none) (store : List α → FieldValue)
    (desc : FieldDescriptor) (cur : JsonCursor) (obj : Record) :
    (parseArray parseValue store desc cur obj).cur <:+ cur := by
  have hopened := JsonCursor.consume_suffix OPEN_BRACKET cur
  unfold parseArray
  dsimp only
  split
  · exact hopened
  · have hloop := (arrayLoop_suffix hempty ⟨(JsonCursor.tryArrayStart cur).2, []⟩).trans hopened
    split <;> exact hloop

end Elements

theorem parse_suffix (desc : FieldDescriptor) (cur : JsonCursor) (obj : Record) :
    (desc.parse cur obj).cur <:+ cur := by
  unfold FieldDescriptor.parse
  cases desc.kind with
  | string => exact parseScalarField_suffix JsonCursor.string_suffix _ _ desc cur obj
  | integer =>
      apply parseScalarField_suffix
      exact parseSize_suffix
  | number => exact parseScalarField_suffix parseDouble_suffix _ _ desc cur obj
  | boolean => exact parseScalarField_suffix parseBool_suffix _ _ desc cur obj
  | arrayString => exact parseArray_suffix rfl _ desc cur obj
  | arrayInteger => exact parseArray_suffix rfl _ desc cur obj
  | arrayNumber => exact parseArray_suffix rfl _ desc cur obj
  | arrayBoolean => exact parseArray_suffix rfl _ desc cur obj

theorem parseMember_suffix (fields : List FieldDescriptor) (key : List Byte) (cur : JsonCursor)
    (s : ObjectState) : (parseMember fields key cur s).2.cur <:+ cur := by
  unfold parseMember
  split
  next => exact JsonCursor.skipValue_suffix cur
  next i _ =>
    split
    next => exact List.suffix_rfl
    next desc _ => exact parse_suffix desc cur s.obj

theorem decreases_objectPass (fields : List FieldDescriptor) :
    Decreases (objectPass fields) fun s => s.cur.length := by
  intro s next hpass
  unfold objectPass at hpass
  dsimp only at hpass
  split_ifs at hpass
  split at hpass
  next => cases hpass
  next key behind hkey =>
    split at hpass
    next => cases hpass
    next =>
      have hmember := parseMember_suffix fields key (JsonCursor.consume COLON behind).2 s
      split at hpass
      next => cases hpass
      next s' hvalue =>
        cases hpass
        rw [hvalue] at hmember
        have hstring := JsonCursor.string_lt (congrArg Prod.fst hkey)
        rw [hkey] at hstring
        have hclosed : (JsonCursor.tryObjectEnd s.cur.skipWs).2.length ≤ s.cur.length :=
          ((JsonCursor.consume_suffix _ _).trans (JsonCursor.skipWs_suffix _)).length_le
        have hcolon := (JsonCursor.consume_suffix COLON behind).length_le
        have hcomma := (tryComma_suffix s'.cur).length_le
        have hlength := hmember.length_le
        dsimp only at hstring hlength ⊢
        omega

end Json
end Katana
