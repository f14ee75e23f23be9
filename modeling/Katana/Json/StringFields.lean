import Katana.Json.Fields
import Katana.Serde.Escape

/-!
# Strings written and read back

A string is written with `escape_json_string` and read back as the value of a
member or as an element of an array.  What is stored, and what the checks of the
length see, is the text between the quotes with its escapes.  So a string comes back
exactly if none of its bytes needs an escape, or if it is rejected either way.
-/

namespace Katana
namespace Json

open Library Serde
open Http (Byte bytesOf)

section Member

variable {fields : List FieldDescriptor} {s : ObjectState} {i : ℕ} {desc : FieldDescriptor}
  {after rest : List Byte}

/-- The cursor stands before a member of the given name; `after` follows its
colon. -/
structure AtMember (s : ObjectState) (name after : List Byte) : Prop where
  key : s.cur.skipWs.string.1 = some name
  colon : JsonCursor.consume COLON s.cur.skipWs.string.2 = (true, after)

/-- The first descriptor of its name. -/
structure Describes (fields : List FieldDescriptor) (i : ℕ) (desc : FieldDescriptor) : Prop where
  index : fields.findIdx? (fun other => desc.jsonName = other.jsonName) = some i
  desc : fields[i]? = some desc

/-- What becomes of a member whose value is a string: its length is checked, and
it is stored in the field. -/
def storeString (s : ObjectState) (i : ℕ) (desc : FieldDescriptor) (value rest : List Byte) :
    Pass ObjectState (Option ValidationError × ObjectState) :=
  let seen := Function.update s.seen i true
  match lengthError desc value.length with
  | some error => .done (some error, { cur := rest, obj := s.obj, seen := seen })
  | none => .again {
      cur := (JsonCursor.tryComma rest).2
      obj := Function.update s.obj desc.offset (.string value)
      seen := seen }

theorem objectPass_atMember {name : List Byte} (hmember : AtMember s name after) :
    objectPass fields s =
      match parseMember fields name after s with
      | (some error, s) => .done (some error, s)
      | (none, s) => .again { s with cur := (JsonCursor.tryComma s.cur).2 } := by
  have hquote := JsonCursor.string_split hmember.key
  rw [JsonCursor.skipWs_skipWs] at hquote
  have hcur : s.cur.isEmpty = false := by
    cases hempty : s.cur with
    | nil => simp [hempty, JsonCursor.skipWs] at hquote
    | cons c rest => rfl
  have hclosed : JsonCursor.tryObjectEnd s.cur.skipWs = (false, s.cur.skipWs) := by
    unfold JsonCursor.tryObjectEnd JsonCursor.consume
    rw [JsonCursor.skipWs_skipWs, hquote]
    rfl
  have hstring : s.cur.skipWs.string = (some name, s.cur.skipWs.string.2) :=
    Prod.ext hmember.key rfl
  unfold objectPass
  simp only [hcur, hclosed, Bool.false_eq_true, if_false]
  rw [hstring]
  rcases hparse : parseMember fields name after s with ⟨_ | error, t⟩
  · simp [hmember.colon, hparse]
  · simp [hmember.colon, hparse]

theorem objectPass_string (hmember : AtMember s desc.jsonName after)
    (hdesc : Describes fields i desc) (hkind : desc.kind = .string) {text : List Byte}
    (htext : Enclosed text) (hvalue : JsonCursor.skipWs after = quoted text ++ rest) :
    objectPass fields s = storeString s i desc text rest := by
  rw [objectPass_atMember hmember]
  unfold parseMember storeString
  simp only [hdesc.index, hdesc.desc, FieldDescriptor.parse, hkind, parseStringField,
    parseScalarField, htext.string hvalue]
  cases lengthError desc text.length <;> rfl

/-- Two strings are treated alike exactly if they are the same or are rejected for
the same reason. -/
theorem storeString_eq_iff {value text : List Byte} (hlength : value.length ≤ text.length) :
    storeString s i desc text rest = storeString s i desc value rest ↔
      text = value ∨ text.length < desc.str.minLength ∨
        (desc.str.minLength ≤ value.length ∧ desc.str.maxLength < value.length) := by
  unfold storeString lengthError
  dsimp only
  by_cases hshort : value.length < desc.str.minLength
  · by_cases hshort' : text.length < desc.str.minLength
    · simp [hshort, hshort']
    · have hne : text ≠ value := by
        rintro rfl
        exact hshort' hshort
      by_cases hlong' : desc.str.maxLength < text.length
      · simp [hshort, hshort', hlong', hne]
      · simp [hshort, hshort', hlong', hne]
  · have hshort' : ¬ text.length < desc.str.minLength := by omega
    by_cases hlong : desc.str.maxLength < value.length
    · have hlong' : desc.str.maxLength < text.length := by omega
      simp [hshort, hshort', hlong, hlong', Nat.not_lt.mp hshort]
    · by_cases hlong' : desc.str.maxLength < text.length
      · have hne : text ≠ value := by
          rintro rfl
          exact hlong hlong'
        simp [hshort, hshort', hlong, hlong', hne]
      · simp only [hshort, hshort', hlong, hlong', if_false, Pass.again.injEq,
          ObjectState.mk.injEq, true_and, and_true, and_false, or_false]
        constructor
        · intro heq
          have hfield := congrFun heq desc.offset
          simpa using hfield
        · rintro rfl
          rfl

end Member

/-- An element of an array that is a string. -/
theorem arrayPass_string {s : ArrayState (List Byte)} {text rest : List Byte}
    (htext : Enclosed text) (hvalue : s.cur.skipWs = quoted text ++ rest) :
    arrayPass parseStringElem s =
      .again { cur := (JsonCursor.tryComma rest).2, vec := s.vec ++ [text] } := by
  have hws : (s.cur.skipWs).skipWs = quoted text ++ rest := by
    rw [JsonCursor.skipWs_skipWs, hvalue]
  have hcur : s.cur.isEmpty = false := by
    cases hempty : s.cur with
    | nil => simp [hempty, JsonCursor.skipWs, quoted] at hvalue
    | cons c rest => rfl
  have hclosed : (JsonCursor.tryArrayEnd s.cur.skipWs).1 = false := by
    unfold JsonCursor.tryArrayEnd JsonCursor.consume
    rw [hws]
    rfl
  have hskip : s.cur.skipWs.skipValue = rest := htext.skipValue hws
  have hskipped : skippedValue s.cur.skipWs = quoted text := by
    unfold skippedValue
    rw [hskip, hvalue, List.length_append, Nat.add_sub_cancel, List.take_left]
  have helem : parseStringElem (quoted text) = some text := by
    have hown : JsonCursor.skipWs (quoted text) = quoted text ++ [] := by
      rw [List.append_nil]
      rfl
    exact congrArg Prod.fst (htext.string hown)
  unfold arrayPass
  simp only [hcur, hclosed, hskipped, helem, hskip, Bool.false_eq_true, if_false]

/-- A string written as the value of a string field is read back, and its own length
is checked, exactly if it needs no escape or is rejected for the same reason with
its escapes; written as an element of an array it is read back exactly if it needs no
escape. -/
theorem string_survives_iff (build : Build) (value rest : List Byte) :
    (∀ (fields : List FieldDescriptor) (s : ObjectState) (i : ℕ) (desc : FieldDescriptor)
        (after : List Byte), AtMember s desc.jsonName after → Describes fields i desc →
        desc.kind = .string →
        JsonCursor.skipWs after = quoted (escapeJsonString build value) ++ rest →
        (objectPass fields s = storeString s i desc value rest ↔
          needsJsonEscaping build value = false ∨
            (escapeJsonString build value).length < desc.str.minLength ∨
              (desc.str.minLength ≤ value.length ∧ desc.str.maxLength < value.length))) ∧
      ∀ s : ArrayState (List Byte),
        s.cur.skipWs = quoted (escapeJsonString build value) ++ rest →
        (arrayPass parseStringElem s =
            .again { cur := (JsonCursor.tryComma rest).2, vec := s.vec ++ [value] } ↔
          needsJsonEscaping build value = false) := by
  constructor
  · intro fields s i desc after hmember hdesc hkind hvalue
    rw [objectPass_string hmember hdesc hkind (enclosed_escape build value) hvalue,
      storeString_eq_iff (length_escape build value), escape_eq_iff]
  · intro s hvalue
    rw [arrayPass_string (enclosed_escape build value) hvalue, ← escape_eq_iff]
    simp

/-- A required string field of at least two bytes. -/
def nameField : FieldDescriptor :=
  { jsonName := bytesOf "name", kind := .string, required := true, offset := 0,
    str := { minLength := 2 } }

def nameState : ObjectState :=
  ⟨bytesOf "\"name\" : \"ab\"\x7d", fun _ => .boolean false, fun _ => false⟩

theorem string_survives_name :
    objectPass [nameField] nameState =
        storeString nameState 0 nameField (bytesOf "ab") (bytesOf "\x7d") ∧
      arrayPass parseStringElem ⟨bytesOf " \"ab\"\x7d", []⟩ =
        .again { cur := bytesOf "\x7d", vec := [bytesOf "ab"] } := by
  have hclean : needsJsonEscaping .plain (bytesOf "ab") = false := by decide +kernel
  have hplain : escapeJsonString .plain (bytesOf "ab") = bytesOf "ab" :=
    (escape_eq_iff .plain _).mpr hclean
  have hmember : AtMember nameState nameField.jsonName (bytesOf " \"ab\"\x7d") := by
    constructor <;> decide +kernel
  have hdesc : Describes [nameField] 0 nameField := by
    constructor
    · decide +kernel
    · rfl
  have hvalue : JsonCursor.skipWs (bytesOf " \"ab\"\x7d") =
      quoted (escapeJsonString .plain (bytesOf "ab")) ++ bytesOf "\x7d" := by
    rw [hplain]
    decide +kernel
  have hboth := string_survives_iff .plain (bytesOf "ab") (bytesOf "\x7d")
  constructor
  · exact (hboth.1 _ _ 0 nameField _ hmember hdesc rfl hvalue).mpr (.inl hclean)
  · exact (hboth.2 ⟨bytesOf " \"ab\"\x7d", []⟩ hvalue).mpr hclean

/-- The text that a record holds at offset 0. -/
def storedText (outcome : Except ValidationError Record) : Option (List Byte) :=
  match outcome with
  | .ok record =>
      match record 0 with
      | .string value => some value
      | _ => none
  | .error _ => none

/-- The string of a newline is stored as a backslash and a letter, and passes a
check that asks for two bytes. -/
theorem newline_stored_escaped :
    escapeJsonString .plain [0x0a] = bytesOf "\\n" ∧
      storedText (parseObject (bytesOf "\x7b\"name\":\"\\n\"\x7d") [nameField] fun _ => .boolean false) =
        some (bytesOf "\\n") ∧
      bytesOf "\\n" ≠ [0x0a] := by
  refine ⟨?_, by decide +kernel, by decide +kernel⟩
  rw [escapeJsonString_eq]
  decide +kernel

end Json
end Katana
