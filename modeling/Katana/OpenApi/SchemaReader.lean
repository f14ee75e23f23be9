import Katana.Library.Loop
import Katana.Library.Runs
import Katana.OpenApi.Schema
import Katana.Serde.Cursor

/-!
# Reading schemas

The loops of the loader over the members of objects and the elements of arrays, and the
two functions that read a schema.  The readers never look at a schema that is made, so
they are defined for every pool that schemas are made in.
-/

namespace Katana
namespace OpenApi

open Library
open Http (Byte bytesOf)
open Serde (JsonCursor parseBool parseDouble parseSize parseUnquotedString)

def kMaxSchemaDepth : ℕ := 64
def kMaxSchemaCount : ℕ := 10000

/-- Where schemas are made: each new one gets its place. -/
class SchemaPool (σ : Type) where
  size : σ → ℕ
  add : Schema ℕ Float → σ → ℕ × σ
  update : ℕ → (Schema ℕ Float → Schema ℕ Float) → σ → σ

structure Loading (σ : Type) where
  cur : JsonCursor
  pool : σ

abbrev Reading (σ α : Type) := Run (Loading σ) α

variable {σ α β γ : Type}

/-! ## Steps -/

def onCursor (f : JsonCursor → α × JsonCursor) : Reading σ α :=
  Run.step fun s => ((f s.cur).1, { s with cur := (f s.cur).2 })

def moveCursor (f : JsonCursor → JsonCursor) : Reading σ Unit :=
  onCursor fun cur => ((), f cur)

def atEnd : Reading σ Bool :=
  onCursor fun cur => (cur.isEmpty, cur)

/-- `++cur.ptr` -/
def advance : Reading σ Unit :=
  moveCursor List.tail

def skipValue : Reading σ Unit :=
  moveCursor JsonCursor.skipValue

def tryComma : Reading σ Unit :=
  moveCursor fun cur => (JsonCursor.tryComma cur).2

/-- `while (!cur.eof() && !cur.try_object_end()) ++cur.ptr;` -/
def toObjectEnd : Reading σ Unit :=
  moveCursor fun cur => (cur.dropWhile (· ≠ Serde.CLOSE_BRACE)).tail

/-- The text of a string, or what stands there without quotes. -/
def rawText : Reading σ (List Byte) := do
  match ← onCursor JsonCursor.string with
  | some text => pure text
  | none => onCursor parseUnquotedString

section Pool

variable [SchemaPool σ]

/-- `pool.make` -/
def addSchema (schema : Schema ℕ Float) : Reading σ ℕ :=
  Run.step fun s =>
    ((SchemaPool.add schema s.pool).1, { s with pool := (SchemaPool.add schema s.pool).2 })

def updateSchema (place : ℕ) (f : Schema ℕ Float → Schema ℕ Float) : Reading σ Unit :=
  Run.step fun s => ((), { s with pool := SchemaPool.update place f s.pool })

end Pool

/-! ## Loops -/

/-- The loop over the members of an object, whose opening brace has been read.  The flag
says whether the loop stops at a closing brace. -/
def eachMember (closes : Bool) (finish : β → γ) (body : List Byte → β → Reading σ (Pass β γ)) :
    ℕ → β → Reading σ γ
  | 0, _ => Run.unfinished
  | passes + 1, b => do
      let ended ← atEnd
      let closed ← onCursor fun cur =>
        if !ended && closes then JsonCursor.tryObjectEnd cur else (false, cur)
      if ended || closed then pure (finish b)
      else do
        match ← onCursor JsonCursor.string with
        | none => do
            advance
            eachMember closes finish body passes b
        | some key => do
            let colon ← onCursor (JsonCursor.consume Serde.COLON)
            if colon then do
              match ← body key b with
              | .again b => eachMember closes finish body passes b
              | .done c => pure c
            else pure (finish b)

/-- A loop that every member goes round. -/
def eachField (closes : Bool) (field : List Byte → β → Reading σ β) (passes : ℕ) (b : β) :
    Reading σ β :=
  eachMember closes id (fun key b => do
    let b ← field key b
    tryComma
    pure (.again b)) passes b

/-- The loop over the elements of an array, whose opening bracket has been read. -/
def eachElement (body : β → Reading σ β) : ℕ → β → Reading σ β
  | 0, _ => Run.unfinished
  | passes + 1, b => do
      let ended ← atEnd
      let closed ← onCursor fun cur =>
        if !ended then JsonCursor.tryArrayEnd cur else (false, cur)
      if ended || closed then pure b
      else do
        let b ← body b
        tryComma
        eachElement body passes b

/-- The strings of an array; a byte that begins none is skipped. -/
def stringElements (passes : ℕ) (texts : List (List Byte)) : Reading σ (List (List Byte)) :=
  eachElement (fun texts => do
    match ← onCursor JsonCursor.string with
    | some text => pure (texts ++ [text])
    | none => do
        advance
        pure texts) passes texts

/-- A map from names; the first entry of a name stays. -/
abbrev Index (α : Type) := List (List Byte × α)

def Index.find (index : Index α) (name : List Byte) : Option α :=
  (List.find? (fun entry => entry.1 = name) index).map (·.2)

def Index.emplace (index : Index α) (name : List Byte) (a : α) : Index α :=
  if (index.find name).isSome then index else index ++ [(name, a)]

theorem Index.find_mem {index : Index α} {name : List Byte} {a : α} (h : index.find name = some a) :
    ∃ entry ∈ index, entry.2 = a := by
  rw [Index.find, Option.map_eq_some_iff] at h
  rcases h with ⟨entry, hentry, heq⟩
  exact ⟨entry, List.mem_of_find?_eq_some hentry, heq⟩

theorem Index.mem_emplace {index : Index α} {name : List Byte} {a : α} {entry : List Byte × α}
    (h : entry ∈ index.emplace name a) : entry ∈ index ∨ entry = (name, a) := by
  rw [Index.emplace] at h
  split at h
  · exact .inl h
  · simpa using h

/-- The name behind the prefix of a reference. -/
def referenceName (start ref : List Byte) : Option (List Byte) :=
  if start.isPrefixOf ref then some (ref.drop start.length) else none

def schemaPrefix : List Byte := bytesOf "#/components/schemas/"

/-! ## Schemas -/

/-- The name and the contexts that a schema is made with. -/
structure SchemaNaming where
  name : Option (List Byte) := none
  parentCtx : Option (List Byte) := none
  fieldCtx : Option (List Byte) := none

/-- The parent that is handed on to the schemas inside. -/
def SchemaNaming.parent (naming : SchemaNaming) : Option (List Byte) :=
  naming.name.or naming.parentCtx

structure SchemaLocals where
  result : Option ℕ := none
  requiredNames : List (List Byte) := []

/-- How the loop over the members of a schema ends. -/
inductive SchemaEnd where
  | reference (place : ℕ)
  | members (locals : SchemaLocals)

section Schemas

variable [SchemaPool σ]

def ensureSchema (naming : SchemaNaming) (kind : SchemaKind) : Option ℕ → Reading σ ℕ
  | none => addSchema { kind
                        name := naming.name.getD []
                        parentContext := naming.parentCtx.getD []
                        fieldContext := naming.fieldCtx.getD [] }
  | some place => do
      updateSchema place fun s =>
        if s.kind = .object ∧ kind ≠ .object then { s with kind := kind } else s
      pure place

/-- A member that is read into the schema, or skipped. -/
def readInto (read : JsonCursor → Option α × JsonCursor) (set : α → Schema ℕ Float → Schema ℕ Float)
    (place : ℕ) : Reading σ Unit := do
  match ← onCursor read with
  | some value => updateSchema place (set value)
  | none => skipValue

def kindOf (type : List Byte) : Option SchemaKind :=
  if type = bytesOf "object" then some .object
  else if type = bytesOf "array" then some .array
  else if type = bytesOf "string" then some .string
  else if type = bytesOf "integer" then some .integer
  else if type = bytesOf "number" then some .number
  else if type = bytesOf "boolean" then some .boolean
  else none

/-- The member `type`; behind an unknown type a value is skipped. -/
def readType (naming : SchemaNaming) (result : Option ℕ) : Reading σ (Option ℕ) := do
  match ← onCursor JsonCursor.string with
  | none => do
      skipValue
      pure result
  | some type => do
      moveCursor fun cur => if (kindOf type).isNone then JsonCursor.skipValue cur else cur
      let place ← ensureSchema naming ((kindOf type).getD .object) result
      updateSchema place fun s => { s with kind := (kindOf type).getD .object }
      pure (some place)

/-- A member whose schema is made sure of before it is read. -/
def readField (naming : SchemaNaming) (kind : SchemaKind) (result : Option ℕ)
    (read : ℕ → Reading σ Unit) : Reading σ (Option ℕ) := do
  let place ← ensureSchema naming kind result
  read place
  pure (some place)

/-- The member `$ref`: the schema of the index that has the name, or else a reference. -/
def readReference (index : Index ℕ) (naming : SchemaNaming) (result : Option ℕ) : Reading σ ℕ := do
  let place ← ensureSchema naming .object result
  match ← onCursor JsonCursor.string with
  | none => do
      skipValue
      toObjectEnd
      pure place
  | some ref => do
      updateSchema place fun s => { s with ref := ref, isRef := true }
      toObjectEnd
      pure (((referenceName schemaPrefix ref).bind index.find).getD place)

/-- The types of the properties are read at the next depth. -/
def readProperties (schema : Option (List Byte) → Reading σ (Option ℕ)) (passes place : ℕ) :
    Reading σ Unit := do
  if ← onCursor JsonCursor.tryObjectStart then
    eachField true (fun name _ => do
      match ← schema (some name) with
      | some child => updateSchema place fun s =>
          { s with properties := s.properties ++ [{ name := name, type := some child }] }
      | none => skipValue) passes ()
  else skipValue

/-- The elements of `oneOf`, `anyOf` or `allOf`. -/
def readParts (naming : SchemaNaming) (schema : Reading σ (Option ℕ))
    (push : ℕ → Schema ℕ Float → Schema ℕ Float) (passes : ℕ) (result : Option ℕ) :
    Reading σ (Option ℕ) := do
  if ← onCursor JsonCursor.tryArrayStart then
    eachElement (fun result => do
      match ← schema with
      | some sub => do
          let place ← ensureSchema naming .object result
          updateSchema place (push sub)
          pure (some place)
      | none => do
          skipValue
          pure result) passes result
  else do
    skipValue
    pure result

/-- The member `additionalProperties`, whose opening brace is read before the schema is. -/
def readAdditional (object : Reading σ (Option ℕ)) (place : ℕ) : Reading σ Unit := do
  if ← onCursor JsonCursor.tryObjectStart then do
    let additional ← object
    updateSchema place fun s => { s with additionalProperties := additional }
  else
    readInto parseBool (fun allowed s =>
      { s with
        additionalPropertiesAllowed := allowed
        additionalProperties := if allowed then s.additionalProperties else none }) place

/-- `parse_schema`, given the reader of objects. -/
def parseSchemaWith (object : SchemaNaming → ℕ → Reading σ (Option ℕ)) (depth : ℕ)
    (parentCtx fieldCtx : Option (List Byte)) : Reading σ (Option ℕ) := do
  moveCursor JsonCursor.skipWs
  match ← onCursor fun cur => (cur.head?, cur) with
  | none => pure none
  | some c =>
      if kMaxSchemaDepth < depth then pure none
      else if c = Serde.OPEN_BRACE then
        object { parentCtx := parentCtx, fieldCtx := fieldCtx } depth
      else do
        skipValue
        pure none

/-- A member of a schema other than `$ref` and `required`. -/
def schemaField (object : SchemaNaming → ℕ → Reading σ (Option ℕ)) (naming : SchemaNaming)
    (depth passes : ℕ) (key : List Byte) (result : Option ℕ) : Reading σ (Option ℕ) :=
  let field := readField naming
  let schema := fun fieldCtx => parseSchemaWith object (depth + 1) naming.parent fieldCtx
  if key = bytesOf "type" then readType naming result
  else if key = bytesOf "format" then do
    match ← onCursor JsonCursor.string with
    | some text => field .string result fun place => updateSchema place fun s => { s with format := text }
    | none => do
        skipValue
        pure result
  else if key = bytesOf "description" then do
    let text ← rawText
    field .object result fun place => updateSchema place fun s => { s with description := text }
  else if key = bytesOf "default" then
    field .object result fun place => do
      let text ← rawText
      updateSchema place fun s => { s with defaultValue := text }
  else if key = bytesOf "pattern" then
    field .string result fun place => do
      let text ← rawText
      updateSchema place fun s => { s with pattern := text }
  else if key = bytesOf "nullable" then
    field .object result (readInto parseBool fun v s => { s with nullable := v })
  else if key = bytesOf "deprecated" then
    field .object result (readInto parseBool fun v s => { s with deprecated := v })
  else if key = bytesOf "enum" then
    field .string result fun place => do
      if ← onCursor JsonCursor.tryArrayStart then do
        let texts ← stringElements passes []
        updateSchema place fun s => { s with enumValues := s.enumValues ++ texts }
      else skipValue
  else if key = bytesOf "minLength" then
    field .string result (readInto parseSize fun v s => { s with minLength := some v })
  else if key = bytesOf "maxLength" then
    field .string result (readInto parseSize fun v s => { s with maxLength := some v })
  else if key = bytesOf "minimum" then
    field .number result (readInto parseDouble fun v s => { s with minimum := some v })
  else if key = bytesOf "exclusiveMinimum" then
    field .number result (readInto parseDouble fun v s => { s with exclusiveMinimum := some v })
  else if key = bytesOf "maximum" then
    field .number result (readInto parseDouble fun v s => { s with maximum := some v })
  else if key = bytesOf "exclusiveMaximum" then
    field .number result (readInto parseDouble fun v s => { s with exclusiveMaximum := some v })
  else if key = bytesOf "multipleOf" then
    field .number result (readInto parseDouble fun v s => { s with multipleOf := some v })
  else if key = bytesOf "minItems" then
    field .array result (readInto parseSize fun v s => { s with minItems := some v })
  else if key = bytesOf "maxItems" then
    field .array result (readInto parseSize fun v s => { s with maxItems := some v })
  else if key = bytesOf "uniqueItems" then
    field .array result (readInto parseBool fun v s => { s with uniqueItems := v })
  else if key = bytesOf "items" then
    field .array result fun place => do
      let items ← schema (some (bytesOf "item"))
      updateSchema place fun s => { s with items := items }
  else if key = bytesOf "properties" then
    field .object result (readProperties schema passes)
  else if key = bytesOf "oneOf" then
    readParts naming (schema none) (fun sub s => { s with oneOf := s.oneOf ++ [sub] }) passes result
  else if key = bytesOf "anyOf" then
    readParts naming (schema none) (fun sub s => { s with anyOf := s.anyOf ++ [sub] }) passes result
  else if key = bytesOf "allOf" then
    readParts naming (schema none) (fun sub s => { s with allOf := s.allOf ++ [sub] }) passes result
  else if key = bytesOf "additionalProperties" then
    field .object result (readAdditional (object
      { parentCtx := naming.parent, fieldCtx := some (bytesOf "additionalProperty") } (depth + 1)))
  else if key = bytesOf "discriminator" then
    field .object result fun place => do
      let text ← rawText
      updateSchema place fun s => { s with discriminator := text }
  else do
    skipValue
    pure result

/-- The member `required`. -/
def readRequired (passes : ℕ) (names : List (List Byte)) : Reading σ (List (List Byte)) := do
  if ← onCursor JsonCursor.tryArrayStart then stringElements passes names
  else do
    skipValue
    pure names

def schemaMember (object : SchemaNaming → ℕ → Reading σ (Option ℕ)) (index : Index ℕ)
    (naming : SchemaNaming) (depth passes : ℕ) (key : List Byte) (locals : SchemaLocals) :
    Reading σ (Pass SchemaLocals SchemaEnd) :=
  if key = bytesOf "$ref" then do
    let place ← readReference index naming locals.result
    pure (.done (.reference place))
  else if key = bytesOf "required" then do
    let names ← readRequired passes locals.requiredNames
    tryComma
    pure (.again { locals with requiredNames := names })
  else do
    let result ← schemaField object naming depth passes key locals.result
    tryComma
    pure (.again { locals with result := result })

/-- `prop.required = true` for the properties that are named. -/
def requireNames (names : List (List Byte)) (s : Schema ℕ Float) : Schema ℕ Float :=
  { s with properties := s.properties.map fun prop =>
      if prop.name ∈ names then { prop with required := true } else prop }

def parseSchemaObject (index : Index ℕ) : ℕ → SchemaNaming → ℕ → Reading σ (Option ℕ)
  | 0, _, _ => Run.unfinished
  | passes + 1, naming, depth =>
      if kMaxSchemaDepth < depth then do
        skipValue
        pure none
      else do
        if ← onCursor JsonCursor.tryObjectStart then do
          match ← eachMember true SchemaEnd.members
              (schemaMember (fun naming depth => parseSchemaObject index passes naming depth)
                index naming depth passes) passes {} with
          | .reference place => pure (some place)
          | .members locals => do
              let place ← ensureSchema naming .object locals.result
              updateSchema place (requireNames locals.requiredNames)
              pure (some place)
        else do
          skipValue
          pure none

def parseSchema (index : Index ℕ) (passes depth : ℕ) (parentCtx fieldCtx : Option (List Byte)) :
    Reading σ (Option ℕ) :=
  parseSchemaWith (parseSchemaObject index passes) depth parentCtx fieldCtx

end Schemas

end OpenApi
end Katana
