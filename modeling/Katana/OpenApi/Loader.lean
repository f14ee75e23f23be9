import Katana.OpenApi.OperationReader
import Katana.OpenApi.References
import Katana.Serde.Yaml

/-!
# Loading a document

`load_from_string` reads the components and then the paths, resolves the references of
the schemas, merges the `allOf` lists, adds the parameters that the paths name and
validates what it has.  Memory of the arena is taken to suffice.
-/

namespace Katana
namespace OpenApi

open Library
open Http (Byte Method bytesOf)
open Serde (Build JsonCursor trimView yamlToJson)

structure PathItem where
  path : List Byte
  operations : List Operation := []

structure Document where
  openapiVersion : List Byte := []
  infoTitle : List Byte := []
  infoVersion : List Byte := []
  paths : List PathItem := []

inductive OpenapiError where
  | parseError | invalidSpec
  deriving DecidableEq

section Readers

variable {σ : Type} [SchemaPool σ]

/-! ## The version -/

def openapiKey (key : List Byte) (_ : Unit) : Reading σ (Pass Unit (Option (List Byte))) :=
  if key = bytesOf "openapi" then do
    let text ← onCursor JsonCursor.string
    pure (.done (text.map trimView))
  else do
    skipValue
    tryComma
    pure (.again ())

def extractOpenapiVersion (passes : ℕ) (jsonView : List Byte) : Reading σ (Option (List Byte)) := do
  moveCursor fun _ => jsonView
  if ← onCursor JsonCursor.tryObjectStart then
    eachMember true (fun _ => none) openapiKey passes ()
  else pure none

/-! ## Components -/

/-- A section of the components: its members by their names. -/
def componentSection (member : List Byte → Components → Reading σ Components) (passes : ℕ)
    (components : Components) : Reading σ Components := do
  if ← onCursor JsonCursor.tryObjectStart then eachField true member passes components
  else do
    skipValue
    pure components

/-- `sindex.emplace(s->name, s)`.  The index has every schema under the schema's own name,
so one that it has, found by a reference, is not added again. -/
def indexSchema (index : Index ℕ) (name : List Byte) (place : ℕ) : Index ℕ :=
  if index.any fun entry => entry.2 = place then index else index.emplace name place

def schemaComponent (passes : ℕ) (name : List Byte) (components : Components) :
    Reading σ Components := do
  match ← parseSchemaObject components.schemas passes { name := some name } 1 with
  | some place => pure { components with schemas := indexSchema components.schemas name place }
  | none => do
      skipValue
      pure components

/-- A parameter is indexed by its own name. -/
def parameterComponent (passes : ℕ) (_ : List Byte) (components : Components) :
    Reading σ Components := do
  if ← onCursor JsonCursor.tryObjectStart then do
    match ← parseParameterObject components passes with
    | some param =>
        pure { components with parameters := components.parameters.emplace param.name param }
    | none => do
        skipValue
        pure components
  else do
    skipValue
    pure components

def responseComponent (passes : ℕ) (name : List Byte) (components : Components) :
    Reading σ Components := do
  match ← parseResponseObject components passes 0 false with
  | some resp =>
      pure { components with responses := components.responses.emplace name resp.2 }
  | none => do
      skipValue
      pure components

def requestBodyComponent (passes : ℕ) (name : List Byte) (components : Components) :
    Reading σ Components := do
  match ← parseRequestBody components passes with
  | some body =>
      pure { components with requestBodies := components.requestBodies.emplace name body }
  | none => do
      skipValue
      pure components

def componentsField (passes : ℕ) (key : List Byte) (components : Components) :
    Reading σ Components :=
  if key = bytesOf "schemas" then componentSection (schemaComponent passes) passes components
  else if key = bytesOf "parameters" then
    componentSection (parameterComponent passes) passes components
  else if key = bytesOf "responses" then
    componentSection (responseComponent passes) passes components
  else if key = bytesOf "requestBodies" then
    componentSection (requestBodyComponent passes) passes components
  else do
    skipValue
    pure components

/-- The loop does not stop at the brace that closes the components. -/
def parseComponents (passes : ℕ) (components : Components) : Reading σ Components := do
  if ← onCursor JsonCursor.tryObjectStart then
    eachField false (componentsField passes) passes components
  else pure components

def specificationField (passes : ℕ) (key : List Byte) (components : Components) :
    Reading σ Components :=
  if key = bytesOf "components" then parseComponents passes components
  else do
    skipValue
    pure components

def componentsPass (passes : ℕ) (jsonView : List Byte) : Reading σ Components := do
  moveCursor fun _ => (JsonCursor.tryObjectStart jsonView).2
  eachField false (specificationField passes) passes {}

/-! ## Paths -/

def infoText (set : List Byte → Document → Document) (doc : Document) : Reading σ Document := do
  match ← onCursor JsonCursor.string with
  | some text => pure (set text doc)
  | none => do
      skipValue
      pure doc

def infoField (key : List Byte) (doc : Document) : Reading σ Document :=
  if key = bytesOf "title" then infoText (fun v doc => { doc with infoTitle := v }) doc
  else if key = bytesOf "version" then infoText (fun v doc => { doc with infoVersion := v }) doc
  else do
    skipValue
    pure doc

def parseInfoObject (passes : ℕ) (doc : Document) : Reading σ Document := do
  if ← onCursor JsonCursor.tryObjectStart then eachField true infoField passes doc
  else do
    skipValue
    pure doc

def methodOf (key : List Byte) : Option Method :=
  if key = bytesOf "get" then some .get
  else if key = bytesOf "post" then some .post
  else if key = bytesOf "put" then some .put
  else if key = bytesOf "delete" then some .del
  else if key = bytesOf "patch" then some .patch
  else if key = bytesOf "head" then some .head
  else if key = bytesOf "options" then some .options
  else none

structure PathLocals where
  pathParams : List Parameter := []
  operations : List Operation := []

/-- An operation begins with the parameters of the path that stand before it. -/
def pathMember (components : Components) (passes : ℕ) (key : List Byte) (l : PathLocals) :
    Reading σ (Pass PathLocals PathLocals) :=
  if key = bytesOf "parameters" then do
    let params ← readParameters components passes l.pathParams
    tryComma
    pure (.again { l with pathParams := params })
  else
    match methodOf key with
    | some method => do
        let op ← parseOperationObject components passes
          { method := method, parameters := l.pathParams }
        pure (.again { l with operations := l.operations ++ [op] })
    | none => do
        skipValue
        tryComma
        pure (.again l)

def parsePathItem (components : Components) (passes : ℕ) (path : List Byte) :
    Reading σ PathItem := do
  if ← onCursor JsonCursor.tryObjectStart then do
    let l ← eachMember true id (pathMember components passes) passes {}
    pure { path := path, operations := l.operations }
  else pure { path := path }

def documentMember (components : Components) (passes : ℕ) (key : List Byte) (doc : Document) :
    Reading σ (Pass Document Document) :=
  if key = bytesOf "paths" then do
    if ← onCursor JsonCursor.tryObjectStart then do
      let paths ← eachField true (fun path paths => do
        let item ← parsePathItem components passes path
        pure (paths ++ [item])) passes doc.paths
      tryComma
      pure (.again { doc with paths := paths })
    else pure (.done doc)
  else if key = bytesOf "info" then do
    let doc ← parseInfoObject passes doc
    tryComma
    pure (.again doc)
  else do
    skipValue
    tryComma
    pure (.again doc)

def pathsPass (components : Components) (passes : ℕ) (jsonView : List Byte) (doc : Document) :
    Reading σ Document := do
  moveCursor fun _ => (JsonCursor.tryObjectStart jsonView).2
  eachMember false id (documentMember components passes) passes doc

/-- The part of `load_from_string` that reads the text. -/
def readDocument (passes : ℕ) (jsonView : List Byte) :
    Reading σ (Except OpenapiError (Components × Document)) := do
  match ← extractOpenapiVersion passes jsonView with
  | none => pure (.error .invalidSpec)
  | some version =>
      if (bytesOf "3.").isPrefixOf version then do
        let components ← componentsPass passes jsonView
        let size ← Run.read fun s : Loading σ => SchemaPool.size s.pool
        if kMaxSchemaCount < size then pure (.error .invalidSpec)
        else do
          let doc ← pathsPass components passes jsonView { openapiVersion := version }
          pure (.ok (components, doc))
      else pure (.error .invalidSpec)

/-! ## Path parameters -/

/-- The names between braces, from `pos` on. -/
def pathParamNames : ℕ → List Byte → List (List Byte)
  | 0, _ => []
  | passes + 1, bytes =>
      let inside := (bytes.dropWhile (· ≠ Serde.OPEN_BRACE)).tail
      let name := inside.takeWhile (· ≠ Serde.CLOSE_BRACE)
      let behind := inside.dropWhile (· ≠ Serde.CLOSE_BRACE)
      if behind = [] ∨ name = [] then [] else name :: pathParamNames passes behind.tail

def hasPathParam (params : List Parameter) (name : List Byte) : Bool :=
  params.any fun p => p.location = .path && p.name = name

/-- A parameter that is missing is added with a new schema. -/
def addPathParam (params : List Parameter) (name : List Byte) : Reading σ (List Parameter) :=
  if hasPathParam params name then pure params
  else do
    let place ← addSchema { kind := .string }
    pure (params ++ [{ name := name, location := .path, required := true, type := some place }])

def addPathParams : List (List Byte) → List Parameter → Reading σ (List Parameter)
  | [], params => pure params
  | name :: names, params => do
      let params ← addPathParam params name
      addPathParams names params

def fillOperations (names : List (List Byte)) : List Operation → Reading σ (List Operation)
  | [] => pure []
  | op :: ops => do
      let parameters ← addPathParams names op.parameters
      let ops ← fillOperations names ops
      pure ({ op with parameters := parameters } :: ops)

/-- The fourth pass. -/
def fillPaths : List PathItem → Reading σ (List PathItem)
  | [] => pure []
  | item :: items => do
      let operations ← fillOperations (pathParamNames item.path.length item.path) item.operations
      let items ← fillPaths items
      pure ({ item with operations := operations } :: items)

end Readers

/-! ## Validation -/

def validResponse (resp : Response) : Bool :=
  resp.isDefault || resp.status = 0 || (100 ≤ resp.status && resp.status < 600)

/-- The ids of the operations so far are the first argument. -/
def validOperations : List (List Byte) → List Operation → Bool
  | _, [] => true
  | ids, op :: ops =>
      (op.operationId = [] || op.operationId ∉ ids) && op.responses.all validResponse &&
        validOperations (if op.operationId = [] then ids else op.operationId :: ids) ops

/-- The fifth pass. -/
def Document.valid (doc : Document) : Bool :=
  validOperations [] (doc.paths.flatMap PathItem.operations)

/-! ## All passes -/

/-- The JSON text of a specification, which may be written in YAML. -/
def specificationJson (build : Build) (specText : List Byte) : Option (List Byte) :=
  let trimmed := trimView specText
  match trimmed.head? with
  | none => none
  | some c =>
      if c = Serde.OPEN_BRACE || c = Serde.OPEN_BRACKET then some trimmed
      else (yamlToJson build trimmed).toOption.map trimView

/-- The second pass and the third one. -/
def settleSchemas (index : Index ℕ) (passes : ℕ) : Reading SchemaTable Unit := fun s =>
  match resolvePass index passes { table := s.pool } with
  | (none, st) => (none, { s with pool := st.table })
  | (some _, st) =>
      match mergePass passes (List.range st.table.size) st.table.get with
      | none => (none, { s with pool := st.table })
      | some get => (some (), { s with pool := { st.table with get := get } })

def loadFromString (build : Build) (passes : ℕ) (specText : List Byte) :
    Reading SchemaTable (Except OpenapiError Document) := do
  match specificationJson build specText with
  | none => pure (.error .parseError)
  | some jsonView =>
      match ← readDocument passes jsonView with
      | .error e => pure (.error e)
      | .ok (components, doc) => do
          settleSchemas components.schemas passes
          let paths ← fillPaths doc.paths
          let doc := { doc with paths := paths }
          pure (if doc.valid then .ok doc else .error .invalidSpec)

/-- The passes of a load that ends with a document. -/
theorem loadFromString_passes {build : Build} {passes : ℕ} {specText : List Byte}
    {s s' : Loading SchemaTable} {doc : Document}
    (h : loadFromString build passes specText s = (some (.ok doc), s')) :
    ∃ jsonView components doc₁ s₁ s₂ paths,
      readDocument passes jsonView s = (some (.ok (components, doc₁)), s₁) ∧
      settleSchemas components.schemas passes s₁ = (some (), s₂) ∧
      fillPaths doc₁.paths s₂ = (some paths, s') ∧
      doc = { doc₁ with paths := paths } ∧ doc.valid = true := by
  unfold loadFromString at h
  cases hview : specificationJson build specText with
  | none =>
      rw [hview] at h
      cases h
  | some jsonView =>
      rw [hview] at h
      rcases Run.exists_of_bind h with ⟨read, s₁, hread, h⟩
      cases read with
      | error e => cases h
      | ok read =>
          rcases read with ⟨components, doc₁⟩
          rcases Run.exists_of_bind h with ⟨_, s₂, hsettle, h⟩
          rcases Run.exists_of_bind h with ⟨paths, s₃, hfill, h⟩
          simp only [Run.pure_apply, Prod.mk.injEq, Option.some.injEq] at h
          rcases h with ⟨hresult, rfl⟩
          split at hresult
          next hvalid =>
            cases hresult
            exact ⟨jsonView, components, doc₁, s₁, s₂, paths, hread, hsettle, hfill, rfl, hvalid⟩
          next => cases hresult

end OpenApi
end Katana
