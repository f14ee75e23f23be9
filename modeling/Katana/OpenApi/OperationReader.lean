import Katana.Http.Parser
import Katana.OpenApi.SchemaReader

/-!
# Reading operations

Parameters, responses and request bodies, in the components as well as in the
operations.  An operation keeps the members of its `responses` object: the responses are
the entries that these members give.
-/

namespace Katana
namespace OpenApi

open Library
open Http (Byte bytesOf isDigit numeralValue Method)
open Serde (JsonCursor parseBool parseUnquotedString)

structure MediaType where
  contentType : List Byte
  type : Option ℕ := none

inductive ParamLocation where
  | path | query | header | cookie
  deriving DecidableEq

structure Parameter where
  name : List Byte := []
  location : ParamLocation := .path
  required : Bool := false
  type : Option ℕ := none
  description : List Byte := []
  style : List Byte := []
  explode : Bool := false

structure Response where
  status : ℤ := 200
  isDefault : Bool := false
  description : List Byte := []
  content : List MediaType := []

structure RequestBody where
  description : List Byte := []
  content : List MediaType := []

/-- A response is written out, or copied from the components. -/
inductive ResponseForm where
  | inline | reference
  deriving DecidableEq

/-- A member of a `responses` object: its key, whether its value is an object and how it
is given, and the response that is added for it. -/
structure ResponseMember where
  key : List Byte
  isObject : Bool
  form : ResponseForm := .inline
  response : Option Response := none

structure Operation where
  method : Method := .unknown
  operationId : List Byte := []
  summary : List Byte := []
  parameters : List Parameter := []
  body : Option RequestBody := none
  members : List ResponseMember := []
  xKatanaCache : List Byte := []
  xKatanaAlloc : List Byte := []
  xKatanaRateLimit : List Byte := []

def Operation.responses (op : Operation) : List Response :=
  op.members.filterMap (·.response)

/-- What the components pass has indexed. -/
structure Components where
  schemas : Index ℕ := []
  parameters : Index Parameter := []
  responses : Index Response := []
  requestBodies : Index RequestBody := []

variable {σ : Type} [SchemaPool σ]

/-! ## Parameters -/

def paramLocationFromString (sv : List Byte) : Option ParamLocation :=
  if sv = bytesOf "path" then some .path
  else if sv = bytesOf "query" then some .query
  else if sv = bytesOf "header" then some .header
  else if sv = bytesOf "cookie" then some .cookie
  else none

structure ParameterLocals where
  param : Parameter := {}
  hasName : Bool := false
  hasIn : Bool := false
  inRequired : Bool := false

/-- A parameter of the path is required unless the text says otherwise. -/
def ParameterLocals.finish (l : ParameterLocals) : Option Parameter :=
  if !l.hasName || !l.hasIn then none
  else if !l.inRequired && l.param.location = .path then some { l.param with required := true }
  else some l.param

def parameterPrefix : List Byte := bytesOf "#/components/parameters/"

/-- A member of a parameter other than `$ref`. -/
def parameterField (components : Components) (passes : ℕ) (key : List Byte) (l : ParameterLocals) :
    Reading σ ParameterLocals :=
  if key = bytesOf "name" then do
    match ← onCursor JsonCursor.string with
    | some text => pure { l with param := { l.param with name := text }, hasName := true }
    | none => pure l
  else if key = bytesOf "in" then do
    match (← onCursor JsonCursor.string).bind paramLocationFromString with
    | some location => pure { l with param := { l.param with location := location }, hasIn := true }
    | none => pure l
  else if key = bytesOf "required" then do
    match ← onCursor parseBool with
    | some v => pure { l with param := { l.param with required := v }, inRequired := true }
    | none => do
        skipValue
        pure l
  else if key = bytesOf "schema" then do
    let paramCtx := if l.param.name.isEmpty then none else some l.param.name
    let type ← parseSchema components.schemas passes 0 paramCtx none
    pure { l with param := { l.param with type := type } }
  else if key = bytesOf "description" then do
    let text ← rawText
    pure { l with param := { l.param with description := text } }
  else if key = bytesOf "style" then do
    match ← onCursor JsonCursor.string with
    | some text => pure { l with param := { l.param with style := text } }
    | none => pure l
  else if key = bytesOf "explode" then do
    match ← onCursor parseBool with
    | some v => pure { l with param := { l.param with explode := v } }
    | none => do
        skipValue
        pure l
  else do
    skipValue
    pure l

/-- At a reference that is found the rest of the object is not read. -/
def parameterMember (components : Components) (passes : ℕ) (key : List Byte) (l : ParameterLocals) :
    Reading σ (Pass ParameterLocals (Option Parameter)) :=
  if key = bytesOf "$ref" then do
    match ← onCursor JsonCursor.string with
    | some ref =>
        match (referenceName parameterPrefix ref).bind components.parameters.find with
        | some param => pure (.done (some param))
        | none => do
            tryComma
            pure (.again l)
    | none => do
        skipValue
        tryComma
        pure (.again l)
  else do
    let l ← parameterField components passes key l
    tryComma
    pure (.again l)

/-- The opening brace has been read. -/
def parseParameterObject (components : Components) (passes : ℕ) : Reading σ (Option Parameter) :=
  eachMember true ParameterLocals.finish (parameterMember components passes) passes {}

/-- The elements of an array of parameters. -/
def readParameters (components : Components) (passes : ℕ) (params : List Parameter) :
    Reading σ (List Parameter) := do
  if ← onCursor JsonCursor.tryArrayStart then
    eachElement (fun params => do
      if ← onCursor JsonCursor.tryObjectStart then do
        let param ← parseParameterObject components passes
        pure (params ++ param.toList)
      else do
        skipValue
        pure params) passes params
  else do
    skipValue
    pure params

/-! ## Content -/

/-- The type of a media type object; the last `schema` counts. -/
def readMediaType (components : Components) (passes : ℕ) : Reading σ (Option ℕ) := do
  if ← onCursor JsonCursor.tryObjectStart then
    eachField true (fun key type =>
      if key = bytesOf "schema" then parseSchema components.schemas passes 0 none none
      else do
        skipValue
        pure type) passes none
  else do
    skipValue
    pure none

/-- The member `content` of a response or a request body. -/
def readContent (components : Components) (passes : ℕ) (content : List MediaType) :
    Reading σ (List MediaType) := do
  if ← onCursor JsonCursor.tryObjectStart then
    eachField true (fun contentType content => do
      let type ← readMediaType components passes
      pure (content ++ [{ contentType := contentType, type := type }])) passes content
  else do
    skipValue
    pure content

/-! ## Responses -/

def responsePrefix : List Byte := bytesOf "#/components/responses/"

/-- At a reference that is found the response is replaced, but for its status. -/
def responseMember (components : Components) (passes : ℕ) (status : ℤ) (key : List Byte)
    (resp : Response) : Reading σ (Pass Response (ResponseForm × Response)) :=
  if key = bytesOf "$ref" then do
    match ← onCursor JsonCursor.string with
    | some ref =>
        match (referenceName responsePrefix ref).bind components.responses.find with
        | some stored => do
            toObjectEnd
            pure (.done (.reference, { stored with status := status }))
        | none => do
            tryComma
            pure (.again resp)
    | none => do
        skipValue
        tryComma
        pure (.again resp)
  else if key = bytesOf "description" then do
    let text ← rawText
    tryComma
    pure (.again { resp with description := text })
  else if key = bytesOf "content" then do
    let content ← readContent components passes resp.content
    tryComma
    pure (.again { resp with content := content })
  else do
    skipValue
    tryComma
    pure (.again resp)

def parseResponseObject (components : Components) (passes : ℕ) (status : ℤ) (isDefault : Bool) :
    Reading σ (Option (ResponseForm × Response)) := do
  if ← onCursor JsonCursor.tryObjectStart then do
    let resp ← eachMember true (fun resp => (ResponseForm.inline, resp))
      (responseMember components passes status) passes { status := status, isDefault := isDefault }
    pure (some resp)
  else do
    skipValue
    pure none

/-- `std::from_chars` into an `int`. -/
def fromCharsInt (bytes : List Byte) : Option ℤ :=
  let negative := bytes.head? = some 0x2d
  let digits := (if negative then bytes.tail else bytes).takeWhile (isDigit 10)
  let value : ℤ := if negative then -(numeralValue 10 digits : ℤ) else numeralValue 10 digits
  if digits = [] ∨ value < -2 ^ 31 ∨ 2 ^ 31 ≤ value then none else some value

/-- The status and the flag of a key; none if the member is skipped. -/
def statusOf (key : List Byte) : Option (ℤ × Bool) :=
  match fromCharsInt key with
  | some status => some (status, false)
  | none => if key = bytesOf "default" then some (0, true) else none

def responsesField (components : Components) (passes : ℕ) (key : List Byte)
    (members : List ResponseMember) : Reading σ (List ResponseMember) := do
  let isObject ← onCursor fun cur =>
    (decide ((JsonCursor.skipWs cur).head? = some Serde.OPEN_BRACE), cur)
  match statusOf key with
  | none => do
      skipValue
      pure (members ++ [{ key := key, isObject := isObject }])
  | some (status, isDefault) => do
      match ← parseResponseObject components passes status isDefault with
      | some (form, resp) =>
          pure (members ++
            [{ key := key, isObject := isObject, form := form, response := some resp }])
      | none => do
          skipValue
          pure (members ++ [{ key := key, isObject := isObject }])

def parseResponses (components : Components) (passes : ℕ) (members : List ResponseMember) :
    Reading σ (List ResponseMember) := do
  if ← onCursor JsonCursor.tryObjectStart then
    eachField true (responsesField components passes) passes members
  else do
    skipValue
    pure members

/-! ## Request bodies -/

def requestBodyPrefix : List Byte := bytesOf "#/components/requestBodies/"

def requestBodyField (components : Components) (passes : ℕ) (key : List Byte)
    (body : Option RequestBody) : Reading σ (Option RequestBody) :=
  let allocated := body.getD {}
  if key = bytesOf "description" then do
    let text ← rawText
    pure (some { allocated with description := text })
  else if key = bytesOf "content" then do
    let content ← readContent components passes allocated.content
    pure (some { allocated with content := content })
  else do
    skipValue
    pure body

/-- A reference to a request body is a string. -/
def parseRequestBody (components : Components) (passes : ℕ) : Reading σ (Option RequestBody) := do
  moveCursor JsonCursor.skipWs
  match ← onCursor fun cur => (cur.head?, cur) with
  | none => pure none
  | some c =>
      if c = Serde.QUOTE then do
        let ref ← onCursor JsonCursor.string
        pure ((ref.bind (referenceName requestBodyPrefix)).bind components.requestBodies.find)
      else do
        if ← onCursor JsonCursor.tryObjectStart then
          eachField true (requestBodyField components passes) passes none
        else do
          skipValue
          pure none

/-! ## Operations -/

/-- The text of a string; nothing is read if there is none. -/
def readText (set : List Byte → Operation → Operation) (op : Operation) : Reading σ Operation := do
  match ← onCursor JsonCursor.string with
  | some text => pure (set text op)
  | none => pure op

def readCache (op : Operation) : Reading σ Operation := do
  match ← onCursor JsonCursor.string with
  | some text => pure { op with xKatanaCache := text }
  | none =>
      match ← onCursor parseBool with
      | some v => pure { op with xKatanaCache := bytesOf (if v then "true" else "false") }
      | none => do
          skipValue
          pure op

def operationField (components : Components) (passes : ℕ) (key : List Byte) (op : Operation) :
    Reading σ Operation :=
  if key = bytesOf "operationId" then readText (fun v op => { op with operationId := v }) op
  else if key = bytesOf "summary" then readText (fun v op => { op with summary := v }) op
  else if key = bytesOf "parameters" then do
    let parameters ← readParameters components passes op.parameters
    pure { op with parameters := parameters }
  else if key = bytesOf "responses" then do
    let members ← parseResponses components passes op.members
    pure { op with members := members }
  else if key = bytesOf "requestBody" then do
    let body ← parseRequestBody components passes
    pure { op with body := body }
  else if key = bytesOf "x-katana-cache" then readCache op
  else if key = bytesOf "x-katana-alloc" then do
    let text ← rawText
    pure { op with xKatanaAlloc := text }
  else if key = bytesOf "x-katana-rate-limit" then do
    match ← onCursor JsonCursor.string with
    | some text => pure { op with xKatanaRateLimit := text }
    | none => do
        skipValue
        pure op
  else do
    skipValue
    pure op

def parseOperationObject (components : Components) (passes : ℕ) (op : Operation) :
    Reading σ Operation := do
  if ← onCursor JsonCursor.tryObjectStart then
    eachField true (operationField components passes) passes op
  else do
    skipValue
    pure op

end OpenApi
end Katana
