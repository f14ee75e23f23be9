import Katana.Http.Bytes
import Katana.Library.GraphMerge

/-!
# Schemas

The schemas of a document are kept in a store and refer to each other by their places
in it.  `merge_all_of_schemas` takes the constraints of the schemas of an `allOf` list
over into the schema that has the list.  The bounds of type `double` are of any type
with a decidable order.
-/

namespace Katana
namespace OpenApi

open Library
open Http (Byte)

inductive SchemaKind where
  | object | array | string | integer | number | boolean | nullType
  deriving DecidableEq

structure Property (Id : Type) where
  name : List Byte
  type : Option Id := none
  required : Bool := false

structure Schema (Id ν : Type) where
  kind : SchemaKind := .object
  name : List Byte := []
  format : List Byte := []
  ref : List Byte := []
  description : List Byte := []
  pattern : List Byte := []
  discriminator : List Byte := []
  defaultValue : List Byte := []
  items : Option Id := none
  properties : List (Property Id) := []
  oneOf : List Id := []
  anyOf : List Id := []
  allOf : List Id := []
  additionalProperties : Option Id := none
  additionalPropertiesAllowed : Bool := true
  nullable : Bool := false
  deprecated : Bool := false
  uniqueItems : Bool := false
  minimum : Option ν := none
  maximum : Option ν := none
  exclusiveMinimum : Option ν := none
  exclusiveMaximum : Option ν := none
  multipleOf : Option ν := none
  minLength : Option ℕ := none
  maxLength : Option ℕ := none
  minItems : Option ℕ := none
  maxItems : Option ℕ := none
  enumValues : List (List Byte) := []
  parentContext : List Byte := []
  fieldContext : List Byte := []
  isRef : Bool := false

/-! ## Comparisons of optionals -/

section Optional

variable {β : Type} [LT β] [DecidableLT β]

/-- `>` of two optionals: an empty one is less than every value. -/
def greater : Option β → Option β → Bool
  | none, _ => false
  | some _, none => true
  | some a, some b => b < a

/-- The greater of two bounds, by `>` of the optionals. -/
def raiseBound (child s : Option β) : Option β :=
  if greater child s then child else s

/-- The greater of two bounds, with `has_value`. -/
def raiseValue (child s : Option β) : Option β :=
  match child with
  | none => s
  | some c =>
      match s with
      | none => child
      | some v => if v < c then child else s

/-- The less of two bounds, with `has_value`. -/
def lowerValue (child s : Option β) : Option β :=
  match child with
  | none => s
  | some c =>
      match s with
      | none => child
      | some v => if c < v then child else s

end Optional

/-- The test for `max_length` and `max_items`.  `> 0` and `== 0` are comparisons of an
optional with a value: an empty one is less than zero and is not equal to it. -/
def lowerPositive (child s : Option ℕ) : Option ℕ :=
  if greater child (some 0) && (s = some 0 || greater s child) then child else s

/-! ## One child -/

section Merge

variable {Id ν : Type} [LT ν] [DecidableLT ν]

/-- The type of the child's property is taken, and what is required stays required. -/
def mergeProperty (properties : List (Property Id)) (childProp : Property Id) :
    List (Property Id) :=
  match properties.findIdx? fun existing => existing.name = childProp.name with
  | none => properties ++ [childProp]
  | some i => properties.modify i fun existing =>
      { existing with type := childProp.type, required := existing.required || childProp.required }

/-- The body of the second loop of `merge_all_of_schemas`. -/
def mergeChild (child s : Schema Id ν) : Schema Id ν :=
  { s with
    properties := child.properties.foldl mergeProperty s.properties
    format := if child.format ≠ [] ∧ s.format = [] then child.format else s.format
    description :=
      if child.description ≠ [] ∧ s.description = [] then child.description else s.description
    kind := if child.kind ≠ .object ∧ s.kind = .object then child.kind else s.kind
    minLength := raiseBound child.minLength s.minLength
    maxLength := lowerPositive child.maxLength s.maxLength
    pattern := if child.pattern ≠ [] then child.pattern else s.pattern
    minimum := raiseValue child.minimum s.minimum
    maximum := lowerValue child.maximum s.maximum
    exclusiveMinimum := raiseValue child.exclusiveMinimum s.exclusiveMinimum
    exclusiveMaximum := lowerValue child.exclusiveMaximum s.exclusiveMaximum
    multipleOf := if child.multipleOf.isSome then child.multipleOf else s.multipleOf
    minItems := raiseBound child.minItems s.minItems
    maxItems := lowerPositive child.maxItems s.maxItems
    uniqueItems := child.uniqueItems || s.uniqueItems
    items := if child.items.isSome ∧ s.items.isNone then child.items else s.items
    additionalProperties :=
      if child.additionalProperties.isSome ∧ s.additionalProperties.isNone then
        child.additionalProperties
      else s.additionalProperties
    additionalPropertiesAllowed :=
      if !child.additionalPropertiesAllowed then false else s.additionalPropertiesAllowed
    nullable := child.nullable || s.nullable
    deprecated := child.deprecated || s.deprecated
    enumValues :=
      if child.enumValues ≠ [] ∧ s.enumValues = [] then child.enumValues else s.enumValues }

/-- `all_of.clear()` -/
def Schema.clearAllOf (s : Schema Id ν) : Schema Id ν :=
  { s with allOf := [] }

/-! ## The recursion -/

variable [DecidableEq Id]

abbrev SchemaStore (Id ν : Type) := Id → Schema Id ν

/-- The call, if its recursion is less deep than the number. -/
def mergeAllOfSchemas : ℕ → Id → SchemaStore Id ν → Option (SchemaStore Id ν)
  | 0, _, _ => none
  | depth + 1, s, st =>
      if (st s).allOf.isEmpty then some st
      else do
        let st ← (st s).allOf.foldlM (fun st child => mergeAllOfSchemas depth child st) st
        let st := (st s).allOf.foldl
          (fun st child => Function.update st s (mergeChild (st child) (st s))) st
        some (Function.update st s (st s).clearAllOf)

/-- The third pass of `load_from_string`. -/
def mergePass (depth : ℕ) (schemas : List Id) (st : SchemaStore Id ν) :
    Option (SchemaStore Id ν) :=
  schemas.foldlM (fun st s => mergeAllOfSchemas depth s st) st

/-- The merge as one of nodes with children. -/
def allOfMerging (Id ν : Type) [LT ν] [DecidableLT ν] : Merging Id (Schema Id ν) where
  children := Schema.allOf
  absorb := mergeChild
  clear := Schema.clearAllOf
  children_absorb _ _ := rfl
  children_clear _ := rfl

theorem mergeAllOfSchemas_eq (depth : ℕ) (s : Id) (st : SchemaStore Id ν) :
    mergeAllOfSchemas depth s st = (allOfMerging Id ν).merge depth s st := by
  induction depth generalizing s st with
  | zero => rfl
  | succ depth ih =>
      rw [mergeAllOfSchemas, Merging.merge]
      have hcalls : (fun st child => mergeAllOfSchemas depth child st) =
          fun (st : SchemaStore Id ν) child => (allOfMerging Id ν).merge depth child st := by
        funext st child
        exact ih child st
      rw [hcalls]
      have hchildren : (allOfMerging Id ν).children (st s) = (st s).allOf := rfl
      rw [hchildren]
      cases (st s).allOf.foldlM (fun st child => (allOfMerging Id ν).merge depth child st) st <;> rfl

theorem mergePass_eq (depth : ℕ) (schemas : List Id) (st : SchemaStore Id ν) :
    mergePass depth schemas st = (allOfMerging Id ν).mergeAll depth schemas st := by
  unfold mergePass Merging.mergeAll
  simp only [mergeAllOfSchemas_eq]

/-- The schema is in the other one's list. -/
def PartOf (st : SchemaStore Id ν) (child s : Id) : Prop :=
  child ∈ (st s).allOf

end Merge

end OpenApi
end Katana
