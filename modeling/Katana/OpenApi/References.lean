import Katana.OpenApi.SchemaReader

/-!
# Resolving references

The table of the schemas of a document, and the walk over it that replaces references by
the schemas that they name.
-/

namespace Katana
namespace OpenApi

open Library
open Http (Byte)

/-- The vector of schemas; a pointer to a schema is its place. -/
structure SchemaTable where
  size : ℕ := 0
  get : SchemaStore ℕ Float := fun _ => {}

instance : SchemaPool SchemaTable where
  size := SchemaTable.size
  add schema t := (t.size, { size := t.size + 1, get := Function.update t.get t.size schema })
  update place f t := { t with get := Function.update t.get place (f (t.get place)) }

/-! ## Pointers of a schema -/

/-- Where a schema has pointers to others. -/
inductive Slot where
  | property (i : ℕ)
  | items
  | additionalProperties
  | oneOf (i : ℕ)
  | anyOf (i : ℕ)
  | allOf (i : ℕ)
  deriving DecidableEq

section Slots

variable {Id ν : Type}

def Schema.slots (s : Schema Id ν) : List Slot :=
  (List.range s.properties.length).map .property ++ [.items, .additionalProperties] ++
    (List.range s.oneOf.length).map .oneOf ++ (List.range s.anyOf.length).map .anyOf ++
    (List.range s.allOf.length).map .allOf

def Schema.target (s : Schema Id ν) : Slot → Option Id
  | .property i => s.properties[i]?.bind (·.type)
  | .items => s.items
  | .additionalProperties => s.additionalProperties
  | .oneOf i => s.oneOf[i]?
  | .anyOf i => s.anyOf[i]?
  | .allOf i => s.allOf[i]?

def Schema.setTarget (s : Schema Id ν) (target : Id) : Slot → Schema Id ν
  | .property i =>
      { s with properties := s.properties.modify i fun prop => { prop with type := some target } }
  | .items => { s with items := some target }
  | .additionalProperties => { s with additionalProperties := some target }
  | .oneOf i => { s with oneOf := s.oneOf.set i target }
  | .anyOf i => { s with anyOf := s.anyOf.set i target }
  | .allOf i => { s with allOf := s.allOf.set i target }

end Slots

/-! ## References -/

/-- A reference that is not empty. -/
def Schema.refers (s : Schema ℕ Float) : Bool :=
  s.isRef && s.ref ≠ []

/-- The schema of the index that a reference names. -/
def Schema.referent (index : Index ℕ) (s : Schema ℕ Float) : Option ℕ :=
  (referenceName schemaPrefix s.ref).bind index.find

/-- The schema for a place (none for a null pointer) and the places visited.  The places
being visited are the last argument but one. -/
def resolveSchemaRef (index : Index ℕ) (get : SchemaStore ℕ Float) :
    ℕ → List ℕ → List ℕ → ℕ → Option (Option ℕ × List ℕ)
  | 0, _, _, _ => none
  | levels + 1, visiting, visited, s =>
      if !(get s).refers then some (some s, visited)
      else if s ∈ visiting then some (none, visited)
      else if s ∈ visited then some (some s, visited)
      else
        match (get s).referent index with
        | none => some (some s, s :: visited)
        | some resolved =>
            if (get resolved).isRef then
              (resolveSchemaRef index get levels (s :: visiting) visited resolved).map
                fun r => (r.1, s :: r.2)
            else some (some resolved, s :: visited)

structure RefState where
  table : SchemaTable
  visited : List ℕ := []

/-- The place that a pointer gets. -/
def resolveTarget (index : Index ℕ) (levels target : ℕ) : Run RefState ℕ := fun st =>
  if (st.table.get target).refers then
    match resolveSchemaRef index st.table.get levels [] st.visited target with
    | none => (none, st)
    | some (resolved, visited) => (some (resolved.getD target), { st with visited := visited })
  else (some target, st)

def setSlot (s : ℕ) (slot : Slot) (target : ℕ) : Run RefState Unit :=
  Run.change fun st =>
    let table := SchemaPool.update s (fun schema => schema.setTarget target slot) st.table
    { st with table := table }

def resolveAllRefsInSchema (index : Index ℕ) : ℕ → ℕ → Run RefState Unit
  | 0, _ => Run.unfinished
  | levels + 1, s => do
      if ← Run.read fun st => decide (s ∈ st.visited) then pure ()
      else do
        Run.change fun st => { st with visited := s :: st.visited }
        let slots ← Run.read fun st => (st.table.get s).slots
        Run.each (fun slot => do
          match ← Run.read fun st => (st.table.get s).target slot with
          | none => pure ()
          | some target => do
              let resolved ← resolveTarget index levels target
              setSlot s slot resolved
              resolveAllRefsInSchema index levels resolved) slots

/-- The second pass of `load_from_string`. -/
def resolvePass (index : Index ℕ) (levels : ℕ) : Run RefState Unit := do
  let size ← Run.read fun st => st.table.size
  Run.each (resolveAllRefsInSchema index levels) (List.range size)

end OpenApi
end Katana
