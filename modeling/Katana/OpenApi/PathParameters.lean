import Katana.OpenApi.LoadedPlaces
import Katana.OpenApi.ResponseKeys

/-!
# Path parameters

The fourth pass of the loader reads the names between braces off a path and gives every
operation a parameter for each of them; the fifth one looks at the operations as they are
then.
-/

namespace Katana
namespace OpenApi

open Library
open Http (Byte)
open Serde (Build)

/-! ## Templates -/

/-- A parameter of a path and the text in front of it. -/
structure TemplatePart where
  before : List Byte
  name : List Byte

def TemplatePart.render (part : TemplatePart) : List Byte :=
  part.before ++ Serde.OPEN_BRACE :: (part.name ++ [Serde.CLOSE_BRACE])

structure TemplatePart.WellFormed (part : TemplatePart) : Prop where
  before : Serde.OPEN_BRACE ∉ part.before
  nonempty : part.name ≠ []
  closed : Serde.CLOSE_BRACE ∉ part.name

/-- The parameters of an operation behind the pass: those it had, and a new one for each
name of the path that none of them has. -/
structure Completes (names : List (List Byte)) (params params' added : List Parameter) :
    Prop where
  kept : params' = params ++ added
  path : ∀ p ∈ added, p.location = .path ∧ p.required = true ∧ p.name ∈ names
  missing : ∀ p ∈ added, hasPathParam params p.name = false
  once : (added.map (·.name)).Nodup
  complete : ∀ name ∈ names, hasPathParam params' name = true

theorem hasPathParam_append (params more : List Parameter) (name : List Byte) :
    hasPathParam (params ++ more) name = (hasPathParam params name || hasPathParam more name) :=
  List.any_append

theorem Completes.nil (params : List Parameter) : Completes [] params params [] := by
  constructor
  · rw [List.append_nil]
  · intro p hp
    cases hp
  · intro p hp
    cases hp
  · exact List.nodup_nil
  · intro name hname
    cases hname

/-- A name that has its parameter. -/
theorem Completes.present {names : List (List Byte)} {params params' added : List Parameter}
    (h : Completes names params params' added) {name : List Byte}
    (hname : hasPathParam params name = true) : Completes (name :: names) params params' added := by
  constructor
  · exact h.kept
  · intro p hp
    rcases h.path p hp with ⟨hlocation, hrequired, hmem⟩
    exact ⟨hlocation, hrequired, List.mem_cons_of_mem _ hmem⟩
  · exact h.missing
  · exact h.once
  · intro other hother
    rcases List.mem_cons.mp hother with rfl | hother
    · rw [h.kept, hasPathParam_append, hname]
      rfl
    · exact h.complete other hother

/-- A name that gets one. -/
theorem Completes.added {names : List (List Byte)} {params params' added : List Parameter}
    {new : Parameter} (hlocation : new.location = .path) (hrequired : new.required = true)
    (hmissing : hasPathParam params new.name = false)
    (h : Completes names (params ++ [new]) params' added) :
    Completes (new.name :: names) params params' (new :: added) := by
  have hnew : hasPathParam [new] new.name = true := by
    simp [hasPathParam, hlocation]
  have hlater : ∀ p ∈ added, hasPathParam params p.name = false ∧ p.name ≠ new.name := by
    intro p hp
    have hp' := h.missing p hp
    rw [hasPathParam_append, Bool.or_eq_false_iff] at hp'
    refine ⟨hp'.1, ?_⟩
    intro heq
    rw [heq, hnew] at hp'
    cases hp'.2
  constructor
  · rw [h.kept, List.append_assoc, List.singleton_append]
  · intro p hp
    rcases List.mem_cons.mp hp with rfl | hp
    · exact ⟨hlocation, hrequired, List.mem_cons_self⟩
    · rcases h.path p hp with ⟨hpath, hneeded, hmem⟩
      exact ⟨hpath, hneeded, List.mem_cons_of_mem _ hmem⟩
  · intro p hp
    rcases List.mem_cons.mp hp with rfl | hp
    · exact hmissing
    · exact (hlater p hp).1
  · rw [List.map_cons, List.nodup_cons]
    refine ⟨?_, h.once⟩
    intro hmem
    rcases List.mem_map.mp hmem with ⟨p, hp, heq⟩
    exact (hlater p hp).2 heq
  · intro name hname
    rcases List.mem_cons.mp hname with rfl | hname
    · rw [h.kept, hasPathParam_append, hasPathParam_append, hnew, Bool.or_true, Bool.true_or]
    · exact h.complete name hname

section Filling

variable {σ : Type} [SchemaPool σ]

/-- An operation behind the pass differs in its parameters only. -/
def Filled (names : List (List Byte)) (op op' : Operation) : Prop :=
  op' = { op with parameters := op'.parameters } ∧
    ∃ added, Completes names op.parameters op'.parameters added

end Filling

/-! ## The fifth pass -/

theorem Filled.hasPathParam {names : List (List Byte)} {op op' : Operation}
    (h : Filled names op op') {name : List Byte} (hname : name ∈ names) :
    ∃ p ∈ op'.parameters, p.location = .path ∧ p.name = name := by
  rcases h.2 with ⟨added, hadded⟩
  have hhas := hadded.complete name hname
  simpa [OpenApi.hasPathParam] using hhas

end OpenApi
end Katana
