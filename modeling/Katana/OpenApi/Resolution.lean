import Katana.OpenApi.LoadedPlaces

/-!
# What resolving references does

The walk of the second pass goes over a graph that may have cycles, and rewrites it on
its way.  It ends on every graph; a pointer is moved along the chain of references that
begins where it pointed to before, and nothing else is changed.
-/

namespace Katana
namespace OpenApi

open Library
open Http (Byte)
open Serde (JsonCursor)

/-! ## Moved pointers -/

section Retarget

variable {Id ν : Type}

/-- A schema with other targets in its slots. -/
def Schema.retarget (f : Slot → Id → Id) (s : Schema Id ν) : Schema Id ν :=
  { s with
    properties := s.properties.mapIdx fun i prop =>
      { prop with type := prop.type.map (f (.property i)) }
    items := s.items.map (f .items)
    additionalProperties := s.additionalProperties.map (f .additionalProperties)
    oneOf := s.oneOf.mapIdx fun i => f (.oneOf i)
    anyOf := s.anyOf.mapIdx fun i => f (.anyOf i)
    allOf := s.allOf.mapIdx fun i => f (.allOf i) }

theorem mapIdx_same {α : Type} (as : List α) : as.mapIdx (fun _ a => a) = as := by
  apply List.ext_getElem?
  intro i
  rw [List.getElem?_mapIdx, Option.map_id']

theorem Schema.retarget_same (s : Schema Id ν) : s.retarget (fun _ id => id) = s := by
  simp only [Schema.retarget, Option.map_id', mapIdx_same]

theorem Schema.target_retarget (f : Slot → Id → Id) (s : Schema Id ν) (slot : Slot) :
    (s.retarget f).target slot = (s.target slot).map (f slot) := by
  cases slot with
  | property i =>
      simp only [Schema.retarget, Schema.target, List.getElem?_mapIdx]
      cases s.properties[i]? <;> rfl
  | items => rfl
  | additionalProperties => rfl
  | oneOf i => exact List.getElem?_mapIdx
  | anyOf i => exact List.getElem?_mapIdx
  | allOf i => exact List.getElem?_mapIdx

theorem mapIdx_set {α β : Type} (g : ℕ → α → β) (as : List α) (i : ℕ) (b : β) :
    (as.mapIdx g).set i b = as.mapIdx fun j => if j = i then fun _ => b else g j := by
  apply List.ext_getElem?
  intro j
  rw [List.getElem?_set, List.getElem?_mapIdx, List.getElem?_mapIdx, List.length_mapIdx]
  by_cases hj : i = j
  · rw [if_pos hj, if_pos hj.symm]
    by_cases hlength : i < as.length
    · rw [if_pos hlength, ← hj, List.getElem?_eq_getElem hlength]
      rfl
    · rw [if_neg hlength, ← hj, List.getElem?_eq_none (Nat.le_of_not_lt hlength)]
      rfl
  · rw [if_neg hj, if_neg (Ne.symm hj)]

/-- A slot that is set, where there is a target. -/
theorem Schema.setTarget_retarget (f : Slot → Id → Id) {s : Schema Id ν} {slot : Slot} {old : Id}
    (hold : s.target slot = some old) (new : Id) :
    (s.retarget f).setTarget new slot = s.retarget (Function.update f slot fun _ => new) := by
  cases slot with
  | property i =>
      rcases Option.bind_eq_some_iff.mp hold with ⟨prop, hprop, htype⟩
      have hproperties : (s.retarget f).properties.modify i
            (fun prop => { prop with type := some new }) =
          (s.retarget (Function.update f (.property i) fun _ => new)).properties := by
        apply List.ext_getElem?
        intro j
        simp only [Schema.retarget, List.getElem?_modify, List.getElem?_mapIdx]
        by_cases hj : i = j
        · rw [← hj, hprop]
          simp [htype]
        · cases s.properties[j]? <;> simp [hj, Ne.symm hj]
      rw [Schema.setTarget, hproperties]
      simp [Schema.retarget]
  | items =>
      have hitems : s.items = some old := hold
      simp [Schema.retarget, Schema.setTarget, hitems]
  | additionalProperties =>
      have hadditional : s.additionalProperties = some old := hold
      simp [Schema.retarget, Schema.setTarget, hadditional]
  | oneOf i => simp [Schema.retarget, Schema.setTarget, mapIdx_set, Function.update_apply]
  | anyOf i => simp [Schema.retarget, Schema.setTarget, mapIdx_set, Function.update_apply]
  | allOf i => simp [Schema.retarget, Schema.setTarget, mapIdx_set, Function.update_apply]

end Retarget

/-! ## Chains of references -/

/-- The first schema is a reference to the second one. -/
def Names (index : Index ℕ) (get : SchemaStore ℕ Float) (x y : ℕ) : Prop :=
  (get x).refers = true ∧ (get x).referent index = some y

section Chains

variable {index : Index ℕ} {get : SchemaStore ℕ Float}

/-- What a call comes back with. -/
def Resolves (index : Index ℕ) (get : SchemaStore ℕ Float) (visited : List ℕ) (s : ℕ)
    (found : Option ℕ × List ℕ) : Prop :=
  visited ⊆ found.2 ∧ ∀ r ∈ found.1, Relation.ReflTransGen (Names index get) s r

theorem Resolves.self (visited : List ℕ) (s : ℕ) :
    Resolves index get visited s (some s, visited) := by
  refine ⟨List.Subset.refl _, ?_⟩
  intro r hr
  cases hr
  exact Relation.ReflTransGen.refl

variable {indexed : Finset ℕ} (hindexed : ∀ entry ∈ index, entry.2 ∈ indexed)

include hindexed

end Chains

/-! ## The walk -/

/-- The table is the first one but for pointers that have been moved along references. -/
structure Redirected (index : Index ℕ) (t₀ t : SchemaTable) : Prop where
  size : t.size = t₀.size
  moved : ∀ place, ∃ f, t.get place = (t₀.get place).retarget f ∧
    ∀ slot x, (t₀.get place).target slot = some x →
      Relation.ReflTransGen (Names index t₀.get) x (f slot x)

section Walk

variable {index : Index ℕ} {t₀ t : SchemaTable}

theorem Redirected.refl (index : Index ℕ) (t : SchemaTable) : Redirected index t t := by
  refine ⟨rfl, fun place => ⟨_, (Schema.retarget_same _).symm, ?_⟩⟩
  intro slot x _
  exact Relation.ReflTransGen.refl

theorem Redirected.names (h : Redirected index t₀ t) {x y : ℕ} :
    Names index t.get x y ↔ Names index t₀.get x y := by
  rcases h.moved x with ⟨f, heq, -⟩
  unfold Names
  rw [heq]
  exact Iff.rfl

/-- Where a pointer leads to. -/
theorem Redirected.target (h : Redirected index t₀ t) {place : ℕ} {slot : Slot} {y : ℕ}
    (hy : (t.get place).target slot = some y) : ∃ x, (t₀.get place).target slot = some x ∧
      Relation.ReflTransGen (Names index t₀.get) x y := by
  rcases h.moved place with ⟨f, heq, hchain⟩
  rw [heq, Schema.target_retarget] at hy
  rcases Option.map_eq_some_iff.mp hy with ⟨x, hx, rfl⟩
  exact ⟨x, hx, hchain slot x hx⟩

theorem Redirected.setSlot (h : Redirected index t₀ t) {place : ℕ} {slot : Slot} {x y : ℕ}
    (hx : (t.get place).target slot = some x)
    (hxy : Relation.ReflTransGen (Names index t₀.get) x y) :
    Redirected index t₀ (SchemaPool.update place (fun s => s.setTarget y slot) t) := by
  refine ⟨h.size, fun other => ?_⟩
  change ∃ f, Function.update t.get place ((t.get place).setTarget y slot) other = _ ∧ _
  by_cases hother : other = place
  · rcases h.moved place with ⟨f, heq, hchain⟩
    rw [heq, Schema.target_retarget] at hx
    rcases Option.map_eq_some_iff.mp hx with ⟨x₀, hx₀, hf⟩
    rw [hother, Function.update_self, heq]
    refine ⟨_, Schema.setTarget_retarget f hx₀ y, ?_⟩
    intro slot' x' hx'
    by_cases hslot : slot' = slot
    · rw [hslot] at hx' ⊢
      rw [hx₀] at hx'
      rw [Function.update_self, ← Option.some.inj hx']
      exact (hf ▸ hchain slot x₀ hx₀).trans hxy
    · rw [Function.update_of_ne hslot]
      exact hchain slot' x' hx'
  · rw [Function.update_of_ne hother]
    exact h.moved other

section Ending

variable (hclosed : t₀.Closed) (hindex : Below t₀.size (index.places fun place => [place]))
  {indexed : Finset ℕ} (hindexed : ∀ entry ∈ index, entry.2 ∈ indexed) {n : Finset ℕ}

include hclosed hindex hindexed

end Ending

end Walk

end OpenApi
end Katana
