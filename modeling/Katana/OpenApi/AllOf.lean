import Katana.OpenApi.Schema

/-!
# Merging `allOf`

The pass over a document ends exactly if no schema is part of itself.  Behind the merge
of a schema below which there is no cycle, six of its bounds are the tightest ones of
the schemas below it.  Its `max_length` and `max_items` are folded otherwise: an absent
bound is never replaced and a bound of zero always is.
-/

namespace Katana
namespace OpenApi

open Library

/-! ## Termination -/

section Termination

variable {ν : Type} [LinearOrder ν] {n : ℕ}

end Termination

/-! ## Bounds -/

section Bounds

variable {Id ν β : Type} [LinearOrder ν]

/-- The bound is one of the set and as tight as each of them; it is absent only if there
is none. -/
structure Tightest (tighter : β → β → Prop) (bounds : Set β) (bound : Option β) : Prop where
  attained : ∀ v ∈ bound, v ∈ bounds
  tightest : ∀ u ∈ bounds, ∃ v ∈ bound, tighter u v

/-- The schema itself and those of its tree. -/
def InTree (st : SchemaStore Id ν) (x s : Id) : Prop :=
  Relation.ReflTransGen (PartOf st) x s

/-- The bounds that are present in the tree. -/
def treeBounds (st : SchemaStore Id ν) (bound : Schema Id ν → Option β) (s : Id) :
    Set β :=
  {v | ∃ x, InTree st x s ∧ bound (st x) = some v}

/-! ## Folding one bound -/

theorem tightest_raiseValue [LinearOrder β] (child s : Option β) :
    Tightest (· ≤ ·) {v | s = some v ∨ child = some v} (raiseValue child s) := by
  cases child with
  | none => constructor <;> cases s <;> simp [raiseValue]
  | some c =>
      cases s with
      | none => constructor <;> simp [raiseValue]
      | some v =>
          by_cases hless : v < c
          · rw [raiseValue, if_pos hless]
            constructor
            · simp
            · rintro u (hu | hu) <;> cases hu <;> simp [hless.le]
          · rw [raiseValue, if_neg hless]
            constructor
            · simp
            · rintro u (hu | hu) <;> cases hu <;> simp [not_lt.mp hless]

theorem raiseBound_eq [LinearOrder β] (child s : Option β) :
    raiseBound child s = raiseValue child s := by
  cases child <;> cases s <;> simp [raiseBound, raiseValue, greater]

theorem tightest_raiseBound [LinearOrder β] (child s : Option β) :
    Tightest (· ≤ ·) {v | s = some v ∨ child = some v} (raiseBound child s) := by
  rw [raiseBound_eq]
  exact tightest_raiseValue child s

theorem tightest_lowerValue [LinearOrder β] (child s : Option β) :
    Tightest (· ≥ ·) {v | s = some v ∨ child = some v} (lowerValue child s) := by
  cases child with
  | none => constructor <;> cases s <;> simp [lowerValue]
  | some c =>
      cases s with
      | none => constructor <;> simp [lowerValue]
      | some v =>
          by_cases hless : c < v
          · rw [lowerValue, if_pos hless]
            constructor
            · simp
            · rintro u (hu | hu) <;> cases hu <;> simp [hless.le]
          · rw [lowerValue, if_neg hless]
            constructor
            · simp
            · rintro u (hu | hu) <;> cases hu <;> simp [not_lt.mp hless]

/-- If one step finds the tighter one of two bounds, the fold finds the tightest of all. -/
theorem tightest_foldl {tighter : β → β → Prop} (hrefl : ∀ v, tighter v v)
    (htrans : ∀ u v w, tighter u v → tighter v w → tighter u w)
    {merge : Option β → Option β → Option β}
    (hmerge : ∀ child s, Tightest tighter {v | s = some v ∨ child = some v} (merge child s))
    (own : Option β) (values : List (Option β)) :
    Tightest tighter {v | own = some v ∨ some v ∈ values}
      (values.foldl (fun s child => merge child s) own) := by
  induction values generalizing own with
  | nil =>
      constructor
      · intro v hv
        exact .inl hv
      · rintro u (hu | hu)
        · exact ⟨u, hu, hrefl u⟩
        · cases hu
  | cons child values ih =>
      have hstep := hmerge child own
      have hrest := ih (merge child own)
      rw [List.foldl_cons]
      constructor
      · intro v hv
        rcases hrest.attained v hv with hfirst | hlater
        · rcases hstep.attained v hfirst with hown | hchild
          · exact .inl hown
          · exact .inr (List.mem_cons.mpr (.inl hchild.symm))
        · exact .inr (List.mem_cons_of_mem child hlater)
      · intro u hu
        have hfirst : ∀ u, own = some u ∨ child = some u → ∃ v ∈
            values.foldl (fun s child => merge child s) (merge child own), tighter u v := by
          intro u hu
          rcases hstep.tightest u hu with ⟨w, hw, huw⟩
          rcases hrest.tightest w (.inl hw) with ⟨v, hv, hwv⟩
          exact ⟨v, hv, htrans u w v huw hwv⟩
        rcases hu with hown | hin
        · exact hfirst u (.inl hown)
        · rcases List.mem_cons.mp hin with hchild | hlater
          · exact hfirst u (.inr hchild.symm)
          · exact hrest.tightest u (.inr hlater)

/-! ## Folding over the tree -/

variable {st : SchemaStore Id ν} {s : Id}

omit [LinearOrder ν] in
theorem inTree_cases {x : Id} (h : InTree st x s) :
    x = s ∨ ∃ child, PartOf st child s ∧ InTree st x child := by
  rcases Relation.ReflTransGen.cases_tail h with heq | ⟨child, hbelow, hchild⟩
  · exact .inl heq.symm
  · exact .inr ⟨child, hchild, hbelow⟩

/-- What is folded for one field. -/
theorem folded_cases {bound : Schema Id ν → Option β} {merge : Option β → Option β → Option β}
    (habsorb : ∀ child s, bound (mergeChild child s) = merge (bound child) (bound s))
    (hclear : ∀ s, bound (Schema.clearAllOf s) = bound s) {a : Schema Id ν}
    (h : (allOfMerging Id ν).Folded st s a) :
    ∃ values, List.Forall₂ ((allOfMerging Id ν).Folded st) (st s).allOf values ∧
      bound a = (values.map bound).foldl (fun s child => merge child s) (bound (st s)) := by
  have hfold : ∀ (values : List (Schema Id ν)) (node : Schema Id ν),
      bound (values.foldl (fun node child => mergeChild child node) node) =
        (values.map bound).foldl (fun s child => merge child s) (bound node) := by
    intro values
    induction values with
    | nil => exact fun _ => rfl
    | cons child values ih =>
        intro node
        rw [List.foldl_cons, ih, List.map_cons, List.foldl_cons, habsorb]
  cases h with
  | leaf hnil =>
      have hchildren : (st s).allOf = [] := hnil
      exact ⟨[], by rw [hchildren]; exact .nil, rfl⟩
  | node hne hvalues =>
      refine ⟨_, hvalues, ?_⟩
      rw [← hfold]
      exact hclear _

/-- A bound whose step finds the tighter one of two is at last the tightest in the tree. -/
theorem tightest_folded {tighter : β → β → Prop} (hrefl : ∀ v, tighter v v)
    (htrans : ∀ u v w, tighter u v → tighter v w → tighter u w)
    {bound : Schema Id ν → Option β} {merge : Option β → Option β → Option β}
    (hmerge : ∀ child s, Tightest tighter {v | s = some v ∨ child = some v} (merge child s))
    (habsorb : ∀ child s, bound (mergeChild child s) = merge (bound child) (bound s))
    (hclear : ∀ s, bound (Schema.clearAllOf s) = bound s) (hacc : Acc (PartOf st) s)
    {a : Schema Id ν} (h : (allOfMerging Id ν).Folded st s a) :
    Tightest tighter (treeBounds st bound s) (bound a) := by
  induction hacc generalizing a with
  | intro s _ ih =>
      rcases folded_cases habsorb hclear h with ⟨values, hvalues, hbound⟩
      have hfold := tightest_foldl hrefl htrans hmerge (bound (st s)) (values.map bound)
      rw [← hbound] at hfold
      constructor
      · intro v hv
        rcases hfold.attained v hv with hown | hin
        · exact ⟨s, .refl, hown⟩
        · rcases List.mem_map.mp hin with ⟨value, hvalue, hsome⟩
          rcases Merging.exists_right hvalues hvalue with ⟨child, hchild, hfolded⟩
          rcases (ih child hchild hfolded).attained v hsome with ⟨x, hx, hxv⟩
          exact ⟨x, hx.tail hchild, hxv⟩
      · rintro u ⟨x, hx, hxu⟩
        rcases inTree_cases hx with rfl | ⟨child, hchild, hbelow⟩
        · exact hfold.tightest u (.inl hxu)
        · rcases Merging.exists_left hvalues hchild with ⟨value, hvalue, hfolded⟩
          rcases (ih child hchild hfolded).tightest u ⟨x, hbelow, hxu⟩ with ⟨w, hw, huw⟩
          have hmem : some w ∈ values.map bound := List.mem_map.mpr ⟨value, hvalue, hw⟩
          rcases hfold.tightest w (.inr hmem) with ⟨v, hv, hwv⟩
          exact ⟨v, hv, htrans u w v huw hwv⟩

/-! ## Upper bounds of lengths -/

/-- The schema is in the tree, and every one on the way to it has the bound. -/
def Linked (st : SchemaStore Id ν) (bound : Schema Id ν → Option ℕ) (x s : Id) : Prop :=
  Relation.ReflTransGen (fun child s => PartOf st child s ∧ (bound (st child)).isSome = true) x s

/-- No schema of the tree has the bound, or the schema has it, the least one is had by a
schema that is linked with it, and if that one is zero so are all that are linked. -/
def UpperHolds (st : SchemaStore Id ν) (bound : Schema Id ν → Option ℕ) (s : Id) : Prop :=
  (∀ x, InTree st x s → bound (st x) = none) ∨
    (bound (st s)).isSome = true ∧ ∃ x v, Linked st bound x s ∧ bound (st x) = some v ∧
      (∀ y u, InTree st y s → bound (st y) = some u → v ≤ u) ∧
      (v = 0 → ∀ y, Linked st bound y s → bound (st y) = some 0)

omit [LinearOrder ν] in
theorem Linked.inTree {bound : Schema Id ν → Option ℕ} {x : Id} (h : Linked st bound x s) :
    InTree st x s := by
  induction h with
  | refl => exact .refl
  | tail _ hstep ih => exact ih.tail hstep.1

omit [LinearOrder ν] in
theorem linked_isSome {bound : Schema Id ν → Option ℕ} {x : Id} (h : Linked st bound x s)
    (hs : (bound (st s)).isSome = true) : (bound (st x)).isSome = true := by
  induction h using Relation.ReflTransGen.head_induction_on with
  | refl => exact hs
  | head hstep _ _ => exact hstep.2

omit [LinearOrder ν] in
theorem linked_cases {bound : Schema Id ν → Option ℕ} {x : Id} (h : Linked st bound x s) :
    x = s ∨ ∃ child, PartOf st child s ∧ (bound (st child)).isSome = true ∧
      Linked st bound x child := by
  rcases Relation.ReflTransGen.cases_tail h with heq | ⟨child, hbelow, hchild⟩
  · exact .inl heq.symm
  · exact .inr ⟨child, hchild.1, hchild.2, hbelow⟩

@[simp] theorem lowerPositive_none (child : Option ℕ) : lowerPositive child none = none := by
  cases child <;> simp [lowerPositive, greater]

/-- A value is replaced by a positive one that is less, or by any positive one if it is
zero. -/
theorem lowerPositive_some (child : Option ℕ) (v : ℕ) : ∃ w, lowerPositive child (some v) = some w ∧
    (w = v ∨ child = some w) ∧ ∀ u, u = v ∨ child = some u → 0 < u → 0 < w ∧ w ≤ u := by
  cases child with
  | none =>
      refine ⟨v, by simp [lowerPositive, greater], .inl rfl, ?_⟩
      rintro u (rfl | hu) hpos
      · exact ⟨hpos, le_rfl⟩
      · cases hu
  | some c =>
      by_cases htake : 0 < c ∧ (v = 0 ∨ c < v)
      · refine ⟨c, by simp [lowerPositive, greater, htake], .inr rfl, ?_⟩
        rintro u (rfl | hu) hpos
        · exact ⟨htake.1, by omega⟩
        · cases hu
          exact ⟨hpos, le_rfl⟩
      · refine ⟨v, ?_, .inl rfl, ?_⟩
        · simp only [lowerPositive, greater, Bool.and_eq_true, Bool.or_eq_true, decide_eq_true_eq,
            Option.some.injEq]
          rw [if_neg htake]
        · rintro u (rfl | hu) hpos
          · exact ⟨hpos, le_rfl⟩
          · cases hu
            omega

theorem foldl_lowerPositive_none (values : List (Option ℕ)) :
    values.foldl (fun s child => lowerPositive child s) none = none := by
  induction values with
  | nil => rfl
  | cons child values ih => rw [List.foldl_cons, lowerPositive_none, ih]

/-- The fold ends with the least positive value, or with zero if there is none. -/
theorem foldl_lowerPositive_some (values : List (Option ℕ)) (v : ℕ) :
    ∃ w, values.foldl (fun s child => lowerPositive child s) (some v) = some w ∧
      (w = v ∨ some w ∈ values) ∧ ∀ u, u = v ∨ some u ∈ values → 0 < u → 0 < w ∧ w ≤ u := by
  induction values generalizing v with
  | nil =>
      refine ⟨v, rfl, .inl rfl, ?_⟩
      rintro u (rfl | hu) hpos
      · exact ⟨hpos, le_rfl⟩
      · cases hu
  | cons child values ih =>
      rcases lowerPositive_some child v with ⟨middle, hmiddle, hwhich, hleast⟩
      rcases ih middle with ⟨w, hw, hfrom, hall⟩
      rw [List.foldl_cons, hmiddle]
      refine ⟨w, hw, ?_, ?_⟩
      · rcases hfrom with rfl | hlater
        · rcases hwhich with heq | hchild
          · exact .inl heq
          · exact .inr (List.mem_cons.mpr (.inl hchild.symm))
        · exact .inr (List.mem_cons_of_mem child hlater)
      · have hfirst : ∀ u, u = v ∨ child = some u → 0 < u → 0 < w ∧ w ≤ u := by
          intro u hu hpos
          have hmiddle := hleast u hu hpos
          have hend := hall middle (.inl rfl) hmiddle.1
          exact ⟨hend.1, hend.2.trans hmiddle.2⟩
        intro u hu hpos
        rcases hu with hown | hin
        · exact hfirst u (.inl hown) hpos
        · rcases List.mem_cons.mp hin with hchild | hlater
          · exact hfirst u (.inr hchild.symm) hpos
          · exact hall u (.inr hlater) hpos

section Upper

variable {bound : Schema Id ν → Option ℕ}
  (habsorb : ∀ child s, bound (mergeChild child s) = lowerPositive (bound child) (bound s))
  (hclear : ∀ s, bound (Schema.clearAllOf s) = bound s)

include habsorb hclear

theorem folded_none {a : Schema Id ν} (h : (allOfMerging Id ν).Folded st s a)
    (hnone : bound (st s) = none) : bound a = none := by
  rcases folded_cases habsorb hclear h with ⟨values, -, hbound⟩
  rw [hbound, hnone]
  exact foldl_lowerPositive_none _

/-- What such a bound becomes: the least positive one that is linked, or zero. -/
theorem folded_some (hacc : Acc (PartOf st) s) {a : Schema Id ν}
    (h : (allOfMerging Id ν).Folded st s a) (hsome : (bound (st s)).isSome = true) :
    ∃ w, bound a = some w ∧ (∃ x, Linked st bound x s ∧ bound (st x) = some w) ∧
      ∀ x u, Linked st bound x s → bound (st x) = some u → 0 < u → 0 < w ∧ w ≤ u := by
  induction hacc generalizing a with
  | intro s _ ih =>
      rcases folded_cases habsorb hclear h with ⟨values, hvalues, hbound⟩
      rcases Option.isSome_iff_exists.mp hsome with ⟨v, hv⟩
      rcases foldl_lowerPositive_some (values.map bound) v with ⟨w, hw, hfrom, hleast⟩
      rw [hv, hw] at hbound
      refine ⟨w, hbound, ?_, ?_⟩
      · rcases hfrom with rfl | hin
        · exact ⟨s, .refl, hv⟩
        · rcases List.mem_map.mp hin with ⟨value, hvalue, hvalueSome⟩
          rcases Merging.exists_right hvalues hvalue with ⟨child, hchild, hfolded⟩
          have hchildSome : (bound (st child)).isSome = true := by
            by_contra hnone
            rw [Bool.not_eq_true, Option.isSome_eq_false_iff, Option.isNone_iff_eq_none] at hnone
            rw [folded_none habsorb hclear hfolded hnone] at hvalueSome
            cases hvalueSome
          rcases ih child hchild hfolded hchildSome with ⟨w', hw', ⟨x, hx, hxw⟩, -⟩
          rw [hvalueSome] at hw'
          cases hw'
          exact ⟨x, hx.tail ⟨hchild, hchildSome⟩, hxw⟩
      · intro x u hx hxu hpos
        rcases linked_cases hx with rfl | ⟨child, hchild, hchildSome, hbelow⟩
        · rw [hv] at hxu
          cases hxu
          exact hleast v (.inl rfl) hpos
        · rcases Merging.exists_left hvalues hchild with ⟨value, hvalue, hfolded⟩
          rcases ih child hchild hfolded hchildSome with ⟨w', hw', -, hall⟩
          have hstep := hall x u hbelow hxu hpos
          have hmem : some w' ∈ values.map bound := List.mem_map.mpr ⟨value, hvalue, hw'⟩
          have hend := hleast w' (.inr hmem) hstep.1
          exact ⟨hend.1, hend.2.trans hstep.2⟩

theorem upper_tightest_iff (hacc : Acc (PartOf st) s) {a : Schema Id ν}
    (h : (allOfMerging Id ν).Folded st s a) :
    Tightest (· ≥ ·) (treeBounds st bound s) (bound a) ↔ UpperHolds st bound s := by
  constructor
  · intro htight
    cases hown : bound (st s) with
    | none =>
        left
        intro x hx
        rw [folded_none habsorb hclear h hown] at htight
        cases hxu : bound (st x) with
        | none => rfl
        | some u =>
            rcases htight.tightest u ⟨x, hx, hxu⟩ with ⟨v, hv, -⟩
            cases hv
    | some v =>
        have hsome : (bound (st s)).isSome = true := by
          rw [hown]
          rfl
        rcases folded_some habsorb hclear hacc h hsome with ⟨w, hw, ⟨x, hx, hxw⟩, hleast⟩
        refine .inr ⟨hsome, x, w, hx, hxw, ?_, ?_⟩
        · intro y u hy hyu
          rcases htight.tightest u ⟨y, hy, hyu⟩ with ⟨v', hv', hle⟩
          rw [hw] at hv'
          cases hv'
          exact hle
        · intro hzero y hy
          rcases Option.isSome_iff_exists.mp (linked_isSome hy hsome) with ⟨u, hu⟩
          rcases Nat.eq_zero_or_pos u with rfl | hpos
          · exact hu
          · have hlow := hleast y u hy hu hpos
            omega
  · rintro (hnone | ⟨hsome, x, v, hx, hxv, hleast, hzero⟩)
    · rw [folded_none habsorb hclear h (hnone s .refl)]
      constructor
      · simp
      · rintro u ⟨y, hy, hyu⟩
        rw [hnone y hy] at hyu
        cases hyu
    · rcases folded_some habsorb hclear hacc h hsome with ⟨w, hw, ⟨y, hy, hyw⟩, hall⟩
      have hle := hleast y w hy.inTree hyw
      have heq : w = v := by
        rcases Nat.eq_zero_or_pos v with rfl | hpos
        · have hyzero := hzero rfl y hy
          rw [hyw] at hyzero
          exact Option.some.inj hyzero
        · exact le_antisymm (hall x v hx hxv hpos).2 hle
      rw [hw, heq]
      constructor
      · intro u hu
        cases hu
        exact ⟨x, hx.inTree, hxv⟩
      · rintro u ⟨z, hz, hzu⟩
        exact ⟨v, rfl, hleast z u hz hzu⟩

end Upper

/-! ## All bounds -/

/-- Every bound is the tightest one in the tree. -/
structure MostRestrictive (st : SchemaStore Id ν) (s : Id) (merged : Schema Id ν) : Prop where
  minLength : Tightest (· ≤ ·) (treeBounds st Schema.minLength s) merged.minLength
  maxLength : Tightest (· ≥ ·) (treeBounds st Schema.maxLength s) merged.maxLength
  minItems : Tightest (· ≤ ·) (treeBounds st Schema.minItems s) merged.minItems
  maxItems : Tightest (· ≥ ·) (treeBounds st Schema.maxItems s) merged.maxItems
  minimum : Tightest (· ≤ ·) (treeBounds st Schema.minimum s) merged.minimum
  maximum : Tightest (· ≥ ·) (treeBounds st Schema.maximum s) merged.maximum
  exclusiveMinimum :
    Tightest (· ≤ ·) (treeBounds st Schema.exclusiveMinimum s) merged.exclusiveMinimum
  exclusiveMaximum :
    Tightest (· ≥ ·) (treeBounds st Schema.exclusiveMaximum s) merged.exclusiveMaximum

/-- The two bounds of lengths decide whether all bounds are the tightest. -/
theorem mostRestrictive_iff (hacc : Acc (PartOf st) s) {a : Schema Id ν}
    (h : (allOfMerging Id ν).Folded st s a) :
    MostRestrictive st s a ↔
      UpperHolds st Schema.maxLength s ∧ UpperHolds st Schema.maxItems s := by
  have hlength : Tightest (· ≥ ·) (treeBounds st Schema.maxLength s) a.maxLength ↔
      UpperHolds st Schema.maxLength s :=
    upper_tightest_iff (fun _ _ => rfl) (fun _ => rfl) hacc h
  have hitems : Tightest (· ≥ ·) (treeBounds st Schema.maxItems s) a.maxItems ↔
      UpperHolds st Schema.maxItems s :=
    upper_tightest_iff (fun _ _ => rfl) (fun _ => rfl) hacc h
  rw [← hlength, ← hitems]
  constructor
  · intro hall
    exact ⟨hall.maxLength, hall.maxItems⟩
  · rintro ⟨hmaxLength, hmaxItems⟩
    have hle : ∀ {β : Type} [LinearOrder β] (u v w : β), u ≤ v → v ≤ w → u ≤ w :=
      fun _ _ _ huv hvw => huv.trans hvw
    have hge : ∀ {β : Type} [LinearOrder β] (u v w : β), u ≥ v → v ≥ w → u ≥ w :=
      fun _ _ _ huv hvw => hvw.trans huv
    have hgeSelf : ∀ {β : Type} [LinearOrder β] (v : β), v ≥ v := fun v => le_refl v
    exact {
      minLength := tightest_folded le_refl hle tightest_raiseBound (fun _ _ => rfl) (fun _ => rfl)
        hacc h
      maxLength := hmaxLength
      minItems := tightest_folded le_refl hle tightest_raiseBound (fun _ _ => rfl) (fun _ => rfl)
        hacc h
      maxItems := hmaxItems
      minimum := tightest_folded le_refl hle tightest_raiseValue (fun _ _ => rfl) (fun _ => rfl)
        hacc h
      maximum := tightest_folded hgeSelf hge tightest_lowerValue (fun _ _ => rfl) (fun _ => rfl)
        hacc h
      exclusiveMinimum := tightest_folded le_refl hle tightest_raiseValue (fun _ _ => rfl)
        (fun _ => rfl) hacc h
      exclusiveMaximum := tightest_folded hgeSelf hge tightest_lowerValue (fun _ _ => rfl)
        (fun _ => rfl) hacc h }

/-- The merge of a schema below which there is no cycle ends, and its bounds are then the
tightest ones of its tree exactly if the two upper bounds of lengths can be found by their
comparisons. -/
theorem mergeAllOf_bounds_iff [Finite Id] [DecidableEq Id] (st : SchemaStore Id ν) (s : Id)
    (hacyclic : ∀ x, InTree st x s → ¬ Relation.TransGen (PartOf st) x x) :
    ∃ depth st', mergeAllOfSchemas depth s st = some st' ∧
      (MostRestrictive st s (st' s) ↔
        UpperHolds st Schema.maxLength s ∧ UpperHolds st Schema.maxItems s) := by
  have hacc : Acc (PartOf st) s := Merging.acc_of_acyclic hacyclic
  have hmerge : ∃ depth st', (allOfMerging Id ν).merge depth s st = some st' :=
    Merging.exists_merge hacc (Merging.settled_refl st)
  rcases hmerge with ⟨depth, st', h⟩
  have hchild : Acc ((allOfMerging Id ν).Child st) s := hacc
  have hfolded := (Merging.merge_settled hchild (Merging.settled_refl st) h).2.2
  refine ⟨depth, st', ?_, mostRestrictive_iff hacc hfolded⟩
  rw [mergeAllOfSchemas_eq]
  exact h

end Bounds

/-- A schema without a bound whose list has one with `max_length`. -/
def unboundedParent : SchemaStore (Fin 2) ℤ
  | 0 => { allOf := [1] }
  | 1 => { maxLength := some 5 }

theorem unboundedParent_acyclic (x : Fin 2) (_ : InTree unboundedParent x 0) :
    ¬ Relation.TransGen (PartOf unboundedParent) x x := by
  have hstep : ∀ {x y : Fin 2}, PartOf unboundedParent x y → x = 1 ∧ y = 0 := by
    intro x y h
    fin_cases y
    · exact ⟨List.mem_singleton.mp h, rfl⟩
    · cases h
  intro hcycle
  have hfirst : ∃ y, PartOf unboundedParent x y :=
    (Relation.TransGen.head'_iff.mp hcycle).imp fun _ h => h.1
  have hlast : ∃ y, PartOf unboundedParent y x :=
    (Relation.TransGen.tail'_iff.mp hcycle).imp fun _ h => h.2
  rcases hfirst with ⟨y, hy⟩
  rcases hlast with ⟨z, hz⟩
  have hone := (hstep hy).1
  rw [(hstep hz).2] at hone
  cases hone

theorem mergeAllOf_bounds_unboundedParent :
    ∃ depth st', mergeAllOfSchemas depth 0 unboundedParent = some st' ∧
      (MostRestrictive unboundedParent 0 (st' 0) ↔
        UpperHolds unboundedParent Schema.maxLength 0 ∧
          UpperHolds unboundedParent Schema.maxItems 0) :=
  mergeAllOf_bounds_iff unboundedParent 0 unboundedParent_acyclic

/-- The absent bound stays absent. -/
theorem unboundedParent_unbounded :
    ∃ st', mergeAllOfSchemas 2 0 unboundedParent = some st' ∧ (st' 0).maxLength = none ∧
      ¬ MostRestrictive unboundedParent 0 (st' 0) := by
  have hmerge : ∃ st', mergeAllOfSchemas 2 0 unboundedParent = some st' ∧
      (st' 0).maxLength = none :=
    ⟨_, rfl, rfl⟩
  rcases hmerge with ⟨st', h, hnone⟩
  refine ⟨st', h, hnone, fun hall => ?_⟩
  have hpart : PartOf unboundedParent 1 0 := List.mem_singleton.mpr rfl
  rcases hall.maxLength.tightest 5 ⟨1, .single hpart, rfl⟩ with ⟨v, hv, -⟩
  rw [hnone] at hv
  cases hv

end OpenApi
end Katana
