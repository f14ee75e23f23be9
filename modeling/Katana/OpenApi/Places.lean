import Katana.OpenApi.Loader

/-!
# Places of schemas

A document, the indexes of the components and the schemas themselves point to schemas
by their places in the table.  Whatever is read, every place is one of the table.
-/

namespace Katana
namespace OpenApi

open Library
open Http (Byte bytesOf)
open Serde (JsonCursor parseBool parseDouble parseSize)

variable {Id ν α β γ : Type}

/-! ## What points to schemas -/

def Schema.pointers (s : Schema Id ν) : List Id :=
  s.properties.filterMap (·.type) ++ s.items.toList ++ s.additionalProperties.toList ++
    s.oneOf ++ s.anyOf ++ s.allOf

def Parameter.places (p : Parameter) : List ℕ :=
  p.type.toList

def contentPlaces (content : List MediaType) : List ℕ :=
  content.filterMap (·.type)

def Response.places (resp : Response) : List ℕ :=
  contentPlaces resp.content

def RequestBody.places (body : RequestBody) : List ℕ :=
  contentPlaces body.content

def ResponseMember.places (member : ResponseMember) : List ℕ :=
  member.response.toList.flatMap Response.places

def Operation.places (op : Operation) : List ℕ :=
  op.parameters.flatMap Parameter.places ++ op.body.toList.flatMap RequestBody.places ++
    op.members.flatMap ResponseMember.places

def PathItem.places (item : PathItem) : List ℕ :=
  item.operations.flatMap Operation.places

def Document.places (doc : Document) : List ℕ :=
  doc.paths.flatMap PathItem.places

def Index.places (places : α → List ℕ) (index : Index α) : List ℕ :=
  index.flatMap fun entry => places entry.2

def Components.places (components : Components) : List ℕ :=
  components.schemas.places (fun place => [place]) ++
    components.parameters.places Parameter.places ++
    components.responses.places Response.places ++
    components.requestBodies.places RequestBody.places

/-! ## Places of a table -/

def Below (k : ℕ) (places : List ℕ) : Prop :=
  ∀ place ∈ places, place < k

@[simp] theorem below_nil (k : ℕ) : Below k [] := by
  intro place h
  cases h

@[simp] theorem below_append {k : ℕ} {left right : List ℕ} :
    Below k (left ++ right) ↔ Below k left ∧ Below k right :=
  List.forall_mem_append

@[simp] theorem below_cons {k place : ℕ} {places : List ℕ} :
    Below k (place :: places) ↔ place < k ∧ Below k places :=
  List.forall_mem_cons

theorem below_flatMap {k : ℕ} {as : List α} {places : α → List ℕ} :
    Below k (as.flatMap places) ↔ ∀ a ∈ as, Below k (places a) := by
  simp only [Below, List.mem_flatMap]
  constructor
  · intro h a ha place hplace
    exact h place ⟨a, ha, hplace⟩
  · rintro h place ⟨a, ha, hplace⟩
    exact h a ha place hplace

theorem Below.mono {k k' : ℕ} {places : List ℕ} (h : Below k places) (hle : k ≤ k') :
    Below k' places :=
  fun place hplace => (h place hplace).trans_le hle

theorem Below.subset {k : ℕ} {places places' : List ℕ} (h : Below k places)
    (hsub : places' ⊆ places) : Below k places' :=
  fun place hplace => h place (hsub hplace)

theorem Index.below_find {k : ℕ} {places : α → List ℕ} {index : Index α} {name : List Byte} {a : α}
    (h : Below k (index.places places)) (hfind : index.find name = some a) :
    Below k (places a) := by
  rcases Index.find_mem hfind with ⟨entry, hentry, heq⟩
  rw [← heq]
  exact below_flatMap.mp h entry hentry

theorem Index.below_emplace {k : ℕ} {places : α → List ℕ} {index : Index α} {a : α}
    (h : Below k (index.places places)) (ha : Below k (places a)) (name : List Byte) :
    Below k ((index.emplace name a).places places) := by
  apply below_flatMap.mpr
  intro entry hentry
  rcases Index.mem_emplace hentry with hold | rfl
  · exact below_flatMap.mp h entry hold
  · exact ha

/-- Every pointer of a schema of the table is a place of the table. -/
def SchemaTable.Closed (t : SchemaTable) : Prop :=
  ∀ place, Below t.size (t.get place).pointers

theorem SchemaTable.Closed.add {t : SchemaTable} (h : t.Closed) {schema : Schema ℕ Float}
    (hschema : Below t.size schema.pointers) : (SchemaPool.add schema t).2.Closed := by
  intro place
  change Below (t.size + 1) (Function.update t.get t.size schema place).pointers
  by_cases hplace : place = t.size
  · rw [hplace, Function.update_self]
    exact hschema.mono t.size.le_succ
  · rw [Function.update_of_ne hplace]
    exact (h place).mono t.size.le_succ

theorem SchemaTable.Closed.update {t : SchemaTable} (h : t.Closed) {place : ℕ}
    {f : Schema ℕ Float → Schema ℕ Float}
    (hf : Below t.size (f (t.get place)).pointers) : (SchemaPool.update place f t).Closed := by
  intro other
  change Below t.size (Function.update t.get place (f (t.get place)) other).pointers
  by_cases hother : other = place
  · rw [hother, Function.update_self]
    exact hf
  · rw [Function.update_of_ne hother]
    exact h other

/-! ## Readers -/

/-- The table has so many schemas, and it is closed. -/
def Sized (k : ℕ) (s : Loading SchemaTable) : Prop :=
  s.pool.size = k ∧ s.pool.Closed

/-- From a table of at least `n` schemas on, the table stays closed, and the places of
what is read are in it. -/
abbrev Inside (n : ℕ) (m : Reading SchemaTable α) (places : α → List ℕ) : Prop :=
  Run.Upholds Sized n m fun k a => Below k (places a)

/-- What is read has no places. -/
abbrev Plain (n : ℕ) (m : Reading SchemaTable α) : Prop :=
  Inside n m fun _ => []

section Steps

variable {n : ℕ} {places : α → List ℕ} {placesOf : β → List ℕ}

theorem Inside.pure {a : α} (h : Below n (places a)) :
    Inside n (Pure.pure a : Reading SchemaTable α) places :=
  Run.Upholds.of_pure fun _ hk => h.mono hk

theorem inside_onCursor (f : JsonCursor → α × JsonCursor) :
    Plain n (onCursor f : Reading SchemaTable α) :=
  Run.Upholds.step fun k _ _ hs => ⟨k, le_rfl, hs, below_nil k⟩

theorem Inside.bind {m : Reading SchemaTable β} {f : β → Reading SchemaTable α}
    (hm : Inside n m placesOf)
    (hf : ∀ k b, n ≤ k → Below k (placesOf b) → Inside k (f b) places) :
    Inside n (m >>= f) places :=
  Run.Upholds.bind hm hf

/-- Behind a step that makes no places. -/
theorem Plain.after {m : Reading SchemaTable β} {f : β → Reading SchemaTable α} (hm : Plain n m)
    (hf : ∀ k b, n ≤ k → Inside k (f b) places) : Inside n (m >>= f) places :=
  Inside.bind hm fun k b hk _ => hf k b hk

theorem plain_moveCursor (f : JsonCursor → JsonCursor) :
    Plain n (moveCursor f : Reading SchemaTable Unit) :=
  inside_onCursor _

theorem plain_skipValue : Plain n (skipValue : Reading SchemaTable Unit) :=
  plain_moveCursor _

theorem plain_tryComma : Plain n (tryComma : Reading SchemaTable Unit) :=
  plain_moveCursor _

theorem plain_rawText : Plain n (rawText : Reading SchemaTable (List Byte)) := by
  apply Plain.after (inside_onCursor _)
  intro k text _
  cases text with
  | some text => exact Inside.pure (below_nil k)
  | none => exact inside_onCursor _

theorem inside_addSchema {schema : Schema ℕ Float} (h : Below n schema.pointers) :
    Inside n (addSchema schema) fun place => [place] := by
  apply Run.Upholds.step
  intro k s hk hs
  refine ⟨k + 1, k.le_succ, ?_, ?_⟩
  · constructor
    · exact congrArg (· + 1) hs.1
    · apply hs.2.add
      rw [hs.1]
      exact h.mono hk
  · rw [below_cons]
    exact ⟨by rw [← hs.1]; exact Nat.lt_succ_self _, below_nil _⟩

theorem plain_updateSchema {place : ℕ} {f : Schema ℕ Float → Schema ℕ Float}
    (hf : ∀ k s, n ≤ k → Below k s.pointers → Below k (f s).pointers) :
    Plain n (updateSchema place f : Reading SchemaTable Unit) := by
  apply Run.Upholds.step
  intro k s hk hs
  refine ⟨k, le_rfl, ⟨hs.1, ?_⟩, below_nil k⟩
  apply hs.2.update
  rw [hs.1]
  apply hf k _ hk
  rw [← hs.1]
  exact hs.2 place

end Steps

/-! ## Loops -/

def Pass.places (places : β → List ℕ) (placesOf : γ → List ℕ) : Pass β γ → List ℕ
  | .again b => places b
  | .done c => placesOf c

section Loops

variable {n : ℕ} {places : β → List ℕ} {placesOf : γ → List ℕ}

theorem inside_eachMember {closes : Bool} {finish : β → γ}
    {body : List Byte → β → Reading SchemaTable (Pass β γ)}
    (hfinish : ∀ k b, Below k (places b) → Below k (placesOf (finish b)))
    (hbody : ∀ k key b, n ≤ k → Below k (places b) →
      Inside k (body key b) (Pass.places places placesOf))
    (passes : ℕ) {b : β} (h : Below n (places b)) :
    Inside n (eachMember closes finish body passes b) placesOf := by
  induction passes generalizing n b with
  | zero => exact Run.Upholds.unfinished
  | succ passes ih =>
      rw [eachMember]
      apply Plain.after (inside_onCursor _)
      intro k ended hk
      apply Plain.after (inside_onCursor _)
      intro k' closed hk'
      have hb := h.mono (hk.trans hk')
      have hlater : ∀ j key b, k' ≤ j → Below j (places b) →
          Inside j (body key b) (Pass.places places placesOf) :=
        fun j key b hj => hbody j key b ((hk.trans hk').trans hj)
      apply Run.Upholds.ite
      · intro _
        exact Inside.pure (hfinish k' b hb)
      · intro _
        apply Plain.after (inside_onCursor _)
        intro j key hj
        cases key with
        | none =>
            apply Plain.after (plain_moveCursor _)
            intro j' _ hj'
            exact ih (fun i key b hi => hlater i key b ((hj.trans hj').trans hi))
              (hb.mono (hj.trans hj'))
        | some key =>
            apply Plain.after (inside_onCursor _)
            intro j' colon hj'
            apply Run.Upholds.ite
            · intro _
              apply Inside.bind (hlater j' key b (hj.trans hj') (hb.mono (hj.trans hj')))
              intro i next hi hnext
              cases next with
              | again b =>
                  exact ih (fun i' key b hi' => hlater i' key b
                    ((hj.trans hj').trans (hi.trans hi'))) hnext
              | done c => exact Inside.pure hnext
            · intro _
              exact Inside.pure (hfinish j' b (hb.mono (hj.trans hj')))

theorem inside_eachField {closes : Bool} {field : List Byte → β → Reading SchemaTable β}
    (hfield : ∀ k key b, n ≤ k → Below k (places b) → Inside k (field key b) places)
    (passes : ℕ) {b : β} (h : Below n (places b)) :
    Inside n (eachField closes field passes b) places := by
  apply inside_eachMember (fun _ _ hb => hb) _ passes h
  intro k key b hk hb
  apply Inside.bind (hfield k key b hk hb)
  intro k' b hk' hb
  apply Plain.after plain_tryComma
  intro j _ hj
  exact Inside.pure (hb.mono hj)

theorem inside_eachElement {body : β → Reading SchemaTable β}
    (hbody : ∀ k b, n ≤ k → Below k (places b) → Inside k (body b) places) (passes : ℕ) {b : β}
    (h : Below n (places b)) : Inside n (eachElement body passes b) places := by
  induction passes generalizing n b with
  | zero => exact Run.Upholds.unfinished
  | succ passes ih =>
      rw [eachElement]
      apply Plain.after (inside_onCursor _)
      intro k ended hk
      apply Plain.after (inside_onCursor _)
      intro k' closed hk'
      have hb := h.mono (hk.trans hk')
      apply Run.Upholds.ite
      · intro _
        exact Inside.pure hb
      · intro _
        apply Inside.bind (hbody k' b (hk.trans hk') hb)
        intro j b hj hb
        apply Plain.after plain_tryComma
        intro j' _ hj'
        exact ih (fun i b hi => hbody i b (((hk.trans hk').trans (hj.trans hj')).trans hi))
          (hb.mono hj')

theorem plain_stringElements (passes : ℕ) (texts : List (List Byte)) :
    Plain n (stringElements passes texts) := by
  apply inside_eachElement _ passes (below_nil n)
  intro k texts _ _
  apply Plain.after (inside_onCursor _)
  intro k' text _
  cases text with
  | some text => exact Inside.pure (below_nil k')
  | none =>
      apply Plain.after (plain_moveCursor _)
      intro j _ _
      exact Inside.pure (below_nil j)

end Loops

/-! ## Schemas -/

section Schemas

variable {n : ℕ}

/-- An update that adds no pointers. -/
def AddsNone (f : Schema ℕ Float → Schema ℕ Float) : Prop :=
  ∀ s, (f s).pointers ⊆ s.pointers

theorem AddsNone.plain {f : Schema ℕ Float → Schema ℕ Float} (h : AddsNone f) (place : ℕ) :
    Plain n (updateSchema place f) :=
  plain_updateSchema fun _ s _ hs => hs.subset (h s)

theorem addsNone_of_eq {f : Schema ℕ Float → Schema ℕ Float}
    (h : ∀ s, (f s).pointers = s.pointers) : AddsNone f :=
  fun s _ hplace => h s ▸ hplace

theorem inside_ensureSchema (naming : SchemaNaming) (kind : SchemaKind) {result : Option ℕ}
    (h : Below n result.toList) :
    Inside n (ensureSchema naming kind result) fun place => [place] := by
  cases result with
  | none => exact inside_addSchema (by simp [Schema.pointers])
  | some place =>
      apply Plain.after (AddsNone.plain _ place)
      · intro k _ hk
        exact Inside.pure (h.mono hk)
      · apply addsNone_of_eq
        intro s
        split <;> rfl

theorem plain_readInto {read : JsonCursor → Option α × JsonCursor}
    {set : α → Schema ℕ Float → Schema ℕ Float} (h : ∀ a, AddsNone (set a)) (place : ℕ) :
    Plain n (readInto read set place) := by
  apply Plain.after (inside_onCursor _)
  intro k value _
  cases value with
  | some value => exact (h value).plain place
  | none => exact plain_skipValue

theorem inside_readType (naming : SchemaNaming) {result : Option ℕ} (h : Below n result.toList) :
    Inside n (readType naming result) Option.toList := by
  apply Plain.after (inside_onCursor _)
  intro k type hk
  cases type with
  | none =>
      apply Plain.after plain_skipValue
      intro k' _ hk'
      exact Inside.pure (h.mono (hk.trans hk'))
  | some type =>
      apply Plain.after (plain_moveCursor _)
      intro k' _ hk'
      apply Inside.bind (inside_ensureSchema naming _ (h.mono (hk.trans hk')))
      intro j place _ hplace
      apply Plain.after (AddsNone.plain _ place)
      · intro j' _ hj'
        exact Inside.pure (hplace.mono hj')
      · exact addsNone_of_eq fun _ => rfl

theorem inside_readField (naming : SchemaNaming) (kind : SchemaKind) {result : Option ℕ}
    {read : ℕ → Reading SchemaTable Unit} (h : Below n result.toList)
    (hread : ∀ k place, n ≤ k → place < k → Plain k (read place)) :
    Inside n (readField naming kind result read) Option.toList := by
  apply Inside.bind (inside_ensureSchema naming kind h)
  intro k place hk hplace
  apply Plain.after (hread k place hk (below_cons.mp hplace).1)
  intro k' _ hk'
  exact Inside.pure (hplace.mono hk')

theorem inside_readReference {index : Index ℕ} (naming : SchemaNaming) {result : Option ℕ}
    (hindex : Below n (index.places fun place => [place])) (h : Below n result.toList) :
    Inside n (readReference index naming result) fun place => [place] := by
  apply Inside.bind (inside_ensureSchema naming .object h)
  intro k place hk hplace
  apply Plain.after (inside_onCursor _)
  intro k' ref hk'
  cases ref with
  | none =>
      apply Plain.after plain_skipValue
      intro j _ hj
      apply Plain.after (plain_moveCursor _)
      intro j' _ hj'
      exact Inside.pure (hplace.mono ((hk'.trans hj).trans hj'))
  | some ref =>
      apply Plain.after (AddsNone.plain _ place)
      · intro j _ hj
        apply Plain.after (plain_moveCursor _)
        intro j' _ hj'
        apply Inside.pure
        cases hfind : (referenceName schemaPrefix ref).bind index.find with
        | none => exact hplace.mono ((hk'.trans hj).trans hj')
        | some target =>
            rcases Option.bind_eq_some_iff.mp hfind with ⟨name, -, htarget⟩
            exact (Index.below_find hindex htarget).mono (((hk.trans hk').trans hj).trans hj')
      · exact addsNone_of_eq fun _ => rfl

theorem plain_readProperties {schema : Option (List Byte) → Reading SchemaTable (Option ℕ)}
    (hschema : ∀ k name, n ≤ k → Inside k (schema name) Option.toList) (passes place : ℕ) :
    Plain n (readProperties schema passes place) := by
  apply Plain.after (inside_onCursor _)
  intro k opened hk
  apply Run.Upholds.ite
  · intro _
    apply inside_eachField _ passes (below_nil k)
    intro k' name _ hk' _
    apply Inside.bind (hschema k' (some name) (hk.trans hk'))
    intro j child _ hchild
    cases child with
    | some child =>
        apply plain_updateSchema
        intro i s hi hs
        have hbelow := (below_cons.mp hchild).1.trans_le hi
        simp only [Schema.pointers, below_append] at hs ⊢
        simp [hs, hbelow]
    | none => exact plain_skipValue
  · intro _
    exact plain_skipValue

theorem inside_readParts (naming : SchemaNaming) {schema : Reading SchemaTable (Option ℕ)}
    {push : ℕ → Schema ℕ Float → Schema ℕ Float}
    (hschema : ∀ k, n ≤ k → Inside k schema Option.toList)
    (hpush : ∀ k sub s, sub < k → Below k s.pointers → Below k (push sub s).pointers)
    (passes : ℕ) {result : Option ℕ} (h : Below n result.toList) :
    Inside n (readParts naming schema push passes result) Option.toList := by
  apply Plain.after (inside_onCursor _)
  intro k opened hk
  apply Run.Upholds.ite
  · intro _
    apply inside_eachElement _ passes (h.mono hk)
    intro k' result hk' hresult
    apply Inside.bind (hschema k' (hk.trans hk'))
    intro j sub hj hsub
    cases sub with
    | some sub =>
        apply Inside.bind (inside_ensureSchema naming .object (hresult.mono hj))
        intro j' place hj' hplace
        apply Plain.after (plain_updateSchema _)
        · intro i _ hi
          exact Inside.pure (hplace.mono hi)
        · intro i s hi hs
          exact hpush i sub s ((below_cons.mp hsub).1.trans_le (hj'.trans hi)) hs
    | none =>
        apply Plain.after plain_skipValue
        intro j' _ hj'
        exact Inside.pure (hresult.mono (hj.trans hj'))
  · intro _
    apply Plain.after plain_skipValue
    intro k' _ hk'
    exact Inside.pure (h.mono (hk.trans hk'))

theorem plain_readAdditional {object : Reading SchemaTable (Option ℕ)}
    (hobject : ∀ k, n ≤ k → Inside k object Option.toList) (place : ℕ) :
    Plain n (readAdditional object place) := by
  apply Plain.after (inside_onCursor _)
  intro k opened hk
  apply Run.Upholds.ite
  · intro _
    apply Inside.bind (hobject k hk)
    intro k' additional _ hadditional
    apply plain_updateSchema
    intro j s hj hs
    have hbelow := hadditional.mono hj
    simp only [Schema.pointers, below_append] at hs ⊢
    simp [hs, hbelow]
  · intro _
    apply plain_readInto
    intro allowed s place hplace
    cases allowed with
    | true => exact hplace
    | false =>
        simp only [Schema.pointers, List.mem_append] at hplace ⊢
        simp only [Bool.false_eq_true, if_false, Option.toList_none, List.not_mem_nil,
          or_false] at hplace
        tauto

theorem inside_parseSchemaWith {object : SchemaNaming → ℕ → Reading SchemaTable (Option ℕ)}
    (hobject : ∀ k naming depth, n ≤ k → Inside k (object naming depth) Option.toList)
    (depth : ℕ) (parentCtx fieldCtx : Option (List Byte)) :
    Inside n (parseSchemaWith object depth parentCtx fieldCtx) Option.toList := by
  apply Plain.after (plain_moveCursor _)
  intro k _ hk
  apply Plain.after (inside_onCursor _)
  intro k' c hk'
  cases c with
  | none => exact Inside.pure (below_nil k')
  | some c =>
      apply Run.Upholds.ite
      · intro _
        exact Inside.pure (below_nil k')
      · intro _
        apply Run.Upholds.ite
        · intro _
          exact hobject k' _ depth (hk.trans hk')
        · intro _
          apply Plain.after plain_skipValue
          intro j _ _
          exact Inside.pure (below_nil j)

section Fields

variable (naming : SchemaNaming) (kind : SchemaKind) {result : Option ℕ}
  (h : Below n result.toList)

include h

theorem inside_valueField {read : JsonCursor → Option α × JsonCursor}
    {set : α → Schema ℕ Float → Schema ℕ Float}
    (hset : ∀ a s, (set a s).pointers = s.pointers) :
    Inside n (readField naming kind result (readInto read set)) Option.toList :=
  inside_readField naming kind h fun _ place _ _ =>
    plain_readInto (fun a => addsNone_of_eq (hset a)) place

/-- A text that is read behind the schema is made sure of. -/
theorem inside_textField {set : List Byte → Schema ℕ Float → Schema ℕ Float}
    (hset : ∀ text s, (set text s).pointers = s.pointers) :
    Inside n (readField naming kind result fun place => do
      let text ← rawText
      updateSchema place (set text)) Option.toList := by
  apply inside_readField naming kind h
  intro k place _ _
  apply Plain.after plain_rawText
  intro k' text _
  exact (addsNone_of_eq (hset text)).plain place

/-- A text that has been read. -/
theorem inside_givenField {set : Schema ℕ Float → Schema ℕ Float}
    (hset : ∀ s, (set s).pointers = s.pointers) :
    Inside n (readField naming kind result fun place => updateSchema place set)
      Option.toList :=
  inside_readField naming kind h fun _ place _ _ => (addsNone_of_eq hset).plain place

theorem inside_skippedField :
    Inside n (do
      skipValue
      pure result : Reading SchemaTable (Option ℕ)) Option.toList := by
  apply Plain.after plain_skipValue
  intro k _ hk
  exact Inside.pure (h.mono hk)

end Fields

theorem inside_schemaField {object : SchemaNaming → ℕ → Reading SchemaTable (Option ℕ)}
    (hobject : ∀ k naming depth, n ≤ k → Inside k (object naming depth) Option.toList)
    (naming : SchemaNaming) (depth passes : ℕ) (key : List Byte) {result : Option ℕ}
    (h : Below n result.toList) :
    Inside n (schemaField object naming depth passes key result) Option.toList := by
  have hschema : ∀ k fieldCtx, n ≤ k →
      Inside k (parseSchemaWith object (depth + 1) naming.parent fieldCtx) Option.toList := by
    intro k fieldCtx hk
    exact inside_parseSchemaWith (fun j naming depth hj => hobject j naming depth (hk.trans hj))
      _ _ _
  have hparts : ∀ push : ℕ → Schema ℕ Float → Schema ℕ Float,
      (∀ k sub s, sub < k → Below k s.pointers → Below k (push sub s).pointers) →
      Inside n (readParts naming (parseSchemaWith object (depth + 1) naming.parent none) push
        passes result) Option.toList :=
    fun push hpush => inside_readParts naming (fun k hk => hschema k none hk) hpush passes h
  unfold schemaField
  refine Run.Upholds.ite (fun _ => inside_readType naming h) fun _ => ?_
  refine Run.Upholds.ite (fun _ => ?format) fun _ => ?_
  case format =>
    apply Plain.after (inside_onCursor _)
    intro k text hk
    cases text with
    | some text => exact inside_givenField naming .string (h.mono hk) fun _ => rfl
    | none => exact inside_skippedField (h.mono hk)
  refine Run.Upholds.ite (fun _ => ?description) fun _ => ?_
  case description =>
    apply Plain.after plain_rawText
    intro k text hk
    exact inside_givenField naming .object (h.mono hk) fun _ => rfl
  refine Run.Upholds.ite (fun _ => inside_textField naming .object h fun _ _ => rfl) fun _ => ?_
  refine Run.Upholds.ite (fun _ => inside_textField naming .string h fun _ _ => rfl) fun _ => ?_
  refine Run.Upholds.ite (fun _ => inside_valueField naming .object h fun _ _ => rfl) fun _ => ?_
  refine Run.Upholds.ite (fun _ => inside_valueField naming .object h fun _ _ => rfl) fun _ => ?_
  refine Run.Upholds.ite (fun _ => ?enumeration) fun _ => ?_
  case enumeration =>
    apply inside_readField naming .string h
    intro k place _ _
    apply Plain.after (inside_onCursor _)
    intro k' opened _
    apply Run.Upholds.ite
    · intro _
      apply Plain.after (plain_stringElements passes [])
      intro j texts _
      apply AddsNone.plain
      exact addsNone_of_eq fun _ => rfl
    · intro _
      exact plain_skipValue
  refine Run.Upholds.ite (fun _ => inside_valueField naming .string h fun _ _ => rfl) fun _ => ?_
  refine Run.Upholds.ite (fun _ => inside_valueField naming .string h fun _ _ => rfl) fun _ => ?_
  refine Run.Upholds.ite (fun _ => inside_valueField naming .number h fun _ _ => rfl) fun _ => ?_
  refine Run.Upholds.ite (fun _ => inside_valueField naming .number h fun _ _ => rfl) fun _ => ?_
  refine Run.Upholds.ite (fun _ => inside_valueField naming .number h fun _ _ => rfl) fun _ => ?_
  refine Run.Upholds.ite (fun _ => inside_valueField naming .number h fun _ _ => rfl) fun _ => ?_
  refine Run.Upholds.ite (fun _ => inside_valueField naming .number h fun _ _ => rfl) fun _ => ?_
  refine Run.Upholds.ite (fun _ => inside_valueField naming .array h fun _ _ => rfl) fun _ => ?_
  refine Run.Upholds.ite (fun _ => inside_valueField naming .array h fun _ _ => rfl) fun _ => ?_
  refine Run.Upholds.ite (fun _ => inside_valueField naming .array h fun _ _ => rfl) fun _ => ?_
  refine Run.Upholds.ite (fun _ => ?items) fun _ => ?_
  case items =>
    apply inside_readField naming .array h
    intro k place hk _
    apply Inside.bind (hschema k _ hk)
    intro k' items _ hitems
    apply plain_updateSchema
    intro j s hj hs
    have hbelow := hitems.mono hj
    simp only [Schema.pointers, below_append] at hs ⊢
    simp [hs, hbelow]
  refine Run.Upholds.ite (fun _ => ?properties) fun _ => ?_
  case properties =>
    apply inside_readField naming .object h
    intro k place hk _
    exact plain_readProperties (fun j name hj => hschema j name (hk.trans hj)) passes place
  refine Run.Upholds.ite (fun _ => hparts _ ?_) fun _ => ?_
  · intro k sub s hsub hs
    simp only [Schema.pointers, below_append] at hs ⊢
    simp [hs, hsub]
  refine Run.Upholds.ite (fun _ => hparts _ ?_) fun _ => ?_
  · intro k sub s hsub hs
    simp only [Schema.pointers, below_append] at hs ⊢
    simp [hs, hsub]
  refine Run.Upholds.ite (fun _ => hparts _ ?_) fun _ => ?_
  · intro k sub s hsub hs
    simp only [Schema.pointers, below_append] at hs ⊢
    simp [hs, hsub]
  refine Run.Upholds.ite (fun _ => ?additional) fun _ => ?_
  case additional =>
    apply inside_readField naming .object h
    intro k place hk _
    exact plain_readAdditional (fun j hj => hobject j _ _ (hk.trans hj)) place
  exact Run.Upholds.ite (fun _ => inside_textField naming .object h fun _ _ => rfl) fun _ =>
    inside_skippedField h

def SchemaEnd.places : SchemaEnd → List ℕ
  | .reference place => [place]
  | .members locals => locals.result.toList

theorem plain_readRequired (passes : ℕ) (names : List (List Byte)) :
    Plain n (readRequired passes names) := by
  apply Plain.after (inside_onCursor _)
  intro k opened _
  apply Run.Upholds.ite
  · intro _
    exact plain_stringElements passes names
  · intro _
    apply Plain.after plain_skipValue
    intro k' _ _
    exact Inside.pure (below_nil k')

theorem inside_schemaMember {object : SchemaNaming → ℕ → Reading SchemaTable (Option ℕ)}
    {index : Index ℕ}
    (hobject : ∀ k naming depth, n ≤ k → Inside k (object naming depth) Option.toList)
    (hindex : Below n (index.places fun place => [place])) (naming : SchemaNaming)
    (depth passes : ℕ) (key : List Byte) {locals : SchemaLocals}
    (h : Below n locals.result.toList) :
    Inside n (schemaMember object index naming depth passes key locals)
      (Pass.places (fun l : SchemaLocals => l.result.toList) SchemaEnd.places) := by
  apply Run.Upholds.ite
  · intro _
    apply Inside.bind (inside_readReference naming hindex h)
    intro k place _ hplace
    exact Inside.pure hplace
  · intro _
    apply Run.Upholds.ite
    · intro _
      apply Plain.after (plain_readRequired passes _)
      intro k names hk
      apply Plain.after plain_tryComma
      intro k' _ hk'
      exact Inside.pure (h.mono (hk.trans hk'))
    · intro _
      apply Inside.bind (inside_schemaField hobject naming depth passes key h)
      intro k result _ hresult
      apply Plain.after plain_tryComma
      intro k' _ hk'
      exact Inside.pure (hresult.mono hk')

theorem pointers_requireNames (names : List (List Byte)) (s : Schema ℕ Float) :
    (requireNames names s).pointers = s.pointers := by
  have htypes : (s.properties.map fun prop =>
      if prop.name ∈ names then { prop with required := true } else prop).filterMap (·.type) =
        s.properties.filterMap (·.type) := by
    rw [List.filterMap_map]
    congr 1
    funext prop
    simp only [Function.comp_apply]
    split <;> rfl
  simp only [requireNames, Schema.pointers, htypes]

theorem inside_parseSchemaObject {index : Index ℕ} (passes : ℕ) (naming : SchemaNaming)
    (depth : ℕ) (hindex : Below n (index.places fun place => [place])) :
    Inside n (parseSchemaObject index passes naming depth : Reading SchemaTable _)
      Option.toList := by
  have hfinish : ∀ (k : ℕ) (l : SchemaLocals), Below k l.result.toList →
      Below k (SchemaEnd.members l).places := fun _ _ hl => hl
  induction passes generalizing n naming depth with
  | zero => exact Run.Upholds.unfinished
  | succ passes ih =>
      rw [parseSchemaObject]
      apply Run.Upholds.ite
      · intro _
        exact inside_skippedField (below_nil n)
      · intro _
        apply Plain.after (inside_onCursor _)
        intro k opened hk
        apply Run.Upholds.ite
        · intro _
          apply Inside.bind (inside_eachMember hfinish _ passes (below_nil k))
          · intro k' ended _ hended
            cases ended with
            | reference place => exact Inside.pure hended
            | members locals =>
                apply Inside.bind (inside_ensureSchema naming .object hended)
                intro j place _ hplace
                apply Plain.after (AddsNone.plain _ place)
                · intro j' _ hj'
                  exact Inside.pure (hplace.mono hj')
                · exact addsNone_of_eq (pointers_requireNames _)
          · intro k' key locals hk' hlocals
            apply inside_schemaMember _ _ naming depth passes key hlocals
            · intro j naming depth hj
              exact ih naming depth (hindex.mono ((hk.trans hk').trans hj))
            · exact hindex.mono (hk.trans hk')
        · intro _
          exact inside_skippedField (below_nil k)

theorem inside_parseSchema {index : Index ℕ} (passes depth : ℕ)
    (parentCtx fieldCtx : Option (List Byte))
    (hindex : Below n (index.places fun place => [place])) :
    Inside n (parseSchema index passes depth parentCtx fieldCtx : Reading SchemaTable _)
      Option.toList :=
  inside_parseSchemaWith (fun _ naming depth hk =>
    inside_parseSchemaObject passes naming depth (hindex.mono hk)) depth parentCtx fieldCtx

end Schemas

end OpenApi
end Katana
