import Katana.OpenApi.Places

/-!
# Places of a loaded document

The readers of operations and of the components hand on places of the table only, the
passes over the table keep it closed, and so a document that is loaded is closed.
-/

namespace Katana
namespace OpenApi

open Library
open Http (Byte bytesOf)
open Serde (Build JsonCursor parseBool)

variable {α : Type} {n : ℕ}

def optionPlaces (places : α → List ℕ) (a : Option α) : List ℕ :=
  a.toList.flatMap places

theorem below_option {k : ℕ} {places : α → List ℕ} {a : α} :
    Below k (optionPlaces places (some a)) ↔ Below k (places a) := by
  simp [optionPlaces]

namespace Components

variable {components : Components} (h : Below n components.places)

include h

theorem below_schemas : Below n (components.schemas.places fun place => [place]) := by
  simp only [places, below_append] at h
  exact h.1.1.1

theorem below_parameters : Below n (components.parameters.places Parameter.places) := by
  simp only [places, below_append] at h
  exact h.1.1.2

theorem below_responses : Below n (components.responses.places Response.places) := by
  simp only [places, below_append] at h
  exact h.1.2

theorem below_requestBodies : Below n (components.requestBodies.places RequestBody.places) := by
  simp only [places, below_append] at h
  exact h.2

end Components

/-- What a reference finds. -/
theorem Index.below_reference {k : ℕ} {places : α → List ℕ} {index : Index α}
    (h : Below k (index.places places)) {name : Option (List Byte)} {a : α}
    (hfind : name.bind index.find = some a) : Below k (places a) := by
  rcases Option.bind_eq_some_iff.mp hfind with ⟨text, -, htext⟩
  exact Index.below_find h htext

/-! ## Parameters -/

def ParameterLocals.places (l : ParameterLocals) : List ℕ :=
  l.param.places

theorem ParameterLocals.below_finish {k : ℕ} {l : ParameterLocals} (h : Below k l.places) :
    Below k (optionPlaces Parameter.places l.finish) := by
  unfold ParameterLocals.finish
  split
  · exact below_nil k
  · split
    · exact below_option.mpr h
    · exact below_option.mpr h

section Readers

variable {components : Components}

theorem inside_parameterField (hcomponents : Below n components.places) (passes : ℕ)
    (key : List Byte) {l : ParameterLocals} (h : Below n l.places) :
    Inside n (parameterField components passes key l : Reading SchemaTable _)
      ParameterLocals.places := by
  unfold parameterField
  have hskipped : ∀ k, n ≤ k → Inside k (do
      skipValue
      pure l : Reading SchemaTable ParameterLocals) ParameterLocals.places := by
    intro k hk
    apply Plain.after plain_skipValue
    intro k' _ hk'
    exact Inside.pure (h.mono (hk.trans hk'))
  refine Run.Upholds.ite (fun _ => ?name) fun _ => ?_
  case name =>
    apply Plain.after (inside_onCursor _)
    intro k text hk
    cases text with
    | some text => exact Inside.pure (h.mono hk)
    | none => exact Inside.pure (h.mono hk)
  refine Run.Upholds.ite (fun _ => ?location) fun _ => ?_
  case location =>
    apply Plain.after (inside_onCursor _)
    intro k text hk
    cases text.bind paramLocationFromString with
    | some location => exact Inside.pure (h.mono hk)
    | none => exact Inside.pure (h.mono hk)
  refine Run.Upholds.ite (fun _ => ?required) fun _ => ?_
  case required =>
    apply Plain.after (inside_onCursor _)
    intro k v hk
    cases v with
    | some v => exact Inside.pure (h.mono hk)
    | none => exact hskipped k hk
  refine Run.Upholds.ite (fun _ => ?schema) fun _ => ?_
  case schema =>
    apply Inside.bind (inside_parseSchema passes 0 _ none (Components.below_schemas hcomponents))
    intro k type _ htype
    exact Inside.pure htype
  refine Run.Upholds.ite (fun _ => ?description) fun _ => ?_
  case description =>
    apply Plain.after plain_rawText
    intro k text hk
    exact Inside.pure (h.mono hk)
  refine Run.Upholds.ite (fun _ => ?style) fun _ => ?_
  case style =>
    apply Plain.after (inside_onCursor _)
    intro k text hk
    cases text with
    | some text => exact Inside.pure (h.mono hk)
    | none => exact Inside.pure (h.mono hk)
  refine Run.Upholds.ite (fun _ => ?explode) fun _ => hskipped n le_rfl
  case explode =>
    apply Plain.after (inside_onCursor _)
    intro k v hk
    cases v with
    | some v => exact Inside.pure (h.mono hk)
    | none => exact hskipped k hk

theorem inside_parameterMember (hcomponents : Below n components.places) (passes : ℕ)
    (key : List Byte) {l : ParameterLocals} (h : Below n l.places) :
    Inside n (parameterMember components passes key l : Reading SchemaTable _)
      (Pass.places ParameterLocals.places (optionPlaces Parameter.places)) := by
  have hagain : ∀ k, n ≤ k → Inside k (do
      tryComma
      pure (.again l) : Reading SchemaTable (Pass ParameterLocals (Option Parameter)))
      (Pass.places ParameterLocals.places (optionPlaces Parameter.places)) := by
    intro k hk
    apply Plain.after plain_tryComma
    intro k' _ hk'
    exact Inside.pure (h.mono (hk.trans hk'))
  apply Run.Upholds.ite
  · intro _
    apply Plain.after (inside_onCursor _)
    intro k ref hk
    cases ref with
    | none =>
        apply Plain.after plain_skipValue
        intro k' _ hk'
        exact hagain k' (hk.trans hk')
    | some ref =>
        cases hfind : (referenceName parameterPrefix ref).bind components.parameters.find with
        | none => simpa only [hfind] using hagain k hk
        | some param =>
            simp only [hfind]
            apply Inside.pure
            exact below_option.mpr
              ((Index.below_reference (Components.below_parameters hcomponents) hfind).mono hk)
  · intro _
    apply Inside.bind (inside_parameterField hcomponents passes key h)
    intro k l _ hl
    apply Plain.after plain_tryComma
    intro k' _ hk'
    exact Inside.pure (hl.mono hk')

theorem inside_parseParameterObject (hcomponents : Below n components.places) (passes : ℕ) :
    Inside n (parseParameterObject components passes : Reading SchemaTable _)
      (optionPlaces Parameter.places) := by
  apply inside_eachMember (fun _ _ hl => ParameterLocals.below_finish hl) _ passes (below_nil n)
  intro k key l hk hl
  exact inside_parameterMember (hcomponents.mono hk) passes key hl

theorem below_addParameter {k : ℕ} {params : List Parameter} {param : Option Parameter}
    (h : Below k (params.flatMap Parameter.places))
    (hparam : Below k (optionPlaces Parameter.places param)) :
    Below k ((params ++ param.toList).flatMap Parameter.places) := by
  rw [List.flatMap_append]
  exact below_append.mpr ⟨h, hparam⟩

theorem inside_readParameters (hcomponents : Below n components.places) (passes : ℕ)
    {params : List Parameter} (h : Below n (params.flatMap Parameter.places)) :
    Inside n (readParameters components passes params : Reading SchemaTable _)
      fun params => params.flatMap Parameter.places := by
  apply Plain.after (inside_onCursor _)
  intro k opened hk
  apply Run.Upholds.ite
  · intro _
    apply inside_eachElement _ passes (h.mono hk)
    intro k' params hk' hparams
    apply Plain.after (inside_onCursor _)
    intro j opened hj
    apply Run.Upholds.ite
    · intro _
      have hlevel := (hk.trans hk').trans hj
      apply Inside.bind (inside_parseParameterObject (hcomponents.mono hlevel) passes)
      intro j' param hj' hparam
      exact Inside.pure (below_addParameter (hparams.mono (hj.trans hj')) hparam)
    · intro _
      apply Plain.after plain_skipValue
      intro j' _ hj'
      exact Inside.pure (hparams.mono (hj.trans hj'))
  · intro _
    apply Plain.after plain_skipValue
    intro k' _ hk'
    exact Inside.pure (h.mono (hk.trans hk'))

/-! ## Content -/

theorem inside_readMediaType (hcomponents : Below n components.places) (passes : ℕ) :
    Inside n (readMediaType components passes : Reading SchemaTable _) Option.toList := by
  apply Plain.after (inside_onCursor _)
  intro k opened hk
  apply Run.Upholds.ite
  · intro _
    apply inside_eachField _ passes (below_nil k)
    intro k' key type hk' htype
    apply Run.Upholds.ite
    · intro _
      apply inside_parseSchema
      exact Components.below_schemas (hcomponents.mono (hk.trans hk'))
    · intro _
      exact inside_skippedField htype
  · intro _
    exact inside_skippedField (below_nil k)

theorem inside_readContent (hcomponents : Below n components.places) (passes : ℕ)
    {content : List MediaType} (h : Below n (contentPlaces content)) :
    Inside n (readContent components passes content : Reading SchemaTable _) contentPlaces := by
  apply Plain.after (inside_onCursor _)
  intro k opened hk
  apply Run.Upholds.ite
  · intro _
    apply inside_eachField _ passes (h.mono hk)
    intro k' contentType content hk' hcontent
    apply Inside.bind (inside_readMediaType (hcomponents.mono (hk.trans hk')) passes)
    intro j type hj htype
    apply Inside.pure
    have hcontent' := hcontent.mono hj
    cases type with
    | none => simpa [contentPlaces] using hcontent'
    | some place =>
        rw [contentPlaces, List.filterMap_append, below_append]
        exact ⟨hcontent', htype⟩
  · intro _
    apply Plain.after plain_skipValue
    intro k' _ hk'
    exact Inside.pure (h.mono (hk.trans hk'))

/-! ## Responses and request bodies -/

def formPlaces (r : ResponseForm × Response) : List ℕ :=
  r.2.places

theorem inside_responseMember (hcomponents : Below n components.places) (passes : ℕ)
    (status : ℤ) (key : List Byte) {resp : Response} (h : Below n resp.places) :
    Inside n (responseMember components passes status key resp : Reading SchemaTable _)
      (Pass.places Response.places formPlaces) := by
  have hagain : ∀ (k : ℕ) (resp : Response), Below k resp.places → Inside k (do
      tryComma
      pure (.again resp) : Reading SchemaTable (Pass Response (ResponseForm × Response)))
      (Pass.places Response.places formPlaces) := by
    intro k resp hresp
    apply Plain.after plain_tryComma
    intro k' _ hk'
    exact Inside.pure (hresp.mono hk')
  apply Run.Upholds.ite
  · intro _
    apply Plain.after (inside_onCursor _)
    intro k ref hk
    cases ref with
    | none =>
        apply Plain.after plain_skipValue
        intro k' _ hk'
        exact hagain k' resp (h.mono (hk.trans hk'))
    | some ref =>
        cases hfind : (referenceName responsePrefix ref).bind components.responses.find with
        | none => simpa only [hfind] using hagain k resp (h.mono hk)
        | some stored =>
            simp only [hfind]
            have hstored := Index.below_reference (Components.below_responses hcomponents) hfind
            apply Plain.after (plain_moveCursor _)
            intro k' _ hk'
            exact Inside.pure (hstored.mono (hk.trans hk'))
  · intro _
    apply Run.Upholds.ite
    · intro _
      apply Plain.after plain_rawText
      intro k text hk
      exact hagain k { resp with description := text } (h.mono hk)
    · intro _
      apply Run.Upholds.ite
      · intro _
        apply Inside.bind (inside_readContent hcomponents passes h)
        intro k content _ hcontent
        exact hagain k { resp with content := content } hcontent
      · intro _
        apply Plain.after plain_skipValue
        intro k _ hk
        exact hagain k resp (h.mono hk)

theorem inside_parseResponseObject (hcomponents : Below n components.places) (passes : ℕ)
    (status : ℤ) (isDefault : Bool) :
    Inside n (parseResponseObject components passes status isDefault : Reading SchemaTable _)
      (optionPlaces formPlaces) := by
  have hfinish : ∀ (k : ℕ) (resp : Response), Below k resp.places →
      Below k (formPlaces (ResponseForm.inline, resp)) := fun _ _ hresp => hresp
  apply Plain.after (inside_onCursor _)
  intro k opened hk
  apply Run.Upholds.ite
  · intro _
    apply Inside.bind (inside_eachMember hfinish _ passes (below_nil k))
    · intro k' resp _ hresp
      exact Inside.pure (below_option.mpr hresp)
    · intro k' key resp hk' hresp
      exact inside_responseMember (hcomponents.mono (hk.trans hk')) passes status key hresp
  · intro _
    apply Plain.after plain_skipValue
    intro k' _ _
    exact Inside.pure (below_nil k')

def membersPlaces (members : List ResponseMember) : List ℕ :=
  members.flatMap ResponseMember.places

theorem below_addMember {k : ℕ} {members : List ResponseMember} {member : ResponseMember}
    (h : Below k (membersPlaces members)) (hmember : Below k member.places) :
    Below k (membersPlaces (members ++ [member])) := by
  rw [membersPlaces, List.flatMap_append, below_append, List.flatMap_singleton]
  exact ⟨h, hmember⟩

theorem inside_responsesField (hcomponents : Below n components.places) (passes : ℕ)
    (key : List Byte) {members : List ResponseMember} (h : Below n (membersPlaces members)) :
    Inside n (responsesField components passes key members : Reading SchemaTable _)
      membersPlaces := by
  apply Plain.after (inside_onCursor _)
  intro k isObject hk
  cases statusOf key with
  | none =>
      apply Plain.after plain_skipValue
      intro k' _ hk'
      exact Inside.pure (below_addMember (h.mono (hk.trans hk')) (below_nil k'))
  | some status =>
      apply Inside.bind (inside_parseResponseObject (hcomponents.mono hk) passes _ _)
      intro k' resp hk' hresp
      cases resp with
      | some resp =>
          apply Inside.pure
          exact below_addMember (h.mono (hk.trans hk')) hresp
      | none =>
          apply Plain.after plain_skipValue
          intro j _ hj
          exact Inside.pure (below_addMember (h.mono ((hk.trans hk').trans hj)) (below_nil j))

theorem inside_parseResponses (hcomponents : Below n components.places) (passes : ℕ)
    {members : List ResponseMember} (h : Below n (membersPlaces members)) :
    Inside n (parseResponses components passes members : Reading SchemaTable _)
      membersPlaces := by
  apply Plain.after (inside_onCursor _)
  intro k opened hk
  apply Run.Upholds.ite
  · intro _
    apply inside_eachField _ passes (h.mono hk)
    intro k' key members hk' hmembers
    exact inside_responsesField (hcomponents.mono (hk.trans hk')) passes key hmembers
  · intro _
    apply Plain.after plain_skipValue
    intro k' _ hk'
    exact Inside.pure (h.mono (hk.trans hk'))

theorem inside_requestBodyField (hcomponents : Below n components.places) (passes : ℕ)
    (key : List Byte) {body : Option RequestBody}
    (h : Below n (optionPlaces RequestBody.places body)) :
    Inside n (requestBodyField components passes key body : Reading SchemaTable _)
      (optionPlaces RequestBody.places) := by
  have hallocated : Below n (body.getD {}).places := by
    cases body with
    | none => exact below_nil n
    | some body => exact below_option.mp h
  apply Run.Upholds.ite
  · intro _
    apply Plain.after plain_rawText
    intro k text hk
    exact Inside.pure (below_option.mpr (hallocated.mono hk))
  · intro _
    apply Run.Upholds.ite
    · intro _
      apply Inside.bind (inside_readContent hcomponents passes hallocated)
      intro k content _ hcontent
      exact Inside.pure (below_option.mpr hcontent)
    · intro _
      apply Plain.after plain_skipValue
      intro k _ hk
      exact Inside.pure (h.mono hk)

theorem inside_parseRequestBody (hcomponents : Below n components.places) (passes : ℕ) :
    Inside n (parseRequestBody components passes : Reading SchemaTable _)
      (optionPlaces RequestBody.places) := by
  apply Plain.after (plain_moveCursor _)
  intro k _ hk
  apply Plain.after (inside_onCursor _)
  intro k' c hk'
  have hlevel := hk.trans hk'
  cases c with
  | none => exact Inside.pure (below_nil k')
  | some c =>
      apply Run.Upholds.ite
      · intro _
        apply Plain.after (inside_onCursor _)
        intro j ref hj
        apply Inside.pure
        cases hfind : (ref.bind (referenceName requestBodyPrefix)).bind
            components.requestBodies.find with
        | none => exact below_nil j
        | some body =>
            have hbody := Index.below_reference (Components.below_requestBodies hcomponents) hfind
            exact below_option.mpr (hbody.mono (hlevel.trans hj))
      · intro _
        apply Plain.after (inside_onCursor _)
        intro j opened hj
        apply Run.Upholds.ite
        · intro _
          apply inside_eachField _ passes (below_nil j)
          intro j' key body hj' hbody
          exact inside_requestBodyField (hcomponents.mono ((hlevel.trans hj).trans hj')) passes
            key hbody
        · intro _
          apply Plain.after plain_skipValue
          intro j' _ _
          exact Inside.pure (below_nil j')

/-! ## Operations -/

theorem inside_readText {set : List Byte → Operation → Operation}
    (hset : ∀ text op, (set text op).places = op.places) {op : Operation}
    (h : Below n op.places) : Inside n (readText set op) Operation.places := by
  apply Plain.after (inside_onCursor _)
  intro k text hk
  cases text with
  | some text =>
      apply Inside.pure
      rw [hset]
      exact h.mono hk
  | none => exact Inside.pure (h.mono hk)

theorem inside_skippedOperation {op : Operation} (h : Below n op.places) :
    Inside n (do
      skipValue
      pure op : Reading SchemaTable Operation) Operation.places := by
  apply Plain.after plain_skipValue
  intro k _ hk
  exact Inside.pure (h.mono hk)

theorem inside_readCache {op : Operation} (h : Below n op.places) :
    Inside n (readCache op : Reading SchemaTable _) Operation.places := by
  apply Plain.after (inside_onCursor _)
  intro k text hk
  cases text with
  | some text => exact Inside.pure (h.mono hk)
  | none =>
      apply Plain.after (inside_onCursor _)
      intro k' v hk'
      cases v with
      | some v => exact Inside.pure (h.mono (hk.trans hk'))
      | none => exact inside_skippedOperation (h.mono (hk.trans hk'))

theorem inside_operationField (hcomponents : Below n components.places) (passes : ℕ)
    (key : List Byte) {op : Operation} (h : Below n op.places) :
    Inside n (operationField components passes key op : Reading SchemaTable _)
      Operation.places := by
  have hparts := h
  simp only [Operation.places, below_append] at hparts
  rcases hparts with ⟨⟨hparameters, hbody⟩, hmembers⟩
  unfold operationField
  refine Run.Upholds.ite (fun _ => ?operationId) fun _ => ?_
  case operationId => exact inside_readText (fun _ _ => by rfl) h
  refine Run.Upholds.ite (fun _ => ?summary) fun _ => ?_
  case summary => exact inside_readText (fun _ _ => by rfl) h
  refine Run.Upholds.ite (fun _ => ?parameters) fun _ => ?_
  case parameters =>
    apply Inside.bind (inside_readParameters hcomponents passes hparameters)
    intro k parameters hk hread
    apply Inside.pure
    simp only [Operation.places, below_append]
    exact ⟨⟨hread, hbody.mono hk⟩, hmembers.mono hk⟩
  refine Run.Upholds.ite (fun _ => ?responses) fun _ => ?_
  case responses =>
    apply Inside.bind (inside_parseResponses hcomponents passes hmembers)
    intro k members hk hread
    apply Inside.pure
    simp only [Operation.places, below_append]
    exact ⟨⟨hparameters.mono hk, hbody.mono hk⟩, hread⟩
  refine Run.Upholds.ite (fun _ => ?requestBody) fun _ => ?_
  case requestBody =>
    apply Inside.bind (inside_parseRequestBody hcomponents passes)
    intro k body hk hread
    apply Inside.pure
    simp only [Operation.places, below_append]
    exact ⟨⟨hparameters.mono hk, hread⟩, hmembers.mono hk⟩
  refine Run.Upholds.ite (fun _ => inside_readCache h) fun _ => ?_
  refine Run.Upholds.ite (fun _ => ?alloc) fun _ => ?_
  case alloc =>
    apply Plain.after plain_rawText
    intro k text hk
    exact Inside.pure (h.mono hk)
  refine Run.Upholds.ite (fun _ => ?rateLimit) fun _ => inside_skippedOperation h
  case rateLimit =>
    apply Plain.after (inside_onCursor _)
    intro k text hk
    cases text with
    | some text => exact Inside.pure (h.mono hk)
    | none => exact inside_skippedOperation (h.mono hk)

theorem inside_parseOperationObject (hcomponents : Below n components.places) (passes : ℕ)
    {op : Operation} (h : Below n op.places) :
    Inside n (parseOperationObject components passes op : Reading SchemaTable _)
      Operation.places := by
  apply Plain.after (inside_onCursor _)
  intro k opened hk
  apply Run.Upholds.ite
  · intro _
    apply inside_eachField _ passes (h.mono hk)
    intro k' key op hk' hop
    exact inside_operationField (hcomponents.mono (hk.trans hk')) passes key hop
  · intro _
    exact inside_skippedOperation (h.mono hk)

end Readers

/-! ## Components -/

section Sections

variable {components : Components}

theorem inside_skippedComponents (h : Below n components.places) :
    Inside n (do
      skipValue
      pure components : Reading SchemaTable Components) Components.places := by
  apply Plain.after plain_skipValue
  intro k _ hk
  exact Inside.pure (h.mono hk)

theorem inside_componentSection {member : List Byte → Components → Reading SchemaTable Components}
    (hmember : ∀ k name components, Below k components.places →
      Inside k (member name components) Components.places)
    (passes : ℕ) (h : Below n components.places) :
    Inside n (componentSection member passes components) Components.places := by
  apply Plain.after (inside_onCursor _)
  intro k opened hk
  apply Run.Upholds.ite
  · intro _
    apply inside_eachField _ passes (h.mono hk)
    intro k' name components _ hcomponents
    exact hmember k' name components hcomponents
  · intro _
    exact inside_skippedComponents (h.mono hk)

theorem inside_schemaComponent (passes : ℕ) (name : List Byte) (h : Below n components.places) :
    Inside n (schemaComponent passes name components : Reading SchemaTable _)
      Components.places := by
  apply Inside.bind (inside_parseSchemaObject passes _ 1 (Components.below_schemas h))
  intro k place hk hplace
  have hcomponents := h.mono hk
  cases place with
  | none => exact inside_skippedComponents hcomponents
  | some place =>
      apply Inside.pure
      have hindex : Below k ((indexSchema components.schemas name place).places
          fun place => [place]) := by
        unfold indexSchema
        split
        · exact Components.below_schemas hcomponents
        · exact Index.below_emplace (Components.below_schemas hcomponents) hplace name
      simp only [Components.places, below_append]
      exact ⟨⟨⟨hindex, Components.below_parameters hcomponents⟩,
        Components.below_responses hcomponents⟩, Components.below_requestBodies hcomponents⟩

theorem inside_parameterComponent (passes : ℕ) (name : List Byte)
    (h : Below n components.places) :
    Inside n (parameterComponent passes name components : Reading SchemaTable _)
      Components.places := by
  apply Plain.after (inside_onCursor _)
  intro k opened hk
  apply Run.Upholds.ite
  · intro _
    apply Inside.bind (inside_parseParameterObject (h.mono hk) passes)
    intro k' param hk' hparam
    have hcomponents := h.mono (hk.trans hk')
    cases param with
    | none => exact inside_skippedComponents hcomponents
    | some param =>
        apply Inside.pure
        have hindex := Index.below_emplace (Components.below_parameters hcomponents)
          (below_option.mp hparam) param.name
        simp only [Components.places, below_append]
        exact ⟨⟨⟨Components.below_schemas hcomponents, hindex⟩,
          Components.below_responses hcomponents⟩, Components.below_requestBodies hcomponents⟩
  · intro _
    exact inside_skippedComponents (h.mono hk)

theorem inside_responseComponent (passes : ℕ) (name : List Byte) (h : Below n components.places) :
    Inside n (responseComponent passes name components : Reading SchemaTable _)
      Components.places := by
  apply Inside.bind (inside_parseResponseObject h passes 0 false)
  intro k resp hk hresp
  have hcomponents := h.mono hk
  cases resp with
  | none => exact inside_skippedComponents hcomponents
  | some resp =>
      apply Inside.pure
      have hindex := Index.below_emplace (Components.below_responses hcomponents)
        (below_option.mp hresp) name
      simp only [Components.places, below_append]
      exact ⟨⟨⟨Components.below_schemas hcomponents, Components.below_parameters hcomponents⟩,
        hindex⟩, Components.below_requestBodies hcomponents⟩

theorem inside_requestBodyComponent (passes : ℕ) (name : List Byte)
    (h : Below n components.places) :
    Inside n (requestBodyComponent passes name components : Reading SchemaTable _)
      Components.places := by
  apply Inside.bind (inside_parseRequestBody h passes)
  intro k body hk hbody
  have hcomponents := h.mono hk
  cases body with
  | none => exact inside_skippedComponents hcomponents
  | some body =>
      apply Inside.pure
      have hindex := Index.below_emplace (Components.below_requestBodies hcomponents)
        (below_option.mp hbody) name
      simp only [Components.places, below_append]
      exact ⟨⟨⟨Components.below_schemas hcomponents, Components.below_parameters hcomponents⟩,
        Components.below_responses hcomponents⟩, hindex⟩

theorem inside_componentsField (passes : ℕ) (key : List Byte) (h : Below n components.places) :
    Inside n (componentsField passes key components : Reading SchemaTable _)
      Components.places := by
  refine Run.Upholds.ite (fun _ => ?schemas) fun _ => ?_
  case schemas =>
    exact inside_componentSection (fun _ name _ h => inside_schemaComponent passes name h) passes h
  refine Run.Upholds.ite (fun _ => ?parameters) fun _ => ?_
  case parameters =>
    exact inside_componentSection (fun _ name _ h => inside_parameterComponent passes name h)
      passes h
  refine Run.Upholds.ite (fun _ => ?responses) fun _ => ?_
  case responses =>
    exact inside_componentSection (fun _ name _ h => inside_responseComponent passes name h)
      passes h
  refine Run.Upholds.ite (fun _ => ?requestBodies) fun _ => inside_skippedComponents h
  case requestBodies =>
    exact inside_componentSection (fun _ name _ h => inside_requestBodyComponent passes name h)
      passes h

theorem inside_specificationField (passes : ℕ) (key : List Byte)
    (h : Below n components.places) :
    Inside n (specificationField passes key components : Reading SchemaTable _)
      Components.places := by
  apply Run.Upholds.ite
  · intro _
    apply Plain.after (inside_onCursor _)
    intro k opened hk
    apply Run.Upholds.ite
    · intro _
      apply inside_eachField _ passes (h.mono hk)
      intro k' key components _ hcomponents
      exact inside_componentsField passes key hcomponents
    · intro _
      exact Inside.pure (h.mono hk)
  · intro _
    exact inside_skippedComponents h

end Sections

theorem inside_componentsPass (passes : ℕ) (jsonView : List Byte) :
    Inside n (componentsPass passes jsonView : Reading SchemaTable _) Components.places := by
  apply Plain.after (plain_moveCursor _)
  intro k _ _
  apply inside_eachField _ passes (below_nil k)
  intro k' key components _ hcomponents
  exact inside_specificationField passes key hcomponents

/-! ## Paths -/

section Paths

variable {components : Components}

theorem plain_versionOf (passes : ℕ) (jsonView : List Byte) :
    Plain n (extractOpenapiVersion passes jsonView : Reading SchemaTable _) := by
  apply Plain.after (plain_moveCursor _)
  intro k _ _
  apply Plain.after (inside_onCursor _)
  intro k' opened _
  apply Run.Upholds.ite
  · intro _
    have hfinish : ∀ (j : ℕ) (b : Unit), Below j ((fun _ => []) b) → Below j [] := fun _ _ h => h
    apply inside_eachMember hfinish _ passes (below_nil k')
    intro j key b _ _
    apply Run.Upholds.ite
    · intro _
      apply Plain.after (inside_onCursor _)
      intro j' text _
      exact Inside.pure (below_nil j')
    · intro _
      apply Plain.after plain_skipValue
      intro j' _ _
      apply Plain.after plain_tryComma
      intro i _ _
      exact Inside.pure (below_nil i)
  · intro _
    exact Inside.pure (below_nil k')

theorem inside_infoText {set : List Byte → Document → Document}
    (hset : ∀ text doc, (set text doc).places = doc.places) {doc : Document}
    (h : Below n doc.places) : Inside n (infoText set doc) Document.places := by
  apply Plain.after (inside_onCursor _)
  intro k text hk
  cases text with
  | some text =>
      apply Inside.pure
      rw [hset]
      exact h.mono hk
  | none =>
      apply Plain.after plain_skipValue
      intro k' _ hk'
      exact Inside.pure (h.mono (hk.trans hk'))

theorem inside_parseInfoObject (passes : ℕ) {doc : Document} (h : Below n doc.places) :
    Inside n (parseInfoObject passes doc : Reading SchemaTable _) Document.places := by
  have hskipped : ∀ (k : ℕ) (doc : Document), Below k doc.places → Inside k (do
      skipValue
      pure doc : Reading SchemaTable Document) Document.places := by
    intro k doc hdoc
    apply Plain.after plain_skipValue
    intro k' _ hk'
    exact Inside.pure (hdoc.mono hk')
  apply Plain.after (inside_onCursor _)
  intro k opened hk
  apply Run.Upholds.ite
  · intro _
    apply inside_eachField _ passes (h.mono hk)
    intro k' key doc _ hdoc
    refine Run.Upholds.ite (fun _ => ?title) fun _ => ?_
    case title => exact inside_infoText (fun _ _ => by rfl) hdoc
    refine Run.Upholds.ite (fun _ => ?version) fun _ => hskipped k' doc hdoc
    case version => exact inside_infoText (fun _ _ => by rfl) hdoc
  · intro _
    exact hskipped k doc (h.mono hk)

def PathLocals.places (l : PathLocals) : List ℕ :=
  l.pathParams.flatMap Parameter.places ++ l.operations.flatMap Operation.places

theorem inside_pathMember (hcomponents : Below n components.places) (passes : ℕ)
    (key : List Byte) {l : PathLocals} (h : Below n l.places) :
    Inside n (pathMember components passes key l : Reading SchemaTable _)
      (Pass.places PathLocals.places PathLocals.places) := by
  have hparts := h
  simp only [PathLocals.places, below_append] at hparts
  rcases hparts with ⟨hparams, hoperations⟩
  apply Run.Upholds.ite
  · intro _
    apply Inside.bind (inside_readParameters hcomponents passes hparams)
    intro k params hk hread
    apply Plain.after plain_tryComma
    intro k' _ hk'
    apply Inside.pure
    simp only [Pass.places, PathLocals.places, below_append]
    exact ⟨hread.mono hk', hoperations.mono (hk.trans hk')⟩
  · intro _
    cases methodOf key with
    | some method =>
        have hop : Below n (Operation.places { method := method, parameters := l.pathParams }) := by
          simpa [Operation.places] using hparams
        apply Inside.bind (inside_parseOperationObject hcomponents passes hop)
        intro k op hk hread
        apply Inside.pure
        simp only [Pass.places, PathLocals.places, below_append, List.flatMap_append,
          List.flatMap_singleton]
        exact ⟨hparams.mono hk, hoperations.mono hk, hread⟩
    | none =>
        apply Plain.after plain_skipValue
        intro k _ hk
        apply Plain.after plain_tryComma
        intro k' _ hk'
        exact Inside.pure (h.mono (hk.trans hk'))

theorem inside_parsePathItem (hcomponents : Below n components.places) (passes : ℕ)
    (path : List Byte) :
    Inside n (parsePathItem components passes path : Reading SchemaTable _) PathItem.places := by
  have hfinish : ∀ (k : ℕ) (l : PathLocals), Below k l.places → Below k (id l).places :=
    fun _ _ hl => hl
  apply Plain.after (inside_onCursor _)
  intro k opened hk
  apply Run.Upholds.ite
  · intro _
    apply Inside.bind (inside_eachMember hfinish _ passes (below_nil k))
    · intro k' l _ hl
      apply Inside.pure
      simp only [PathLocals.places, below_append] at hl
      exact hl.2
    · intro k' key l hk' hl
      exact inside_pathMember (hcomponents.mono (hk.trans hk')) passes key hl
  · intro _
    exact Inside.pure (below_nil k)

theorem inside_documentMember (hcomponents : Below n components.places) (passes : ℕ)
    (key : List Byte) {doc : Document} (h : Below n doc.places) :
    Inside n (documentMember components passes key doc : Reading SchemaTable _)
      (Pass.places Document.places Document.places) := by
  have hpaths : ∀ (k : ℕ) (paths : List PathItem) (item : PathItem),
      Below k (paths.flatMap PathItem.places) → Below k item.places →
      Below k ((paths ++ [item]).flatMap PathItem.places) := by
    intro k paths item hpaths hitem
    rw [List.flatMap_append, below_append, List.flatMap_singleton]
    exact ⟨hpaths, hitem⟩
  apply Run.Upholds.ite
  · intro _
    apply Plain.after (inside_onCursor _)
    intro k opened hk
    apply Run.Upholds.ite
    · intro _
      have hread : Below k (doc.paths.flatMap PathItem.places) := h.mono hk
      apply Inside.bind (inside_eachField _ passes hread)
      · intro k' paths _ hread
        apply Plain.after plain_tryComma
        intro j _ hj
        exact Inside.pure (hread.mono hj)
      · intro k' path paths hk' hread
        apply Inside.bind (inside_parsePathItem (hcomponents.mono (hk.trans hk')) passes path)
        intro j item hj hitem
        exact Inside.pure (hpaths j paths item (hread.mono hj) hitem)
    · intro _
      exact Inside.pure (h.mono hk)
  · intro _
    apply Run.Upholds.ite
    · intro _
      apply Inside.bind (inside_parseInfoObject passes h)
      intro k doc _ hdoc
      apply Plain.after plain_tryComma
      intro k' _ hk'
      exact Inside.pure (hdoc.mono hk')
    · intro _
      apply Plain.after plain_skipValue
      intro k _ hk
      apply Plain.after plain_tryComma
      intro k' _ hk'
      exact Inside.pure (h.mono (hk.trans hk'))

theorem inside_pathsPass (hcomponents : Below n components.places) (passes : ℕ)
    (jsonView : List Byte) {doc : Document} (h : Below n doc.places) :
    Inside n (pathsPass components passes jsonView doc : Reading SchemaTable _)
      Document.places := by
  have hfinish : ∀ (k : ℕ) (doc : Document), Below k doc.places → Below k (id doc).places :=
    fun _ _ hdoc => hdoc
  apply Plain.after (plain_moveCursor _)
  intro k _ hk
  apply inside_eachMember hfinish _ passes (h.mono hk)
  intro k' key doc hk' hdoc
  exact inside_documentMember (hcomponents.mono (hk.trans hk')) passes key hdoc

end Paths

def readPlaces : Except OpenapiError (Components × Document) → List ℕ
  | .error _ => []
  | .ok (components, doc) => components.places ++ doc.places

theorem inside_readDocument (passes : ℕ) (jsonView : List Byte) :
    Inside n (readDocument passes jsonView : Reading SchemaTable _) readPlaces := by
  apply Plain.after (plain_versionOf passes jsonView)
  intro k version hk
  cases version with
  | none => exact Inside.pure (below_nil k)
  | some version =>
      apply Run.Upholds.ite
      · intro _
        apply Inside.bind (inside_componentsPass passes jsonView)
        intro k' components _ hcomponents
        apply Plain.after (Run.Upholds.step fun j s _ hs => ⟨j, le_rfl, hs, below_nil j⟩)
        intro j size hj
        apply Run.Upholds.ite
        · intro _
          exact Inside.pure (below_nil j)
        · intro _
          have hempty : Below j (Document.places { openapiVersion := version }) := below_nil j
          apply Inside.bind (inside_pathsPass (hcomponents.mono hj) passes jsonView hempty)
          intro j' doc hj' hdoc
          apply Inside.pure
          exact below_append.mpr ⟨hcomponents.mono (hj.trans hj'), hdoc⟩
      · intro _
        exact Inside.pure (below_nil k)

/-! ## The passes over the table -/

section Slots

variable {Id ν : Type}

theorem mem_pointers_of_target {s : Schema Id ν} {slot : Slot} {id : Id}
    (h : s.target slot = some id) : id ∈ s.pointers := by
  cases slot with
  | property i =>
      rcases Option.bind_eq_some_iff.mp h with ⟨prop, hprop, htype⟩
      have hmem : id ∈ s.properties.filterMap (·.type) :=
        List.mem_filterMap.mpr ⟨prop, List.mem_of_getElem? hprop, htype⟩
      simp [Schema.pointers, hmem]
  | items =>
      have hitems : s.items = some id := h
      simp [Schema.pointers, hitems]
  | additionalProperties =>
      have hadditional : s.additionalProperties = some id := h
      simp [Schema.pointers, hadditional]
  | oneOf i =>
      have hmem : id ∈ s.oneOf := List.mem_of_getElem? h
      simp [Schema.pointers, hmem]
  | anyOf i =>
      have hmem : id ∈ s.anyOf := List.mem_of_getElem? h
      simp [Schema.pointers, hmem]
  | allOf i =>
      have hmem : id ∈ s.allOf := List.mem_of_getElem? h
      simp [Schema.pointers, hmem]

theorem mem_types_modify {properties : List (Property Id)} {i : ℕ} {target id : Id}
    (h : id ∈ (properties.modify i fun prop => { prop with type := some target }).filterMap
      (·.type)) : id = target ∨ id ∈ properties.filterMap (·.type) := by
  rcases List.mem_filterMap.mp h with ⟨prop, hprop, htype⟩
  rcases List.mem_iff_getElem?.mp hprop with ⟨j, hj⟩
  rw [List.getElem?_modify] at hj
  rcases Option.map_eq_some_iff.mp hj with ⟨old, hold, heq⟩
  split at heq
  · rw [← heq] at htype
    exact .inl (Option.some.inj htype).symm
  · rw [← heq] at htype
    exact .inr (List.mem_filterMap.mpr ⟨old, List.mem_of_getElem? hold, htype⟩)

theorem pointers_setTarget (s : Schema Id ν) (target : Id) (slot : Slot) :
    (s.setTarget target slot).pointers ⊆ target :: s.pointers := by
  intro id h
  cases slot with
  | property i =>
      simp only [Schema.setTarget, Schema.pointers, List.mem_append, List.mem_cons] at h ⊢
      rcases h with ((((h | h) | h) | h) | h) | h
      · rcases mem_types_modify h with heq | hmem
        · exact .inl heq
        · tauto
      all_goals tauto
  | items =>
      simp only [Schema.setTarget, Schema.pointers, List.mem_append, List.mem_cons,
        Option.mem_toList, Option.some.injEq] at h ⊢
      tauto
  | additionalProperties =>
      simp only [Schema.setTarget, Schema.pointers, List.mem_append, List.mem_cons,
        Option.mem_toList, Option.some.injEq] at h ⊢
      tauto
  | oneOf i =>
      simp only [Schema.setTarget, Schema.pointers, List.mem_append, List.mem_cons] at h ⊢
      have hset : id ∈ s.oneOf.set i target → id ∈ s.oneOf ∨ id = target :=
        List.mem_or_eq_of_mem_set
      tauto
  | anyOf i =>
      simp only [Schema.setTarget, Schema.pointers, List.mem_append, List.mem_cons] at h ⊢
      have hset : id ∈ s.anyOf.set i target → id ∈ s.anyOf ∨ id = target :=
        List.mem_or_eq_of_mem_set
      tauto
  | allOf i =>
      simp only [Schema.setTarget, Schema.pointers, List.mem_append, List.mem_cons] at h ⊢
      have hset : id ∈ s.allOf.set i target → id ∈ s.allOf ∨ id = target :=
        List.mem_or_eq_of_mem_set
      tauto

theorem pointers_clearAllOf (s : Schema Id ν) : s.clearAllOf.pointers ⊆ s.pointers := by
  intro id h
  simp only [Schema.clearAllOf, Schema.pointers, List.mem_append, List.not_mem_nil,
    or_false] at h ⊢
  tauto

end Slots

section Resolving

variable {index : Index ℕ} {size : ℕ}

theorem resolveSchemaRef_lt (hindex : Below size (index.places fun place => [place]))
    {get : SchemaStore ℕ Float} {levels : ℕ} {visiting visited visited' : List ℕ} {s r : ℕ}
    (hs : s < size)
    (h : resolveSchemaRef index get levels visiting visited s = some (some r, visited')) :
    r < size := by
  induction levels generalizing visiting visited' s with
  | zero => cases h
  | succ levels ih =>
      rw [resolveSchemaRef] at h
      split at h
      · cases h
        exact hs
      · split at h
        · cases h
        · split at h
          · cases h
            exact hs
          · split at h
            · cases h
              exact hs
            · rename_i resolved hfind
              have hresolved := (below_cons.mp (Index.below_reference hindex hfind)).1
              split at h
              · rcases Option.map_eq_some_iff.mp h with ⟨⟨found, middle⟩, hcall, heq⟩
                cases heq
                exact ih hresolved hcall
              · cases h
                exact hresolved

/-- The walk over the references goes round a closed table. -/
def RefSized (k : ℕ) (st : RefState) : Prop :=
  st.table.size = k ∧ st.table.Closed

variable {n : ℕ}

theorem upholds_refRead {α : Type} (f : RefState → α) :
    Run.Upholds RefSized n (Run.read f) fun _ _ => True :=
  Run.Upholds.step fun k _ _ hst => ⟨k, le_rfl, hst, True.intro⟩

theorem upholds_visit (s : ℕ) :
    Run.Upholds RefSized n (Run.change fun st => { st with visited := s :: st.visited })
      fun _ _ => True :=
  Run.Upholds.step fun k _ _ hst => ⟨k, le_rfl, hst, True.intro⟩

theorem upholds_resolveTarget (hindex : Below n (index.places fun place => [place]))
    (levels : ℕ) {target : ℕ} (htarget : target < n) :
    Run.Upholds RefSized n (resolveTarget index levels target) fun k resolved => resolved < k := by
  intro k st hk hst
  refine ⟨k, le_rfl, ?_⟩
  unfold resolveTarget
  split
  · split
    next => exact ⟨hst, fun _ h => by cases h⟩
    next resolved visited hresolve =>
      refine ⟨hst, ?_⟩
      intro place hplace
      cases hplace
      cases resolved with
      | none => exact htarget.trans_le hk
      | some r => exact resolveSchemaRef_lt (hindex.mono hk) (htarget.trans_le hk) hresolve
  · refine ⟨hst, ?_⟩
    intro place hplace
    cases hplace
    exact htarget.trans_le hk

theorem upholds_setSlot (s : ℕ) (slot : Slot) {target : ℕ} (htarget : target < n) :
    Run.Upholds RefSized n (setSlot s slot target) fun _ _ => True := by
  apply Run.Upholds.step
  intro k st hk hst
  refine ⟨k, le_rfl, ⟨hst.1, ?_⟩, True.intro⟩
  apply hst.2.update
  have hold := below_cons.mpr ⟨htarget.trans_le hk, hst.1 ▸ hst.2 s⟩
  rw [hst.1]
  exact hold.subset (pointers_setTarget _ target slot)

theorem upholds_resolveAllRefs (hindex : Below n (index.places fun place => [place]))
    (levels s : ℕ) :
    Run.Upholds RefSized n (resolveAllRefsInSchema index levels s) fun _ _ => True := by
  induction levels generalizing n s with
  | zero => exact Run.Upholds.unfinished
  | succ levels ih =>
      rw [resolveAllRefsInSchema]
      apply Run.Upholds.bind (upholds_refRead _)
      intro k visited hk _
      apply Run.Upholds.ite
      · intro _
        exact Run.Upholds.of_pure fun _ _ => True.intro
      · intro _
        apply Run.Upholds.bind (upholds_visit s)
        intro k' _ hk' _
        apply Run.Upholds.bind (upholds_refRead _)
        intro j slots hj _
        apply Run.Upholds.each
        intro slot _ j' hj'
        have hlevel := ((hk.trans hk').trans hj).trans hj'
        have htarget : Run.Upholds RefSized j'
            (Run.read fun st => (st.table.get s).target slot) fun i target =>
              ∀ place ∈ target, place < i := by
          apply Run.Upholds.step
          intro i st _ hst
          refine ⟨i, le_rfl, hst, ?_⟩
          intro place hplace
          rw [← hst.1]
          exact hst.2 s place (mem_pointers_of_target hplace)
        apply htarget.bind
        intro i target hi hbelow
        cases target with
        | none => exact Run.Upholds.of_pure fun _ _ => True.intro
        | some target =>
            have hfrom := hindex.mono (hlevel.trans hi)
            apply (upholds_resolveTarget hfrom levels (hbelow target rfl)).bind
            intro i' resolved hi' hresolved
            apply (upholds_setSlot s slot hresolved).bind
            intro j'' _ hj'' _
            exact ih (hfrom.mono (hi'.trans hj'')) resolved

theorem upholds_resolvePass (hindex : Below n (index.places fun place => [place]))
    (levels : ℕ) : Run.Upholds RefSized n (resolvePass index levels) fun _ _ => True := by
  apply Run.Upholds.bind (upholds_refRead _)
  intro k size hk _
  exact Run.Upholds.each fun s _ k' hk' =>
    upholds_resolveAllRefs (hindex.mono (hk.trans hk')) levels s

end Resolving

section Merging

variable {ν : Type} [LT ν] [DecidableLT ν] {Id : Type}

theorem mem_types_mergeProperty {properties : List (Property Id)} {childProp : Property Id}
    {id : Id} (h : id ∈ (mergeProperty properties childProp).filterMap (·.type)) :
    id ∈ childProp.type ∨ id ∈ properties.filterMap (·.type) := by
  unfold mergeProperty at h
  split at h
  · rw [List.filterMap_append, List.mem_append] at h
    rcases h with h | h
    · exact .inr h
    · rcases List.mem_filterMap.mp h with ⟨prop, hprop, htype⟩
      rw [List.mem_singleton.mp hprop] at htype
      exact .inl htype
  · rcases List.mem_filterMap.mp h with ⟨prop, hprop, htype⟩
    rcases List.mem_iff_getElem?.mp hprop with ⟨j, hj⟩
    rw [List.getElem?_modify] at hj
    rcases Option.map_eq_some_iff.mp hj with ⟨old, hold, heq⟩
    split at heq
    · rw [← heq] at htype
      exact .inl htype
    · rw [← heq] at htype
      exact .inr (List.mem_filterMap.mpr ⟨old, List.mem_of_getElem? hold, htype⟩)

theorem mem_types_mergeProperties {properties childProps : List (Property Id)} {id : Id}
    (h : id ∈ (childProps.foldl mergeProperty properties).filterMap (·.type)) :
    id ∈ childProps.filterMap (·.type) ∨ id ∈ properties.filterMap (·.type) := by
  induction childProps generalizing properties with
  | nil => exact .inr h
  | cons childProp rest ih =>
      rw [List.filterMap_cons]
      rcases ih h with hrest | hmerged
      · left
        split
        · exact hrest
        · exact List.mem_cons_of_mem _ hrest
      · rcases mem_types_mergeProperty hmerged with htype | hold
        · left
          rw [Option.mem_def.mp htype]
          exact List.mem_cons_self
        · exact .inr hold

theorem pointers_mergeChild (child s : Schema Id ν) :
    (mergeChild child s).pointers ⊆ child.pointers ++ s.pointers := by
  intro id h
  simp only [mergeChild, Schema.pointers, List.mem_append, Option.mem_toList] at h ⊢
  rcases h with ((((h | h) | h) | h) | h) | h
  · rcases mem_types_mergeProperties h with hchild | hown
    · tauto
    · tauto
  · split at h
    · tauto
    · tauto
  · split at h
    · tauto
    · tauto
  all_goals tauto

/-- Every pointer of the store is below the size. -/
def ClosedStore (size : ℕ) (get : SchemaStore ℕ Float) : Prop :=
  ∀ place, Below size (get place).pointers

theorem ClosedStore.update {size : ℕ} {get : SchemaStore ℕ Float} (h : ClosedStore size get)
    (place : ℕ) {schema : Schema ℕ Float} (hschema : Below size schema.pointers) :
    ClosedStore size (Function.update get place schema) := by
  intro other
  by_cases hother : other = place
  · rw [hother, Function.update_self]
    exact hschema
  · rw [Function.update_of_ne hother]
    exact h other

theorem closed_mergePass {size depth : ℕ} {schemas : List ℕ} {get get' : SchemaStore ℕ Float}
    (h : mergePass depth schemas get = some get') (hget : ClosedStore size get) :
    ClosedStore size get' := by
  rw [mergePass_eq] at h
  apply Library.Merging.mergeAll_invariant _ _ h hget
  · intro s st child hst
    apply hst.update
    exact Below.subset (below_append.mpr ⟨hst child, hst s⟩) (pointers_mergeChild _ _)
  · intro s st hst
    apply hst.update
    exact (hst s).subset (pointers_clearAllOf _)

theorem allOf_mergePass {depth : ℕ} {schemas : List ℕ} {get get' : SchemaStore ℕ Float}
    (h : mergePass depth schemas get = some get') : ∀ s ∈ schemas, (get' s).allOf = [] := by
  rw [mergePass_eq] at h
  exact Library.Merging.mergeAll_clears h

end Merging

/-! ## Path parameters -/

/-- The table is closed, and every list of `allOf` has been merged. -/
def MergedTable (k : ℕ) (s : Loading SchemaTable) : Prop :=
  Sized k s ∧ ∀ place < k, (s.pool.get place).allOf = []

theorem merged_addSchema {schema : Schema ℕ Float} (hpointers : schema.pointers = [])
    (hallOf : schema.allOf = []) :
    Run.Upholds MergedTable n (addSchema schema) fun k place => place < k := by
  apply Run.Upholds.step
  rintro k s _ ⟨⟨hsize, hclosed⟩, hmerged⟩
  refine ⟨k + 1, k.le_succ, ⟨⟨congrArg (· + 1) hsize, ?_⟩, ?_⟩, ?_⟩
  · apply hclosed.add
    rw [hpointers]
    exact below_nil _
  · intro place hplace
    change (Function.update s.pool.get s.pool.size schema place).allOf = []
    by_cases hnew : place = s.pool.size
    · rw [hnew, Function.update_self]
      exact hallOf
    · rw [Function.update_of_ne hnew]
      exact hmerged place (by omega)
  · change s.pool.size < k + 1
    omega

theorem merged_addPathParam {params : List Parameter} (name : List Byte)
    (h : Below n (params.flatMap Parameter.places)) :
    Run.Upholds MergedTable n (addPathParam params name) fun k params =>
      Below k (params.flatMap Parameter.places) := by
  apply Run.Upholds.ite
  · intro _
    exact Run.Upholds.of_pure fun _ hk => h.mono hk
  · intro _
    have hadded : Run.Upholds MergedTable n (addSchema { kind := .string }) fun k place =>
        place < k := merged_addSchema rfl rfl
    apply hadded.bind
    intro k place hk hplace
    apply Run.Upholds.of_pure
    intro k' hk'
    rw [List.flatMap_append, below_append]
    exact ⟨h.mono (hk.trans hk'), below_cons.mpr ⟨hplace.trans_le hk', below_nil k'⟩⟩

theorem merged_addPathParams (names : List (List Byte)) {params : List Parameter}
    (h : Below n (params.flatMap Parameter.places)) :
    Run.Upholds MergedTable n (addPathParams names params) fun k params =>
      Below k (params.flatMap Parameter.places) := by
  induction names generalizing n params with
  | nil => exact Run.Upholds.of_pure fun _ hk => h.mono hk
  | cons name names ih =>
      apply (merged_addPathParam name h).bind
      intro k params _ hparams
      exact ih hparams

theorem merged_fillOperations (names : List (List Byte)) {ops : List Operation}
    (h : Below n (ops.flatMap Operation.places)) :
    Run.Upholds MergedTable n (fillOperations names ops) fun k ops =>
      Below k (ops.flatMap Operation.places) := by
  induction ops generalizing n with
  | nil => exact Run.Upholds.of_pure fun k _ => below_nil k
  | cons op ops ih =>
      rw [List.flatMap_cons, below_append] at h
      rcases h with ⟨hop, hops⟩
      have hparts := hop
      simp only [Operation.places, below_append] at hparts
      rcases hparts with ⟨⟨hparameters, hbody⟩, hmembers⟩
      apply (merged_addPathParams names hparameters).bind
      intro k parameters hk hparameters
      apply (ih (hops.mono hk)).bind
      intro k' ops hk' hops
      apply Run.Upholds.of_pure
      intro j hj
      have hlevel := hk.trans (hk'.trans hj)
      simp only [List.flatMap_cons, Operation.places, below_append]
      exact ⟨⟨⟨hparameters.mono (hk'.trans hj), hbody.mono hlevel⟩, hmembers.mono hlevel⟩,
        hops.mono hj⟩

theorem merged_fillPaths {paths : List PathItem} (h : Below n (paths.flatMap PathItem.places)) :
    Run.Upholds MergedTable n (fillPaths paths) fun k paths =>
      Below k (paths.flatMap PathItem.places) := by
  induction paths generalizing n with
  | nil => exact Run.Upholds.of_pure fun k _ => below_nil k
  | cons item items ih =>
      rw [List.flatMap_cons, below_append] at h
      apply (merged_fillOperations _ h.1).bind
      intro k operations hk hoperations
      apply (ih (h.2.mono hk)).bind
      intro k' items hk' hitems
      apply Run.Upholds.of_pure
      intro j hj
      rw [List.flatMap_cons, below_append]
      exact ⟨hoperations.mono (hk'.trans hj), hitems.mono hj⟩

/-! ## The document -/

theorem merged_settleSchemas {index : Index ℕ} (passes : ℕ)
    (hindex : Below n (index.places fun place => [place])) {k : ℕ} {s s' : Loading SchemaTable}
    (hk : n ≤ k) (hs : Sized k s) (h : settleSchemas index passes s = (some (), s')) :
    ∃ k', k ≤ k' ∧ MergedTable k' s' := by
  rcases upholds_resolvePass hindex passes k { table := s.pool } hk hs with
    ⟨k', hk', ⟨hsize, hclosed⟩, -⟩
  refine ⟨k', hk', ?_⟩
  unfold settleSchemas at h
  split at h
  · cases h
  next st hresolve =>
    rw [hresolve] at hsize hclosed
    split at h
    · cases h
    next get hmerge =>
      cases h
      have hstore : ClosedStore st.table.size st.table.get := hclosed
      refine ⟨⟨hsize, closed_mergePass hmerge hstore⟩, ?_⟩
      intro place hplace
      apply allOf_mergePass hmerge
      rw [List.mem_range]
      exact hplace.trans_eq hsize.symm

/-- What the document and its schemas point to is in the table, and no list of `allOf` is
left. -/
structure Document.Closed (doc : Document) (t : SchemaTable) : Prop where
  document : ∀ place ∈ doc.places, place < t.size
  schemas : ∀ place < t.size, ∀ target ∈ (t.get place).pointers, target < t.size
  merged : ∀ place < t.size, (t.get place).allOf = []

theorem closed_of_merged {k : ℕ} {s : Loading SchemaTable} {doc : Document}
    (h : MergedTable k s) (hdoc : Below k doc.places) : doc.Closed s.pool := by
  rcases h with ⟨⟨hsize, hclosed⟩, hmerged⟩
  constructor
  · intro place hplace
    exact (hdoc place hplace).trans_eq hsize.symm
  · intro place _
    exact hclosed place
  · intro place hplace
    exact hmerged place (hplace.trans_eq hsize)

theorem sized_initial (cur : JsonCursor) : Sized 0 { cur := cur, pool := {} } :=
  ⟨rfl, fun _ => below_nil 0⟩

/-- A loaded document is closed.  Where more schemas are made than have been reserved, the
vector moves them, and a place is no pointer any more. -/
theorem loadFromString_closed {build : Build} {passes : ℕ} {specText : List Byte}
    {cur : JsonCursor} {doc : Document} {s : Loading SchemaTable}
    (h : loadFromString build passes specText { cur := cur, pool := {} } = (some (.ok doc), s))
    (_ : s.pool.size ≤ kMaxSchemaCount) : doc.Closed s.pool := by
  rcases loadFromString_passes h with
    ⟨jsonView, components, doc₁, s₁, s₂, paths, hread, hsettle, hfill, rfl, -⟩
  rcases inside_readDocument passes jsonView 0 _ le_rfl (sized_initial cur) with
    ⟨k, -, hsized, hplaces⟩
  rw [hread] at hsized hplaces
  rcases below_append.mp (hplaces _ rfl) with ⟨hcomponents, hdoc⟩
  rcases merged_settleSchemas passes (Components.below_schemas hcomponents) le_rfl hsized
    hsettle with ⟨k', hk', hmerged⟩
  rcases merged_fillPaths (hdoc.mono hk') k' s₂ le_rfl hmerged with ⟨k'', -, hfilled, hpaths⟩
  rw [hfill] at hfilled hpaths
  exact closed_of_merged hfilled (hpaths paths rfl)

/-- Two schemas with references to each other, and a path that names a parameter. -/
def mutualSchemas : List Byte :=
  bytesOf "\x7b\"openapi\":\"3.0\",\"components\":\x7b\"schemas\":\x7b" ++
  bytesOf "\"A\":\x7b\"items\":\x7b\"$ref\":\"#/components/schemas/B\"\x7d\x7d," ++
  bytesOf "\"B\":\x7b\"items\":\x7b\"$ref\":\"#/components/schemas/A\"\x7d\x7d\x7d\x7d," ++
  bytesOf "\"paths\":\x7b\"/\x7bid\x7d\":\x7b\"get\":\x7b\x7d\x7d\x7d\x7d"

theorem mutualSchemas_loaded : ∃ doc s,
    loadFromString .plain 8 mutualSchemas { cur := [], pool := {} } = (some (.ok doc), s) ∧
    s.pool.size = 5 := by
  have hload : ((loadFromString .plain 8 mutualSchemas
      { cur := [], pool := {} }).1.bind Except.toOption).isSome = true ∧
      (loadFromString .plain 8 mutualSchemas { cur := [], pool := {} }).2.pool.size = 5 := by
    decide +kernel
  rcases hrun : loadFromString .plain 8 mutualSchemas { cur := [], pool := {} } with ⟨result, s⟩
  rw [hrun] at hload
  rcases Option.isSome_iff_exists.mp hload.1 with ⟨doc, hdoc⟩
  rcases Option.bind_eq_some_iff.mp hdoc with ⟨result, rfl, hok⟩
  cases result with
  | error e => cases hok
  | ok doc => exact ⟨doc, s, rfl, hload.2⟩

theorem loadFromString_closed_mutualSchemas : ∃ doc s,
    loadFromString .plain 8 mutualSchemas { cur := [], pool := {} } = (some (.ok doc), s) ∧
    s.pool.size ≤ kMaxSchemaCount ∧ doc.Closed s.pool := by
  rcases mutualSchemas_loaded with ⟨doc, s, hload, hsize⟩
  have hcount : s.pool.size ≤ kMaxSchemaCount := by
    rw [hsize]
    decide
  exact ⟨doc, s, hload, hcount, loadFromString_closed hload hcount⟩

end OpenApi
end Katana
