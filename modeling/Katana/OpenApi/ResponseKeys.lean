import Katana.OpenApi.Loader

/-!
# The keys of responses

What the key of a member and the form of its value say of the response that is added for
it, and when that is what the key means.
-/

namespace Katana
namespace OpenApi

open Library
open Http (Byte bytesOf isDigit numeralValue)
open Serde (Build JsonCursor)

variable {σ : Type} [SchemaPool σ]

/-! ## One response -/

/-- The status and the flag of a response that has been read. -/
structure Given (status : ℤ) (isDefault : Bool) (form : ResponseForm) (resp : Response) : Prop where
  status : resp.status = status
  isDefault : resp.isDefault = (form = .inline && isDefault)

/-- No response of the components is a default one. -/
def Components.NoDefault (components : Components) : Prop :=
  ∀ entry ∈ components.responses, entry.2.isDefault = false

variable {components : Components}

theorem Components.NoDefault.find (h : components.NoDefault) {name : Option (List Byte)}
    {resp : Response} (hfind : name.bind components.responses.find = some resp) :
    resp.isDefault = false := by
  rcases Option.bind_eq_some_iff.mp hfind with ⟨name, -, hname⟩
  rcases Index.find_mem hname with ⟨entry, hentry, heq⟩
  rw [← heq]
  exact h entry hentry

/-- What is read for a member. -/
structure ResponseMember.Answered (member : ResponseMember) : Prop where
  skipped : statusOf member.key = none → member.response = none
  given : ∀ status isDefault, statusOf member.key = some (status, isDefault) →
    member.isObject = true → ∃ resp, member.response = some resp ∧
      Given status isDefault member.form resp

/-- All members so far are answered. -/
def AllAnswered (members : List ResponseMember) : Prop :=
  ∀ member ∈ members, member.Answered

theorem AllAnswered.add {members : List ResponseMember} (h : AllAnswered members)
    {member : ResponseMember} (hmember : member.Answered) : AllAnswered (members ++ [member]) := by
  intro m hm
  rcases List.mem_append.mp hm with hold | hnew
  · exact h m hold
  · rw [List.mem_singleton.mp hnew]
    exact hmember

def Document.operations (doc : Document) : List Operation :=
  doc.paths.flatMap PathItem.operations

def IsNumeral (key : List Byte) : Prop :=
  key ≠ [] ∧ ∀ c ∈ key, isDigit 10 c = true

/-- A numeral is neither zero nor too great for an `int`; a default response is written
out; no other key begins with a number that is an `int`. -/
structure ResponseMember.Plain (member : ResponseMember) : Prop where
  numeral : IsNumeral member.key →
    0 < numeralValue 10 member.key ∧ numeralValue 10 member.key < 2 ^ 31
  default : member.key = bytesOf "default" → member.form = .inline
  other : ¬ IsNumeral member.key → fromCharsInt member.key = none

section Members

variable {member : ResponseMember} (hanswered : member.Answered) (hobject : member.isObject = true)
  (hvalid : ∀ resp ∈ member.response, validResponse resp = true)

include hanswered hobject

include hvalid

end Members

end OpenApi
end Katana
