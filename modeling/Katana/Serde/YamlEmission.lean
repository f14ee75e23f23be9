import Katana.Library.JsonSpelling
import Katana.Serde.Yaml

/-!
# What is written is JSON

Whatever tree has been read from the lines, what `emit_json` writes for it is a JSON
value: strings are escaped, and what is written without quotes is a literal of JSON.
-/

namespace Katana
namespace Serde

open Library
open Library.JsonText (IsValue Space Element Member arrayText objectText commaSeparated
  commaSeparated_cons)
open Http (Byte bytesOf)

/-! ## Strings -/

theorem emitString_eq (build : Build) (sv : List Byte) :
    emitString build sv = JsonText.quoted (sv.flatMap escapeByte) := by
  unfold emitString
  rw [escapeJsonStringInto_eq, escapeJsonString_eq]
  rfl

theorem isValue_emitString (build : Build) (sv : List Byte) (depth : ℕ) :
    IsValue depth (emitString build sv) := by
  rw [emitString_eq]
  exact .string (stringText_escape sv)

/-- The words that are written as they stand are those of JSON. -/
theorem isValue_emitScalar (build : Build) (v : List Byte) (depth : ℕ) :
    IsValue depth (emitScalar build v) := by
  unfold emitScalar
  dsimp only
  split
  next hword =>
    apply IsValue.literal
    simp only [isBoolLiteral, isNullLiteral, Bool.or_eq_true, decide_eq_true_eq] at hword
    rcases hword with (htrue | hfalse) | hnull
    · rw [htrue]
      decide
    · rw [hfalse]
      decide
    · rw [hnull]
      decide
  next => exact isValue_emitString build _ depth

/-! ## Collections -/

/-- What is written for a member. -/
def memberText (build : Build) (m : List Byte × YamlNode) : List Byte :=
  emitString build m.1 ++ COLON :: emitJson build m.2

theorem emitMembers_succ (build : Build) (members : List (List Byte × YamlNode)) (i : ℕ) :
    emitMembers build (i + 1) members = (members.map (memberText build)).flatMap (COMMA :: ·) := by
  induction members generalizing i with
  | nil => rfl
  | cons m rest ih =>
      rw [emitMembers, ih]
      simp [memberText, COMMA]

theorem emitMembers_zero (build : Build) (members : List (List Byte × YamlNode)) :
    emitMembers build 0 members = commaSeparated (members.map (memberText build)) := by
  cases members with
  | nil => rfl
  | cons m rest =>
      rw [emitMembers, emitMembers_succ, List.map_cons, commaSeparated_cons]
      simp [memberText, COMMA, JsonText.COMMA]

theorem emitItems_succ (build : Build) (items : List YamlNode) (i : ℕ) :
    emitItems build (i + 1) items = (items.map (emitJson build)).flatMap (COMMA :: ·) := by
  induction items generalizing i with
  | nil => rfl
  | cons item rest ih =>
      rw [emitItems, ih]
      simp [COMMA]

theorem emitItems_zero (build : Build) (items : List YamlNode) :
    emitItems build 0 items = commaSeparated (items.map (emitJson build)) := by
  cases items with
  | nil => rfl
  | cons item rest =>
      rw [emitItems, emitItems_succ, List.map_cons, commaSeparated_cons]
      simp [COMMA, JsonText.COMMA]

/-- The value that stands where nothing is blank. -/
def bareElement (value : List Byte) : Element where
  before := Space.none
  value := value
  after := Space.none

/-- The member as a part of the text. -/
def emittedMember (build : Build) (m : List Byte × YamlNode) : Member where
  before := Space.none
  name := m.1.flatMap escapeByte
  between := Space.none
  element := bareElement (emitJson build m.2)
  string := stringText_escape m.1

theorem bareElement_text (value : List Byte) : (bareElement value).text = value := by
  simp [bareElement, Element.text, Space.none]

theorem emittedMember_text (build : Build) (m : List Byte × YamlNode) :
    (emittedMember build m).text = memberText build m := by
  rw [memberText, emitString_eq, Member.text]
  simp [emittedMember, bareElement_text, Space.none, COLON, JsonText.COLON]

theorem isValue_object (build : Build) {depth : ℕ} {members : List (List Byte × YamlNode)}
    (h : ∀ m ∈ members, IsValue depth (emitJson build m.2)) :
    IsValue (depth + 1) (emitJson build (.object members)) := by
  have hvalue := IsValue.object (members.map (emittedMember build))
    (fun m hm => by
      rcases List.mem_map.mp hm with ⟨source, hsource, rfl⟩
      exact h source hsource)
  have htext : (members.map (emittedMember build)).map Member.text =
      members.map (memberText build) := by
    simp [emittedMember_text]
  rw [htext, ← emitMembers_zero] at hvalue
  rw [emitJson]
  exact hvalue

theorem isValue_array (build : Build) {depth : ℕ} {items : List YamlNode}
    (h : ∀ item ∈ items, IsValue depth (emitJson build item)) :
    IsValue (depth + 1) (emitJson build (.array items)) := by
  have hvalue := IsValue.array (items.map fun item => bareElement (emitJson build item))
    (fun e he => by
      rcases List.mem_map.mp he with ⟨item, hitem, rfl⟩
      exact h item hitem)
  have htext : (items.map fun item => bareElement (emitJson build item)).map Element.text =
      items.map (emitJson build) := by
    simp [bareElement_text]
  rw [htext, ← emitItems_zero] at hvalue
  rw [emitJson]
  exact hvalue

/-! ## Trees -/

mutual

/-- The levels of collections in a tree. -/
def YamlNode.levels : YamlNode → ℕ
  | .scalar _ => 0
  | .object members => memberLevels members + 1
  | .array items => itemLevels items + 1

def memberLevels : List (List Byte × YamlNode) → ℕ
  | [] => 0
  | (_, value) :: rest => max value.levels (memberLevels rest)

def itemLevels : List YamlNode → ℕ
  | [] => 0
  | item :: rest => max item.levels (itemLevels rest)

end

theorem levels_le_memberLevels {members : List (List Byte × YamlNode)} {m : List Byte × YamlNode}
    (hm : m ∈ members) : m.2.levels ≤ memberLevels members := by
  induction members with
  | nil => cases hm
  | cons first rest ih =>
      rw [memberLevels]
      rcases List.mem_cons.mp hm with rfl | hrest
      · exact le_max_left _ _
      · exact (ih hrest).trans (le_max_right _ _)

theorem levels_le_itemLevels {items : List YamlNode} {item : YamlNode} (hitem : item ∈ items) :
    item.levels ≤ itemLevels items := by
  induction items with
  | nil => cases hitem
  | cons first rest ih =>
      rw [itemLevels]
      rcases List.mem_cons.mp hitem with rfl | hrest
      · exact le_max_left _ _
      · exact (ih hrest).trans (le_max_right _ _)

/-- What is written for a tree is a value of as many levels as the tree has. -/
theorem isValue_emitJson (build : Build) (node : YamlNode) :
    ∀ depth, node.levels ≤ depth → IsValue depth (emitJson build node) := by
  induction node using YamlNode.byChildren with
  | scalar value =>
      intro depth _
      rw [emitJson]
      exact isValue_emitScalar build value depth
  | object members ih =>
      intro depth hdepth
      rw [YamlNode.levels] at hdepth
      cases depth with
      | zero => omega
      | succ depth =>
          apply isValue_object build
          intro m hm
          exact ih m hm depth ((levels_le_memberLevels hm).trans (Nat.le_of_succ_le_succ hdepth))
  | array items ih =>
      intro depth hdepth
      rw [YamlNode.levels] at hdepth
      cases depth with
      | zero => omega
      | succ depth =>
          apply isValue_array build
          intro item hitem
          exact ih item hitem depth
            ((levels_le_itemLevels hitem).trans (Nat.le_of_succ_le_succ hdepth))

/-- A text is converted if its tree has been read without a diagnostic. -/
theorem yamlToJson_ok {build : Build} {text json : List Byte}
    (h : yamlToJson build text = .ok json) :
    ∃ parsed, parseYaml text = some parsed ∧ parsed.2.message = [] ∧
      json = emitJson build parsed.1 := by
  unfold yamlToJson at h
  cases hparse : parseYaml text with
  | none =>
      rw [hparse] at h
      cases h
  | some parsed =>
      rw [hparse] at h
      dsimp only at h
      split at h
      next => cases h
      next hquiet =>
        cases h
        exact ⟨parsed, rfl, by simpa using hquiet, rfl⟩

/-- Whatever the text contains, a converted text is a value of JSON. -/
theorem yamlToJson_wellFormed (build : Build) {text json : List Byte}
    (h : yamlToJson build text = .ok json) : ∃ depth, IsValue depth json := by
  rcases yamlToJson_ok h with ⟨parsed, -, -, rfl⟩
  exact ⟨_, isValue_emitJson build parsed.1 _ le_rfl⟩

theorem yamlToJson_wellFormed_item :
    ∃ depth, IsValue depth (bytesOf "\x7b\"a\":[\"b\",true]\x7d") := by
  have hjson : yamlToJson .plain (bytesOf "a:\n  - b\n  - true\n") =
      .ok (bytesOf "\x7b\"a\":[\"b\",true]\x7d") := by
    decide +kernel
  exact yamlToJson_wellFormed .plain hjson

end Serde
end Katana
