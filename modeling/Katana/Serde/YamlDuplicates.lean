import Katana.Serde.YamlBlocks

/-!
# Keys given twice

The parser of a block and that of a flow map report a key that they have seen before.
The map of a sequence item is put together from the key behind the dash and from the
block below, and there nothing is compared.  So the objects of a converted text have
distinct keys exactly if no item that is kept gives its first key again below; this is
told from the lines of the text alone.
-/

namespace Katana
namespace Serde

open Http (Byte bytesOf)

/-! ## Trees with distinct keys -/

/-- The node stands somewhere in the tree. -/
inductive YamlNode.Contains : YamlNode → YamlNode → Prop
  | self (node : YamlNode) : Contains node node
  | member {members : List (List Byte × YamlNode)} {m : List Byte × YamlNode} {node : YamlNode}
      (hm : m ∈ members) (h : Contains m.2 node) : Contains (.object members) node
  | item {items : List YamlNode} {item node : YamlNode} (hitem : item ∈ items)
      (h : Contains item node) : Contains (.array items) node

/-- Every object at every level has pairwise distinct keys. -/
def YamlNode.Distinct (node : YamlNode) : Prop :=
  ∀ members, node.Contains (.object members) → (members.map Prod.fst).Nodup

@[simp] theorem distinct_scalar (value : List Byte) : (YamlNode.scalar value).Distinct := by
  intro members h
  cases h

@[simp] theorem distinct_object (members : List (List Byte × YamlNode)) :
    (YamlNode.object members).Distinct ↔
      (members.map Prod.fst).Nodup ∧ ∀ m ∈ members, m.2.Distinct := by
  constructor
  · intro h
    exact ⟨h members (.self _), fun m hm below hbelow => h below (.member hm hbelow)⟩
  · intro h below hbelow
    cases hbelow with
    | self => exact h.1
    | member hm hbelow => exact h.2 _ hm below hbelow

@[simp] theorem distinct_array (items : List YamlNode) :
    (YamlNode.array items).Distinct ↔ ∀ item ∈ items, item.Distinct := by
  constructor
  · intro h item hitem below hbelow
    exact h below (.item hitem hbelow)
  · intro h below hbelow
    cases hbelow with
    | item hitem hbelow => exact h _ hitem below hbelow

/-! ## Diagnostics -/

/-- The keys of the members have been seen, each once. -/
structure Mapping.Fresh (m : Mapping) : Prop where
  nodup : (m.object.map Prod.fst).Nodup
  seen : ∀ key ∈ m.object.map Prod.fst, key ∈ m.seen

theorem Mapping.add_object {m : Mapping} {key : List Byte} (hkey : key ∉ m.seen)
    (value : YamlNode) : (m.add key value).object = m.object ++ [(key, value)] := by
  simp [Mapping.add, hkey]

theorem Mapping.Fresh.add {m : Mapping} (h : m.Fresh) {key : List Byte} (hkey : key ∉ m.seen)
    (value : YamlNode) : (m.add key value).Fresh := by
  constructor
  · rw [Mapping.add_object hkey, List.map_append]
    apply List.Nodup.append h.nodup (List.nodup_singleton key)
    intro other hother hsame
    rw [List.mem_singleton.mp hsame] at hother
    exact hkey (h.seen key hother)
  · intro other hother
    rw [Mapping.add_object hkey, List.map_append, List.mem_append] at hother
    rcases hother with hold | hnew
    · exact List.mem_cons_of_mem key (h.seen other hold)
    · rw [List.mem_singleton.mp hnew]
      exact List.mem_cons_self

/-! ## Flow collections -/

section Inline

variable {parseValue : List Byte → YamlDiagnostic → YamlNode × YamlDiagnostic} {lineNo : ℕ}

end Inline

inductive BlockKind where
  | object
  | array

/-- Among the members or among the items that the block keeps, somewhere below, an item
gives its first key again. -/
inductive Repeats : BlockKind → ℕ → List YamlLine → Prop
  | later {kind : BlockKind} {indent : ℕ} {ln : YamlLine} {lines : List YamlLine}
      (hindent : indent ≤ ln.indent) (h : Repeats kind indent lines) :
      Repeats kind indent (ln :: lines)
  | memberValue {kind : BlockKind} {indent : ℕ} {ln : YamlLine} {lines : List YamlLine}
      {key val : List Byte} (hln : ln.indent = indent) (hitem : dashItem ln.content = none)
      (hkey : keyAndValue ln.content = some (key, val)) (hkept : noItems indent lines = true)
      (hempty : trimView val = []) (h : Repeats kind (indent + 2) lines) :
      Repeats .object indent (ln :: lines)
  | emptyItem {kind : BlockKind} {indent : ℕ} {ln : YamlLine} {lines : List YamlLine}
      (hln : ln.indent = indent) (hitem : dashItem ln.content = some [])
      (hkept : noMembers indent lines = true) (h : Repeats kind (indent + 2) lines) :
      Repeats .array indent (ln :: lines)
  | itemValue {kind : BlockKind} {indent : ℕ} {ln : YamlLine} {lines : List YamlLine}
      {item key val : List Byte} (hln : ln.indent = indent)
      (hitem : dashItem ln.content = some item) (hkey : keyAndValue item = some (key, val))
      (hkept : noMembers indent lines = true) (hempty : trimView val = [])
      (h : Repeats kind (indent + 2) lines) : Repeats .array indent (ln :: lines)
  | itemKey {indent : ℕ} {ln next : YamlLine} {lines rest : List YamlLine}
      {item key val : List Byte} (hln : ln.indent = indent)
      (hitem : dashItem ln.content = some item) (hkey : keyAndValue item = some (key, val))
      (hkept : noMembers indent lines = true) (hbehind : linesBehind indent val lines = next :: rest)
      (hdeeper : indent < next.indent) (h : key ∈ blockKeys next.indent (next :: rest)) :
      Repeats .array indent (ln :: lines)
  | itemMembers {indent : ℕ} {ln next : YamlLine} {lines rest : List YamlLine}
      {item key val : List Byte} (hln : ln.indent = indent)
      (hitem : dashItem ln.content = some item) (hkey : keyAndValue item = some (key, val))
      (hkept : noMembers indent lines = true) (hbehind : linesBehind indent val lines = next :: rest)
      (hdeeper : indent < next.indent) (h : Repeats .object next.indent (next :: rest)) :
      Repeats .array indent (ln :: lines)

/-- The block of a key that has nothing behind its colon. -/
def ValueRepeats (indent : ℕ) (val : List Byte) (lines : List YamlLine) : Prop :=
  trimView val = [] ∧ ∃ kind, Repeats kind (indent + 2) lines

def ItemRepeats (indent : ℕ) (item : List Byte) (lines : List YamlLine) : Prop :=
  (item = [] ∧ ∃ kind, Repeats kind (indent + 2) lines) ∨
    ∃ key val, keyAndValue item = some (key, val) ∧
      (ValueRepeats indent val lines ∨
        ∃ next rest, linesBehind indent val lines = next :: rest ∧ indent < next.indent ∧
          (key ∈ blockKeys next.indent (next :: rest) ∨
            Repeats .object next.indent (next :: rest)))

section Lines

variable {indent : ℕ} {ln : YamlLine} {lines rest : List YamlLine} {kind : BlockKind}

theorem repeats_deeper (hdeeper : indent < ln.indent) :
    Repeats kind indent (ln :: lines) ↔ Repeats kind indent lines := by
  constructor
  · intro h
    cases h with
    | later _ h => exact h
    | memberValue hln | emptyItem hln | itemValue hln | itemKey hln | itemMembers hln => omega
  · exact .later hdeeper.le

theorem Below.repeats_iff (h : Below indent lines rest) :
    Repeats kind indent rest ↔ Repeats kind indent lines := by
  rcases h with ⟨front, rfl, hfront⟩
  induction front with
  | nil => rfl
  | cons ln front ih =>
      rw [List.cons_append, repeats_deeper (hfront ln List.mem_cons_self)]
      exact ih fun next hnext => hfront next (List.mem_cons_of_mem ln hnext)

theorem repeats_other (hln : ln.indent = indent) (hitem : dashItem ln.content = none)
    (hkey : keyAndValue ln.content = none) :
    Repeats kind indent (ln :: lines) ↔ Repeats kind indent lines := by
  constructor
  · intro h
    cases h with
    | later _ h => exact h
    | memberValue _ _ hkey' => simp [hkey] at hkey'
    | emptyItem _ hitem' | itemValue _ hitem' | itemKey _ hitem' | itemMembers _ hitem' =>
        simp [hitem] at hitem'
  · exact .later hln.ge

theorem repeats_member {key val : List Byte} (hln : ln.indent = indent)
    (hitem : dashItem ln.content = none) (hkey : keyAndValue ln.content = some (key, val)) :
    Repeats kind indent (ln :: lines) ↔ Repeats kind indent lines ∨
      kind = .object ∧ noItems indent lines = true ∧ ValueRepeats indent val lines := by
  constructor
  · intro h
    cases h with
    | later _ h => exact .inl h
    | memberValue _ _ hkey' hkept hempty h =>
        rw [hkey] at hkey'
        cases hkey'
        exact .inr ⟨rfl, hkept, hempty, _, h⟩
    | emptyItem _ hitem' | itemValue _ hitem' | itemKey _ hitem' | itemMembers _ hitem' =>
        simp [hitem] at hitem'
  · intro h
    rcases h with h | ⟨rfl, hkept, hempty, below, h⟩
    · exact .later hln.ge h
    · exact .memberValue hln hitem hkey hkept hempty h

theorem repeats_item {item : List Byte} (hln : ln.indent = indent)
    (hitem : dashItem ln.content = some item) :
    Repeats kind indent (ln :: lines) ↔ Repeats kind indent lines ∨
      kind = .array ∧ noMembers indent lines = true ∧ ItemRepeats indent item lines := by
  constructor
  · intro h
    cases h with
    | later _ h => exact .inl h
    | memberValue _ hitem' => simp [hitem] at hitem'
    | emptyItem _ hitem' hkept h =>
        cases hitem.symm.trans hitem'
        exact .inr ⟨rfl, hkept, .inl ⟨rfl, _, h⟩⟩
    | itemValue _ hitem' hkey hkept hempty h =>
        cases hitem.symm.trans hitem'
        exact .inr ⟨rfl, hkept, .inr ⟨_, _, hkey, .inl ⟨hempty, _, h⟩⟩⟩
    | itemKey _ hitem' hkey hkept hbehind hdeeper h =>
        cases hitem.symm.trans hitem'
        exact .inr ⟨rfl, hkept, .inr ⟨_, _, hkey, .inr ⟨_, _, hbehind, hdeeper, .inl h⟩⟩⟩
    | itemMembers _ hitem' hkey hkept hbehind hdeeper h =>
        cases hitem.symm.trans hitem'
        exact .inr ⟨rfl, hkept, .inr ⟨_, _, hkey, .inr ⟨_, _, hbehind, hdeeper, .inr h⟩⟩⟩
  · intro h
    rcases h with h | ⟨rfl, hkept, ⟨rfl, below, h⟩ | ⟨key, val, hkey, hvalue | hbelow⟩⟩
    · exact .later hln.ge h
    · exact .emptyItem hln hitem hkept h
    · rcases hvalue with ⟨hempty, below, h⟩
      exact .itemValue hln hitem hkey hkept hempty h
    · rcases hbelow with ⟨next, rest, hbehind, hdeeper, h | h⟩
      · exact .itemKey hln hitem hkey hkept hbehind hdeeper h
      · exact .itemMembers hln hitem hkey hkept hbehind hdeeper h

end Lines

/-! ## What a block becomes -/

def YamlNode.items : YamlNode → List YamlNode
  | .array items => items
  | _ => []

/-- The members that the lines ahead do not throw away. -/
def YamlBlock.keptMembers (b : YamlBlock) (indent : ℕ) (lines : List YamlLine) :
    List (List Byte × YamlNode) :=
  if !b.isArray && noItems indent lines then b.mapping.object else []

def YamlBlock.keptItems (b : YamlBlock) (indent : ℕ) (lines : List YamlLine) : List YamlNode :=
  if b.isArray && noMembers indent lines then b.array else []

/-- The node that the block becomes behind the lines, as far as its keys are concerned. -/
structure Becomes (b : YamlBlock) (indent : ℕ) (lines : List YamlLine) (node : YamlNode) :
    Prop where
  keys : node.extraMembers.map Prod.fst =
    (b.keptMembers indent lines).map Prod.fst ++ blockKeys indent lines
  nodup : (node.extraMembers.map Prod.fst).Nodup
  members : (∀ m ∈ node.extraMembers, m.2.Distinct) ↔
    ¬ Repeats .object indent lines ∧ ∀ m ∈ b.keptMembers indent lines, m.2.Distinct
  items : (∀ item ∈ node.items, item.Distinct) ↔
    ¬ Repeats .array indent lines ∧ ∀ item ∈ b.keptItems indent lines, item.Distinct

section Becomes

variable {b : YamlBlock} {indent : ℕ} {ln : YamlLine} {lines rest : List YamlLine}
  {node : YamlNode}

/-- Lines of children make no difference. -/
theorem Becomes.below (h : Becomes b indent rest node) (hbelow : Below indent lines rest) :
    Becomes b indent lines node := by
  have hmembers : b.keptMembers indent rest = b.keptMembers indent lines := by
    simp only [YamlBlock.keptMembers, hbelow.noItems_eq]
  have hitems : b.keptItems indent rest = b.keptItems indent lines := by
    simp only [YamlBlock.keptItems, hbelow.noMembers_eq]
  constructor
  · rw [h.keys, hmembers, hbelow.blockKeys_eq]
  · exact h.nodup
  · rw [h.members, hmembers, hbelow.repeats_iff]
  · rw [h.items, hitems, hbelow.repeats_iff]

theorem Becomes.other (h : Becomes b indent lines node) (hln : ln.indent = indent)
    (hitem : dashItem ln.content = none) (hkey : keyAndValue ln.content = none) :
    Becomes b indent (ln :: lines) node := by
  have hmembers : b.keptMembers indent (ln :: lines) = b.keptMembers indent lines := by
    simp [YamlBlock.keptMembers, noItems, blockLines_level hln, isItem, hitem]
  have hitems : b.keptItems indent (ln :: lines) = b.keptItems indent lines := by
    simp [YamlBlock.keptItems, noMembers, blockLines_level hln, memberKey, isItem, hitem, hkey]
  have hkeys : blockKeys indent (ln :: lines) = blockKeys indent lines := by
    simp [blockKeys, hln, memberKey, isItem, hitem, hkey]
  constructor
  · rw [h.keys, hmembers, hkeys]
  · exact h.nodup
  · rw [h.members, hmembers, repeats_other hln hitem hkey]
  · rw [h.items, hitems, repeats_other hln hitem hkey]

/-- In front of the lines stands a member with the child as its value. -/
theorem Becomes.member {key val : List Byte} {child : YamlNode}
    (h : Becomes (b.addMember key child) indent lines node) (hln : ln.indent = indent)
    (hitem : dashItem ln.content = none) (hkey : keyAndValue ln.content = some (key, val))
    (hseen : key ∉ b.mapping.seen) (hchild : child.Distinct ↔ ¬ ValueRepeats indent val lines) :
    Becomes b indent (ln :: lines) node := by
  have hmember : memberKey ln = some key := by
    simp [memberKey, isItem, hitem, hkey]
  have hobject : (b.addMember key child).mapping.object =
      (if b.isArray then [] else b.mapping.object) ++ [(key, child)] := by
    unfold YamlBlock.addMember YamlBlock.asObject
    split <;> simp [Mapping.add, hseen]
  have harray : (b.addMember key child).isArray = false := by
    unfold YamlBlock.addMember YamlBlock.asObject
    split <;> simp_all
  have hmembers : (b.addMember key child).keptMembers indent lines =
      b.keptMembers indent (ln :: lines) ++
        if noItems indent lines then [(key, child)] else [] := by
    unfold YamlBlock.keptMembers
    rw [hobject, harray]
    cases hnone : noItems indent lines with
    | true =>
        have hline : noItems indent (ln :: lines) = true := by
          simpa [noItems, blockLines_level hln, isItem, hitem] using hnone
        cases b.isArray <;> simp [hline]
    | false =>
        have hline : noItems indent (ln :: lines) = false := by
          simpa [noItems, blockLines_level hln, isItem, hitem] using hnone
        simp [hline]
  have hkeys : blockKeys indent (ln :: lines) =
      (if noItems indent lines then [key] else []) ++ blockKeys indent lines := by
    cases hnone : noItems indent lines <;> simp [blockKeys, hln, hmember, hnone]
  have hitems : (b.addMember key child).keptItems indent lines = [] := by
    simp [YamlBlock.keptItems, harray]
  have hdropped : b.keptItems indent (ln :: lines) = [] := by
    simp [YamlBlock.keptItems, noMembers, blockLines_level hln, hmember]
  constructor
  · rw [h.keys, hmembers, hkeys]
    cases noItems indent lines <;> simp
  · exact h.nodup
  · rw [h.members, hmembers, repeats_member hln hitem hkey]
    cases hnone : noItems indent lines with
    | true =>
        simp only [if_true, List.forall_mem_append, List.forall_mem_singleton, hchild, true_and]
        tauto
    | false => simp
  · rw [h.items, hitems, hdropped, repeats_member hln hitem hkey]
    simp

/-- In front of the lines stands an item. -/
theorem Becomes.item {text : List Byte} {item : YamlNode}
    (h : Becomes (b.addItem item) indent lines node) (hln : ln.indent = indent)
    (hitem : dashItem ln.content = some text)
    (hdistinct : item.Distinct ↔ ¬ ItemRepeats indent text lines) :
    Becomes b indent (ln :: lines) node := by
  have hmember : memberKey ln = none := by
    simp [memberKey, isItem, hitem]
  have harray : (b.addItem item).isArray = true := by
    unfold YamlBlock.addItem YamlBlock.asArray
    split <;> simp_all
  have hlist : (b.addItem item).array = (if b.isArray then b.array else []) ++ [item] := by
    unfold YamlBlock.addItem YamlBlock.asArray
    split <;> simp_all
  have hitems : (b.addItem item).keptItems indent lines =
      b.keptItems indent (ln :: lines) ++ if noMembers indent lines then [item] else [] := by
    unfold YamlBlock.keptItems
    rw [hlist, harray]
    cases hnone : noMembers indent lines with
    | true =>
        have hline : noMembers indent (ln :: lines) = true := by
          simpa [noMembers, blockLines_level hln, hmember] using hnone
        cases b.isArray <;> simp [hline]
    | false =>
        have hline : noMembers indent (ln :: lines) = false := by
          simpa [noMembers, blockLines_level hln, hmember] using hnone
        simp [hline]
  have hkeys : blockKeys indent (ln :: lines) = blockKeys indent lines := by
    cases hnone : noItems indent lines <;> simp [blockKeys, hln, hmember, hnone]
  have hmembers : (b.addItem item).keptMembers indent lines = [] := by
    simp [YamlBlock.keptMembers, harray]
  have hdropped : b.keptMembers indent (ln :: lines) = [] := by
    simp [YamlBlock.keptMembers, noItems, blockLines_level hln, isItem, hitem]
  constructor
  · rw [h.keys, hmembers, hdropped, hkeys]
  · exact h.nodup
  · rw [h.members, hmembers, hdropped, repeats_item hln hitem]
    simp
  · rw [h.items, hitems, repeats_item hln hitem]
    cases hnone : noMembers indent lines with
    | true =>
        simp only [if_true, List.forall_mem_append, List.forall_mem_singleton, hdistinct, true_and]
        tauto
    | false => simp

end Becomes

/-! ## Reading without a diagnostic -/

section Values

variable {block : ℕ → YamlReader → YamlNode × YamlReader} {bound : ℕ}

end Values

end Serde
end Katana
