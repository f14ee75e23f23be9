import Katana.Serde.FlowStyle

/-!
# Block style

A tree of maps, sequences and words that is written line by line.  The first member of
a map that is an item stands on the line of the dash, and if its value is a block, the
lines of this block are two columns too deep for the reader: it passes over them and
takes the members that follow for the block.  All other members and items are read
back as they were written.
-/

namespace Katana
namespace Serde

open Library
open Library.JsonText (arrayText objectText commaSeparated)
open Http (Byte bytesOf SP LF byte_forall)

/-! ## Trees and their lines -/

def YamlNode.isScalar : YamlNode → Bool
  | .scalar _ => true
  | _ => false

def YamlNode.isArray : YamlNode → Bool
  | .array _ => true
  | _ => false

/-- Maps and sequences are not empty, and items are words or maps. -/
structure YamlNode.IsBlock (node : YamlNode) : Prop where
  isFlow : node.IsFlow
  members : ∀ members, node.Contains (.object members) → members ≠ []
  items : ∀ items, node.Contains (.array items) →
    items ≠ [] ∧ ∀ item ∈ items, item.isArray = false

structure BlockTree where
  node : YamlNode
  isBlock : node.IsBlock

/-- The first line is moved to a dash two columns to the left. -/
def dashed (indent : ℕ) : List YamlLine → List YamlLine
  | [] => []
  | first :: rest => { indent := indent, content := DASH :: SP :: first.content } :: rest

mutual

def nodeLines (indent : ℕ) : YamlNode → List YamlLine
  | .scalar word => [{ indent := indent, content := word }]
  | .object members => memberLines indent members
  | .array items => itemLines indent items

def memberLines (indent : ℕ) : List (List Byte × YamlNode) → List YamlLine
  | [] => []
  | (key, value) :: rest =>
      (match value with
        | .scalar word => [{ indent := indent, content := key ++ bytesOf ": " ++ word }]
        | _ => { indent := indent, content := key ++ [COLON] } :: nodeLines (indent + 2) value) ++
        memberLines indent rest

def itemLines (indent : ℕ) : List YamlNode → List YamlLine
  | [] => []
  | item :: rest => dashed indent (nodeLines (indent + 2) item) ++ itemLines indent rest

end

/-- Every line is ended by a line feed. -/
def blockText (node : YamlNode) : List Byte :=
  (nodeLines 0 node).flatMap fun ln => List.replicate ln.indent SP ++ ln.content ++ [LF]

/-! ## What is read back -/

mutual

/-- The tree that the reader makes of the lines of a block. -/
def readBack : YamlNode → YamlNode
  | .scalar word => .scalar word
  | .object members => .object (readMembers members)
  | .array items => .array (readItems items)

def readMembers : List (List Byte × YamlNode) → List (List Byte × YamlNode)
  | [] => []
  | (key, value) :: rest => (key, readBack value) :: readMembers rest

/-- The block of a first member has been passed over, and the other members are its. -/
def readItem : YamlNode → YamlNode
  | .scalar word => .scalar word
  | .object [] => .object []
  | .object ((key, value) :: others) =>
      if value.isScalar then .object ((key, value) :: readMembers others)
      else .object [(key, .object (readMembers others))]
  | .array items => .array (readItems items)

def readItems : List YamlNode → List YamlNode
  | [] => []
  | item :: rest => readItem item :: readItems rest

end

/-- The first member of a map is a word. -/
def YamlNode.WordFirst (node : YamlNode) : Prop :=
  ∀ m others, node = .object (m :: others) → m.2.isScalar = true

def YamlNode.ItemsWordFirst (node : YamlNode) : Prop :=
  ∀ items, node.Contains (.array items) → ∀ item ∈ items, item.WordFirst

/-- The tree is no bare word, and in no sequence the first member of an item is a map or
a sequence. -/
structure YamlNode.ReadsBack (node : YamlNode) : Prop where
  root : node.isScalar = false
  items : node.ItemsWordFirst

theorem readMembers_eq (members : List (List Byte × YamlNode)) :
    readMembers members = members.map fun m => (m.1, readBack m.2) := by
  induction members with
  | nil => rfl
  | cons m rest ih => rw [readMembers, ih, List.map_cons]

theorem readItems_eq (items : List YamlNode) : readItems items = items.map readItem := by
  induction items with
  | nil => rfl
  | cons item rest ih => rw [readItems, ih, List.map_cons]

theorem readBack_scalar {node : YamlNode} (h : node.isScalar = true) : readBack node = node := by
  cases node with
  | scalar word => rw [readBack]
  | object members => cases h
  | array items => cases h

/-- Only a block at the first place is lost. -/
theorem readItem_wordFirst {node : YamlNode} (h : node.WordFirst) :
    readItem node = readBack node := by
  cases node with
  | scalar word => rw [readItem, readBack]
  | array items => rw [readItem, readBack]
  | object members =>
      cases members with
      | nil => rw [readItem, readBack, readMembers]
      | cons m others =>
          rcases m with ⟨key, value⟩
          have hword : value.isScalar = true := h _ _ rfl
          rw [readItem, if_pos hword, readBack, readMembers, readBack_scalar hword]

theorem readItem_blockFirst {value : YamlNode} (hvalue : value.isScalar = false) (key : List Byte)
    (others : List (List Byte × YamlNode)) :
    readItem (.object ((key, value) :: others)) =
      .object [(key, .object (readMembers others))] := by
  rw [readItem, hvalue, if_neg Bool.false_ne_true]

theorem wordFirst_or (node : YamlNode) :
    node.WordFirst ∨ ∃ key value others, node = .object ((key, value) :: others) ∧
      value.isScalar = false := by
  rcases node with word | ⟨_ | ⟨⟨key, value⟩, others⟩⟩ | items
  · exact .inl fun m others h => by cases h
  · exact .inl fun m others h => by cases h
  · cases hvalue : value.isScalar with
    | true =>
        left
        intro m more h
        cases h
        exact hvalue
    | false => exact .inr ⟨key, value, others, rfl, hvalue⟩
  · exact .inl fun m others h => by cases h

theorem YamlNode.IsBlock.member {members : List (List Byte × YamlNode)}
    (h : (YamlNode.object members).IsBlock) {m : List Byte × YamlNode} (hm : m ∈ members) :
    IsWord m.1 ∧ m.2.IsBlock :=
  ⟨(h.isFlow.member hm).1, (h.isFlow.member hm).2,
    fun below hbelow => h.members below (.member hm hbelow),
    fun below hbelow => h.items below (.member hm hbelow)⟩

theorem YamlNode.IsBlock.item {items : List YamlNode} (h : (YamlNode.array items).IsBlock)
    {item : YamlNode} (hitem : item ∈ items) : item.IsBlock ∧ item.isArray = false :=
  ⟨⟨h.isFlow.item hitem, fun below hbelow => h.members below (.item hitem hbelow),
    fun below hbelow => h.items below (.item hitem hbelow)⟩, (h.items items (.self _)).2 item hitem⟩

theorem YamlNode.IsBlock.word {word : List Byte} (h : (YamlNode.scalar word).IsBlock) :
    IsWord word :=
  h.isFlow.scalars word (.self _)

/-! ## Lines -/

theorem alphanumeric_line : ∀ c : Byte, isAlphanumeric c = true →
    c ≠ DASH ∧ c ≠ HASH ∧ c ≠ LF := by
  apply byte_forall
  decide +kernel

section Contents

variable {key word content : List Byte}

theorem keyAndValue_word (hkey : IsWord key) (hword : IsWord word) :
    keyAndValue (key ++ bytesOf ": " ++ word) = some (key, word) := by
  have hflow : (YamlNode.scalar word).IsFlow := by
    constructor
    · intro value hvalue
      cases hvalue
      exact hword
    · intro members hmembers
      cases hmembers
    · exact distinct_scalar word
  simpa [flowMember, flowText] using keyAndValue_flowMember (m := (key, .scalar word)) hkey hflow

theorem keyAndValue_block (hkey : IsWord key) : keyAndValue (key ++ [COLON]) = some (key, []) := by
  have hcolon : (key ++ [COLON]).idxOf? COLON = some key.length := by
    rw [List.idxOf?_eq_some_iff]
    refine ⟨by simp, by simp, fun j hj => ?_⟩
    rw [List.getElem_append_left hj]
    exact (alphanumeric_facts _ (hkey.2 _ (List.getElem_mem hj))).1.2.2.2
  have hbehind : (key ++ [COLON]).drop (key.length + 1) = [] := by
    simp
  rw [keyAndValue, hcolon, Option.map_some, hbehind, List.take_left, normalizeKey,
    hkey.tight.trimView, dropQuotes_word hkey]
  rfl

theorem keyAndValue_none (hword : IsWord word) : keyAndValue word = none := by
  have hno : word.idxOf? COLON = none := by
    rw [List.idxOf?_eq_none_iff]
    intro hmem
    exact (alphanumeric_facts _ (hword.2 _ hmem)).1.2.2.2 rfl
  rw [keyAndValue, hno, Option.map_none]

theorem dashItem_none (hkey : IsWord key) (more : List Byte) : dashItem (key ++ more) = none := by
  obtain ⟨c, rest, rfl⟩ := List.exists_cons_of_ne_nil hkey.1
  have hc := (alphanumeric_line c (hkey.2 c List.mem_cons_self)).1
  simp [dashItem, hc]

theorem dashItem_dashed (h : Tight content) : dashItem (DASH :: SP :: content) = some content := by
  simp [dashItem, h.trimView]

theorem tight_member (hkey : IsWord key) (hword : IsWord word) :
    Tight (key ++ bytesOf ": " ++ word) :=
  hkey.tight.join hword.tight _

theorem tight_key (hkey : IsWord key) : Tight (key ++ [COLON]) := by
  have hcolon : Tight [COLON] := ⟨⟨COLON, [], rfl, rfl⟩, [], COLON, rfl, rfl⟩
  simpa using hkey.tight.join hcolon []

theorem parseYamlValue_word {block : ℕ → YamlReader → YamlNode × YamlReader} (hword : IsWord word)
    (indent lineNo : ℕ) (r : YamlReader) :
    parseYamlValue block word indent lineNo r = (.scalar word, r) := by
  obtain ⟨c, rest, rfl⟩ := List.exists_cons_of_ne_nil hword.1
  have hc := (alphanumeric_facts c (hword.2 c List.mem_cons_self)).2.1
  simp [parseYamlValue, hword.tight.trimView, isFlowMap, isFlowSequence, hc.1, hc.2.1]

theorem parseYamlValue_nil (block : ℕ → YamlReader → YamlNode × YamlReader) (indent lineNo : ℕ)
    (r : YamlReader) : parseYamlValue block [] indent lineNo r = block (indent + 2) r :=
  rfl

end Contents

/-! ## Reading lines -/

/-- The block is read from the lines and leaves the rest; nothing is diagnosed. -/
def Reads (passes : ℕ) (b : YamlBlock) (indent : ℕ) (lines : List YamlLine) (node : YamlNode)
    (rest : List YamlLine) : Prop :=
  ∀ idx diag, ∃ idx', parseBlockWith passes b indent { lines := lines, idx := idx, diag := diag } =
    (node, { lines := rest, idx := idx', diag := diag })

/-- The lines are over, or go on at most so deep. -/
def Ends (indent : ℕ) (lines : List YamlLine) : Prop :=
  ∀ ln ∈ lines.head?, ln.indent ≤ indent

section Reads

variable {passes indent : ℕ} {b : YamlBlock} {ln : YamlLine} {lines more rest : List YamlLine}
  {node child : YamlNode} {key word : List Byte}

theorem Reads.over (hends : ∀ ln ∈ lines.head?, ln.indent < indent) :
    Reads passes b indent lines b.node lines := by
  intro idx diag
  refine ⟨idx, ?_⟩
  cases passes with
  | zero => rfl
  | succ passes =>
      cases lines with
      | nil => rfl
      | cons ln lines =>
          have hless : ln.indent < indent := hends ln (by simp)
          rw [parseBlockWith]
          simp [hless]

theorem Reads.deeper (hdeeper : indent < ln.indent) (h : Reads passes b indent lines node rest) :
    Reads (passes + 1) b indent (ln :: lines) node rest := by
  intro idx diag
  rcases h (idx + 1) diag with ⟨idx', hread⟩
  refine ⟨idx', ?_⟩
  rw [parseBlockWith]
  simp only [hdeeper.not_gt, if_false, hdeeper, if_true]
  exact hread

/-- All lines of a list are deeper. -/
theorem Reads.skip {front : List YamlLine} (hdeeper : ∀ ln ∈ front, indent < ln.indent)
    (h : Reads passes b indent lines node rest) :
    Reads (passes + front.length) b indent (front ++ lines) node rest := by
  induction front with
  | nil => exact h
  | cons ln front ih =>
      rw [List.length_cons, ← Nat.add_assoc, List.cons_append]
      apply Reads.deeper (hdeeper ln List.mem_cons_self)
      exact ih fun next hnext => hdeeper next (List.mem_cons_of_mem ln hnext)

/-- A line that is a member, whose value takes the lines up to `more`. -/
theorem Reads.member {content val : List Byte} (hdash : dashItem content = none)
    (hkey : keyAndValue content = some (key, val)) (hseen : key ∉ b.mapping.seen)
    (hvalue : ∀ lineNo idx diag, ∃ idx', parseYamlValue (parseBlockWith passes {}) val indent lineNo
      { lines := lines, idx := idx, diag := diag } =
        (child, { lines := more, idx := idx', diag := diag }))
    (h : Reads passes (b.addMember key child) indent more node rest) :
    Reads (passes + 1) b indent ({ indent := indent, content := content } :: lines) node rest := by
  intro idx diag
  rcases hvalue (idx + 1) (idx + 1) diag with ⟨idx', hchild⟩
  rcases h idx' diag with ⟨idx'', hread⟩
  refine ⟨idx'', ?_⟩
  rw [parseBlockWith]
  simp only [lt_irrefl, if_false, hdash, hkey]
  simp only [YamlReader.next, List.tail_cons]
  rw [hchild]
  simp only [hseen, if_false]
  exact hread

theorem Reads.wordMember (hkey : IsWord key) (hword : IsWord word) (hseen : key ∉ b.mapping.seen)
    (h : Reads passes (b.addMember key (.scalar word)) indent lines node rest) :
    Reads (passes + 1) b indent
      ({ indent := indent, content := key ++ bytesOf ": " ++ word } :: lines) node rest := by
  apply Reads.member _ (keyAndValue_word hkey hword) hseen _ h
  · rw [List.append_assoc]
    exact dashItem_none hkey _
  · intro lineNo idx diag
    exact ⟨idx, parseYamlValue_word hword indent lineNo _⟩

theorem Reads.blockMember (hkey : IsWord key) (hseen : key ∉ b.mapping.seen)
    (hchild : Reads passes {} (indent + 2) lines child more)
    (h : Reads passes (b.addMember key child) indent more node rest) :
    Reads (passes + 1) b indent ({ indent := indent, content := key ++ [COLON] } :: lines) node
      rest := by
  apply Reads.member (dashItem_none hkey _) (keyAndValue_block hkey) hseen _ h
  intro lineNo idx diag
  exact hchild idx diag

/-- A line that is an item, whose node takes the lines up to `more`. -/
theorem Reads.item {content : List Byte} (htight : Tight content)
    (hitem : ∀ lineNo idx diag, ∃ idx', parseItem (parseBlockWith passes {}) content indent lineNo
      { lines := lines, idx := idx, diag := diag } =
        (child, { lines := more, idx := idx', diag := diag }))
    (h : Reads passes (b.addItem child) indent more node rest) :
    Reads (passes + 1) b indent
      ({ indent := indent, content := DASH :: SP :: content } :: lines) node rest := by
  intro idx diag
  rcases hitem (idx + 1) (idx + 1) diag with ⟨idx', hchild⟩
  rcases h idx' diag with ⟨idx'', hread⟩
  refine ⟨idx'', ?_⟩
  rw [parseBlockWith]
  simp only [lt_irrefl, if_false, dashItem_dashed htight]
  simp only [YamlReader.next, List.tail_cons]
  rw [hchild]
  exact hread

theorem Reads.itemWord (hword : IsWord word)
    (h : Reads passes (b.addItem (.scalar word)) indent lines node rest) :
    Reads (passes + 1) b indent
      ({ indent := indent, content := DASH :: SP :: word } :: lines) node rest := by
  apply Reads.item hword.tight _ h
  intro lineNo idx diag
  refine ⟨idx, ?_⟩
  simp [parseItem, hword.1, keyAndValue_none hword]

/-- Behind an item that ends with its line there is nothing more for it. -/
theorem parseExtra_ends {block : ℕ → YamlReader → YamlNode × YamlReader} (hends : Ends indent lines)
    (idx : ℕ) (diag : YamlDiagnostic) :
    parseExtra block indent { lines := lines, idx := idx, diag := diag } =
      ([], { lines := lines, idx := idx, diag := diag }) := by
  cases lines with
  | nil => rfl
  | cons ln lines =>
      have hle : ln.indent ≤ indent := hends ln (by simp)
      simp [parseExtra, hle.not_gt]

/-- An item of one member, which is a word. -/
theorem Reads.itemLast (hkey : IsWord key) (hword : IsWord word) (hends : Ends indent lines)
    (h : Reads passes (b.addItem (.object [(key, .scalar word)])) indent lines node rest) :
    Reads (passes + 1) b indent
      ({ indent := indent, content := DASH :: SP :: (key ++ bytesOf ": " ++ word) } :: lines)
      node rest := by
  apply Reads.item (tight_member hkey hword) _ h
  intro lineNo idx diag
  refine ⟨idx, ?_⟩
  rw [parseItem, if_neg (by simp [hkey.1]), keyAndValue_word hkey hword]
  simp only [parseYamlValue_word hword, parseExtra_ends hends]

/-- An item with a word first and other members below. -/
theorem Reads.itemFirst {others : List (List Byte × YamlNode)} (hkey : IsWord key)
    (hword : IsWord word) (hdeeper : indent < ln.indent)
    (hothers : Reads passes {} ln.indent (ln :: lines) (.object others) more)
    (h : Reads passes (b.addItem (.object ((key, .scalar word) :: others))) indent more node rest) :
    Reads (passes + 1) b indent
      ({ indent := indent, content := DASH :: SP :: (key ++ bytesOf ": " ++ word) } :: ln :: lines)
      node rest := by
  apply Reads.item (tight_member hkey hword) _ h
  intro lineNo idx diag
  rcases hothers idx diag with ⟨idx', hread⟩
  refine ⟨idx', ?_⟩
  rw [parseItem, if_neg (by simp [hkey.1]), keyAndValue_word hkey hword]
  simp only [parseYamlValue_word hword, parseExtra, hdeeper, if_true, hread, YamlNode.extraMembers]

/-- An item with a block first. -/
theorem Reads.itemBlock (hkey : IsWord key) (hchild : Reads passes {} (indent + 2) lines child more)
    (hends : Ends indent more)
    (h : Reads passes (b.addItem (.object [(key, child)])) indent more node rest) :
    Reads (passes + 1) b indent
      ({ indent := indent, content := DASH :: SP :: (key ++ [COLON]) } :: lines) node rest := by
  apply Reads.item (tight_key hkey) _ h
  intro lineNo idx diag
  rcases hchild idx diag with ⟨idx', hread⟩
  refine ⟨idx', ?_⟩
  rw [parseItem, if_neg (by simp), keyAndValue_block hkey]
  simp only [parseYamlValue_nil, hread, parseExtra_ends hends]

end Reads

/-! ## Whole blocks -/

section Blocks

variable {indent : ℕ} {rest : List YamlLine} {value : YamlNode}

theorem memberLines_block (hvalue : value.isScalar = false) (indent : ℕ) (key : List Byte)
    (others : List (List Byte × YamlNode)) :
    memberLines indent ((key, value) :: others) =
      { indent := indent, content := key ++ [COLON] } :: (nodeLines (indent + 2) value ++
        memberLines indent others) := by
  cases value with
  | scalar word => cases hvalue
  | object members => rfl
  | array items => rfl

/-- What is true of the line of every member and of the lines below it. -/
theorem forall_memberLines {P : YamlLine → Prop} {members : List (List Byte × YamlNode)}
    (hword : ∀ m ∈ members, ∀ word, m.2 = .scalar word →
      P { indent := indent, content := m.1 ++ bytesOf ": " ++ word })
    (hblock : ∀ m ∈ members, P { indent := indent, content := m.1 ++ [COLON] })
    (hbelow : ∀ m ∈ members, ∀ ln ∈ nodeLines (indent + 2) m.2, P ln) :
    ∀ ln ∈ memberLines indent members, P ln := by
  induction members with
  | nil =>
      intro ln hln
      cases hln
  | cons m others ih =>
      have hothers := ih (fun other hother => hword other (List.mem_cons_of_mem m hother))
        (fun other hother => hblock other (List.mem_cons_of_mem m hother))
        (fun other hother => hbelow other (List.mem_cons_of_mem m hother))
      have hfirst := hblock m List.mem_cons_self
      cases hvalue : m.2.isScalar with
      | true =>
          rcases m with ⟨key, word | members | items⟩
          · exact List.forall_mem_cons.mpr ⟨hword _ List.mem_cons_self word rfl, hothers⟩
          · cases hvalue
          · cases hvalue
      | false =>
          rw [memberLines_block hvalue]
          refine List.forall_mem_cons.mpr ⟨hfirst, ?_⟩
          intro ln hln
          rcases List.mem_append.mp hln with hdeep | hbehind
          · exact hbelow m List.mem_cons_self ln hdeep
          · exact hothers ln hbehind

/-- What is true of the lines of every item, with or without a dash. -/
theorem forall_itemLines {P : YamlLine → Prop} {items : List YamlNode}
    (hlines : ∀ item ∈ items, ∀ ln ∈ nodeLines (indent + 2) item,
      P ln ∧ P { indent := indent, content := DASH :: SP :: ln.content }) :
    ∀ ln ∈ itemLines indent items, P ln := by
  induction items with
  | nil =>
      intro ln hln
      cases hln
  | cons item others ih =>
      have hitem := hlines item List.mem_cons_self
      intro ln hln
      rw [itemLines] at hln
      rcases List.mem_append.mp hln with hfirst | hbehind
      · cases hbelow : nodeLines (indent + 2) item with
        | nil =>
            rw [hbelow] at hfirst
            cases hfirst
        | cons first below =>
            rw [hbelow] at hfirst hitem
            rcases List.mem_cons.mp hfirst with rfl | hdeep
            · exact (hitem first List.mem_cons_self).2
            · exact (hitem ln (List.mem_cons_of_mem first hdeep)).1
      · exact ih (fun other hother => hlines other (List.mem_cons_of_mem item hother)) ln hbehind

/-- No line is less deep than its block. -/
theorem nodeLines_deep (node : YamlNode) (indent : ℕ) :
    ∀ ln ∈ nodeLines indent node, indent ≤ ln.indent := by
  induction node using YamlNode.byChildren generalizing indent with
  | scalar word =>
      intro ln hln
      rw [List.mem_singleton.mp hln]
  | object members ih =>
      rw [nodeLines]
      apply forall_memberLines
      · exact fun m hm word hword => le_rfl
      · exact fun m hm => le_rfl
      · intro m hm ln hln
        exact (Nat.le_add_right indent 2).trans (ih m hm (indent + 2) ln hln)
  | array items ih =>
      rw [nodeLines]
      apply forall_itemLines
      intro item hitem ln hln
      exact ⟨(Nat.le_add_right indent 2).trans (ih item hitem (indent + 2) ln hln), le_rfl⟩

theorem memberLines_cons (indent : ℕ) (m : List Byte × YamlNode)
    (others : List (List Byte × YamlNode)) :
    ∃ first below, memberLines indent (m :: others) = first :: below ∧ first.indent = indent := by
  rcases m with ⟨key, word | members | items⟩
  · exact ⟨_, _, rfl, rfl⟩
  · exact ⟨_, _, rfl, rfl⟩
  · exact ⟨_, _, rfl, rfl⟩

/-- Where the members of a block are over or go on, a block below them ends. -/
theorem ends_memberLines (members : List (List Byte × YamlNode)) (hends : Ends indent rest) :
    Ends indent (memberLines indent members ++ rest) := by
  cases members with
  | nil => exact hends
  | cons m others =>
      rcases memberLines_cons indent m others with ⟨first, below, hlines, hfirst⟩
      intro ln hln
      rw [hlines, List.cons_append, List.head?_cons, Option.mem_some_iff] at hln
      rw [← hln, hfirst]

theorem ends_itemLines (items : List YamlNode) (hends : Ends indent rest) :
    Ends indent (itemLines indent items ++ rest) := by
  induction items with
  | nil => exact hends
  | cons item others ih =>
      rw [itemLines]
      cases nodeLines (indent + 2) item with
      | nil => exact ih
      | cons first below =>
          intro ln hln
          simp only [dashed, List.cons_append, List.head?_cons, Option.mem_some_iff] at hln
          rw [← hln]

/-- The lines of the block are read from wherever they stand. -/
def ReadsBlock (node : YamlNode) : Prop :=
  node.isScalar = false → ∀ indent passes rest, (nodeLines indent node).length ≤ passes →
    (∀ ln ∈ rest.head?, ln.indent < indent) →
      Reads passes {} indent (nodeLines indent node ++ rest) (readBack node) rest

theorem addMember_new {b : YamlBlock} (hmap : b.isArray = false) {key : List Byte}
    (hnew : key ∉ b.mapping.seen) (child : YamlNode) :
    b.addMember key child =
      { b with mapping := { object := b.mapping.object ++ [(key, child)],
                            seen := key :: b.mapping.seen } } := by
  simp [YamlBlock.addMember, YamlBlock.asObject, Mapping.add, hmap, hnew]

/-- The members are read one after the other into a map. -/
theorem reads_memberLines {members : List (List Byte × YamlNode)}
    (hwords : ∀ m ∈ members, IsWord m.1 ∧ m.2.IsBlock) (hblocks : ∀ m ∈ members, ReadsBlock m.2)
    {b : YamlBlock} (hmap : b.isArray = false) (hnodup : (members.map Prod.fst).Nodup)
    (hseen : ∀ m ∈ members, m.1 ∉ b.mapping.seen) {passes : ℕ}
    (hpasses : (memberLines indent members).length ≤ passes)
    (hrest : ∀ ln ∈ rest.head?, ln.indent < indent) :
    Reads passes b indent (memberLines indent members ++ rest)
      (.object (b.mapping.object ++ readMembers members)) rest := by
  induction members generalizing b passes with
  | nil =>
      have hover : Reads passes b indent rest b.node rest := Reads.over hrest
      simpa [YamlBlock.node, hmap, memberLines, readMembers] using hover
  | cons m others ih =>
      rcases m with ⟨key, value⟩
      have hkey : IsWord key := (hwords _ List.mem_cons_self).1
      have hnew : key ∉ b.mapping.seen := hseen _ List.mem_cons_self
      rw [List.map_cons, List.nodup_cons] at hnodup
      have hadded := addMember_new hmap hnew (readBack value)
      have hothers (passes : ℕ) (hpasses : (memberLines indent others).length ≤ passes) :
          Reads passes (b.addMember key (readBack value)) indent (memberLines indent others ++ rest)
            (.object (b.mapping.object ++ readMembers ((key, value) :: others))) rest := by
        have hread := ih (b := b.addMember key (readBack value))
          (fun other hother => hwords other (List.mem_cons_of_mem _ hother))
          (fun other hother => hblocks other (List.mem_cons_of_mem _ hother))
        rw [readMembers, List.append_cons]
        rw [hadded] at hread ⊢
        apply hread hmap hnodup.2 _ hpasses
        intro other hother hagain
        rcases List.mem_cons.mp hagain with hsame | hbefore
        · exact hnodup.1 (List.mem_map.mpr ⟨other, hother, hsame⟩)
        · exact hseen other (List.mem_cons_of_mem _ hother) hbefore
      cases hvalue : value.isScalar with
      | true =>
          cases value with
          | scalar word =>
              rw [memberLines, List.cons_append, List.length_cons, List.nil_append] at hpasses
              rcases Nat.exists_eq_add_of_lt hpasses with ⟨extra, rfl⟩
              apply Reads.wordMember hkey (hwords _ List.mem_cons_self).2.word hnew
              exact hothers _ (by omega)
          | object members => cases hvalue
          | array items => cases hvalue
      | false =>
          rw [memberLines_block hvalue] at hpasses ⊢
          rw [List.length_cons, List.length_append] at hpasses
          rcases Nat.exists_eq_add_of_lt hpasses with ⟨extra, rfl⟩
          rw [List.cons_append, List.append_assoc]
          have hends : Ends indent (memberLines indent others ++ rest) :=
            ends_memberLines others fun ln hln => (hrest ln hln).le
          apply Reads.blockMember hkey hnew _ (hothers _ (by omega))
          apply hblocks (key, value) List.mem_cons_self hvalue (indent + 2) _ _ (by simp; omega)
          intro ln hln
          exact Nat.lt_add_right 1 (Nat.lt_succ_of_le (hends ln hln))

theorem isArray_addItem (b : YamlBlock) (item : YamlNode) : (b.addItem item).isArray = true := by
  unfold YamlBlock.addItem YamlBlock.asArray
  split
  next h => exact h
  next h => rfl

theorem asArray_addItem (b : YamlBlock) (item : YamlNode) :
    (b.addItem item).asArray.array = b.asArray.array ++ [item] := by
  rw [YamlBlock.asArray, if_pos (isArray_addItem b item), YamlBlock.addItem]

theorem node_asArray {b : YamlBlock} (harray : b.isArray = true) :
    b.node = .array b.asArray.array := by
  simp [YamlBlock.node, YamlBlock.asArray, harray]

/-- The rest of an item with a block first is read in place of this block. -/
theorem reads_itemBlock {key : List Byte} {others : List (List Byte × YamlNode)} {passes : ℕ}
    {b : YamlBlock} {node : YamlNode} {lines behind : List YamlLine} (hkey : IsWord key)
    (hothers : ∀ passes, (memberLines (indent + 2) others).length ≤ passes →
      Reads passes {} (indent + 2) (memberLines (indent + 2) others ++ lines)
        (.object (readMembers others)) lines)
    (hpasses : (nodeLines (indent + 4) value).length +
      (memberLines (indent + 2) others).length ≤ passes) (hends : Ends indent lines)
    (h : Reads passes (b.addItem (.object [(key, .object (readMembers others))])) indent lines node
      behind) :
    Reads (passes + 1) b indent
      ({ indent := indent, content := DASH :: SP :: (key ++ [COLON]) } ::
        (nodeLines (indent + 4) value ++ (memberLines (indent + 2) others ++ lines))) node
      behind := by
  apply Reads.itemBlock hkey _ hends h
  rcases Nat.exists_eq_add_of_le hpasses with ⟨extra, rfl⟩
  have hdeeper : ∀ ln ∈ nodeLines (indent + 4) value, indent + 2 < ln.indent := by
    intro ln hln
    have hdeep := nodeLines_deep value (indent + 4) ln hln
    omega
  have hread := hothers ((memberLines (indent + 2) others).length + extra) (Nat.le_add_right _ _)
  have htotal : (nodeLines (indent + 4) value).length + (memberLines (indent + 2) others).length +
      extra = (memberLines (indent + 2) others).length + extra +
        (nodeLines (indent + 4) value).length := by
    omega
  rw [htotal]
  exact Reads.skip hdeeper hread

/-- One item and what is read behind it. -/
theorem reads_itemLine {item : YamlNode} (hitem : item.IsBlock) (hnoArray : item.isArray = false)
    (hblocks : ∀ members, item = .object members → ∀ m ∈ members, ReadsBlock m.2) {passes : ℕ}
    {b : YamlBlock} {node : YamlNode} {lines behind : List YamlLine}
    (hpasses : (dashed indent (nodeLines (indent + 2) item)).length ≤ passes + 1)
    (hends : Ends indent lines)
    (h : Reads passes (b.addItem (readItem item)) indent lines node behind) :
    Reads (passes + 1) b indent (dashed indent (nodeLines (indent + 2) item) ++ lines) node
      behind := by
  cases item with
  | scalar word => exact Reads.itemWord hitem.word h
  | array items => cases hnoArray
  | object members =>
      cases members with
      | nil => exact absurd rfl (hitem.members [] (.self _))
      | cons m others =>
          rcases m with ⟨key, value⟩
          have hmember := hitem.member (m := (key, value)) List.mem_cons_self
          have hkeys := ((distinct_object _).mp hitem.isFlow.distinct).1
          have hothers (passes : ℕ) (hpasses : (memberLines (indent + 2) others).length ≤ passes) :
              Reads passes {} (indent + 2) (memberLines (indent + 2) others ++ lines)
                (.object (readMembers others)) lines := by
            apply reads_memberLines
              (fun other hother => hitem.member (List.mem_cons_of_mem _ hother))
              (fun other hother => hblocks _ rfl other (List.mem_cons_of_mem _ hother)) rfl
              (List.nodup_cons.mp hkeys).2 (fun other hother => List.not_mem_nil) hpasses
            intro ln hln
            exact Nat.lt_add_right 1 (Nat.lt_succ_of_le (hends ln hln))
          cases hvalue : value.isScalar with
          | false =>
              rw [nodeLines, memberLines_block hvalue, dashed] at hpasses ⊢
              rw [readItem_blockFirst hvalue] at h
              rw [List.cons_append, List.append_assoc]
              simp only [List.length_cons, List.length_append] at hpasses
              exact reads_itemBlock hmember.1 hothers (Nat.le_of_succ_le_succ hpasses) hends h
          | true =>
              cases value with
              | object members => cases hvalue
              | array items => cases hvalue
              | scalar word =>
                  have hword : IsWord word := hmember.2.word
                  cases others with
                  | nil => exact Reads.itemLast hmember.1 hword hends h
                  | cons next others =>
                      rcases memberLines_cons (indent + 2) next others with
                        ⟨first, below, hlines, hfirst⟩
                      rw [nodeLines, memberLines, List.singleton_append, dashed] at hpasses ⊢
                      rw [List.length_cons] at hpasses
                      have hread := hothers passes (Nat.le_of_succ_le_succ hpasses)
                      rw [hlines, ← hfirst] at hread
                      rw [hlines, List.cons_append]
                      exact Reads.itemFirst hmember.1 hword (by omega) hread h

theorem length_dashed_pos {item : YamlNode} (hitem : item.IsBlock) (hnoArray : item.isArray = false)
    (indent : ℕ) : 0 < (dashed indent (nodeLines (indent + 2) item)).length := by
  cases item with
  | scalar word => exact Nat.one_pos
  | array items => cases hnoArray
  | object members =>
      cases members with
      | nil => exact absurd rfl (hitem.members [] (.self _))
      | cons m others =>
          rcases memberLines_cons (indent + 2) m others with ⟨first, below, hlines, -⟩
          rw [nodeLines, hlines, dashed]
          exact Nat.succ_pos _

/-- The items are read one after the other into an array. -/
theorem reads_itemLines {items : List YamlNode}
    (hitems : ∀ item ∈ items, item.IsBlock ∧ item.isArray = false)
    (hblocks : ∀ item ∈ items, ∀ members, item = .object members → ∀ m ∈ members, ReadsBlock m.2)
    {b : YamlBlock} (harray : b.isArray = true ∨ items ≠ []) {passes : ℕ}
    (hpasses : (itemLines indent items).length ≤ passes)
    (hrest : ∀ ln ∈ rest.head?, ln.indent < indent) :
    Reads passes b indent (itemLines indent items ++ rest)
      (.array (b.asArray.array ++ readItems items)) rest := by
  induction items generalizing b passes with
  | nil =>
      have hover : Reads passes b indent rest b.node rest := Reads.over hrest
      rw [node_asArray (harray.resolve_right fun hnil => hnil rfl)] at hover
      simpa [itemLines, readItems] using hover
  | cons item others ih =>
      have hitem := hitems item List.mem_cons_self
      have hpos := length_dashed_pos hitem.1 hitem.2 indent
      rw [itemLines, List.length_append] at hpasses
      rw [itemLines, List.append_assoc, readItems, List.append_cons]
      rcases Nat.exists_eq_succ_of_ne_zero (by omega : passes ≠ 0) with ⟨passes, rfl⟩
      have hends : Ends indent (itemLines indent others ++ rest) :=
        ends_itemLines others fun ln hln => (hrest ln hln).le
      apply reads_itemLine hitem.1 hitem.2 (hblocks item List.mem_cons_self) (by omega) hends
      rw [← asArray_addItem]
      exact ih (fun other hother => hitems other (List.mem_cons_of_mem item hother))
        (fun other hother => hblocks other (List.mem_cons_of_mem item hother))
        (.inl (isArray_addItem b _)) (by omega)

/-- What the reader makes of the lines of any block. -/
theorem readsBlock {node : YamlNode} (h : node.IsBlock) : ReadsBlock node := by
  have hall : ∀ below, node.Contains below → ReadsBlock below := by
    induction node using YamlNode.byChildren with
    | scalar word =>
        intro below hbelow hblock
        cases hbelow
        cases hblock
    | object members ih =>
        have hmembers (m : List Byte × YamlNode) (hm : m ∈ members) := ih m hm (h.member hm).2
        intro below hbelow
        cases hbelow with
        | member hm hbelow => exact hmembers _ hm below hbelow
        | self =>
            intro hblock indent passes rest hpasses hrest
            have hkeys := ((distinct_object members).mp h.isFlow.distinct).1
            exact reads_memberLines (fun m hm => h.member hm)
              (fun m hm => hmembers m hm _ (.self _)) rfl hkeys (fun m hm => List.not_mem_nil) hpasses hrest
    | array items ih =>
        have hitems (item : YamlNode) (hitem : item ∈ items) := ih item hitem (h.item hitem).1
        intro below hbelow
        cases hbelow with
        | item hitem hbelow => exact hitems _ hitem below hbelow
        | self =>
            intro hblock indent passes rest hpasses hrest
            apply reads_itemLines (fun item hitem => h.item hitem) _
              (.inr (h.items items (.self _)).1) hpasses hrest
            rintro item hitem members rfl m hm
            exact hitems _ hitem m.2 (.member hm (.self _))
  exact hall node (.self node)

end Blocks

/-! ## The text and its lines -/

/-- The line is found again in the text. -/
structure YamlLine.IsPlain (ln : YamlLine) : Prop where
  tight : Tight ln.content
  noBreak : LF ∉ ln.content
  noComment : ln.content.head? ≠ some HASH

def YamlLine.text (ln : YamlLine) : List Byte :=
  List.replicate ln.indent SP ++ ln.content

theorem YamlLine.IsPlain.yamlLine {ln : YamlLine} (h : ln.IsPlain) :
    yamlLine ln.text = some ln := by
  have hne := h.tight.ne_nil
  rcases h.tight.first with ⟨c, rest, hcontent, hc⟩
  have hblank : c ≠ SP := by
    rintro rfl
    cases hc
  have hspaces : ln.text.takeWhile (· = SP) = List.replicate ln.indent SP := by
    rw [YamlLine.text, hcontent, List.takeWhile_append_of_pos (by simp),
      List.takeWhile_cons_of_neg (by simpa using hblank), List.append_nil]
  have hbehind : ln.text.drop ln.indent = ln.content := by
    simp [YamlLine.text]
  rw [Serde.yamlLine, hspaces, List.length_replicate, hbehind, h.tight.trimView]
  simp [YamlLine.text, hne, h.noComment]

theorem splitOn_lines {lines : List YamlLine} (h : ∀ ln ∈ lines, ln.IsPlain) :
    (lines.flatMap fun ln => ln.text ++ [LF]).splitOn LF = lines.map YamlLine.text ++ [[]] := by
  induction lines with
  | nil => rfl
  | cons ln rest ih =>
      have hln := h ln List.mem_cons_self
      have hbreak : LF ∉ ln.text := by
        intro hmem
        rcases List.mem_append.mp hmem with hspace | hcontent
        · cases List.eq_of_mem_replicate hspace
        · exact hln.noBreak hcontent
      rw [List.flatMap_cons, List.append_assoc, List.singleton_append,
        List.splitOn_append_cons_self_of_not_mem hbreak,
        ih fun next hnext => h next (List.mem_cons_of_mem ln hnext)]
      rfl

theorem filterMap_text {lines : List YamlLine} (h : ∀ ln ∈ lines, ln.IsPlain) :
    (lines.map YamlLine.text).filterMap yamlLine = lines := by
  induction lines with
  | nil => rfl
  | cons ln rest ih =>
      rw [List.map_cons, List.filterMap_cons_some (h ln List.mem_cons_self).yamlLine,
        ih fun next hnext => h next (List.mem_cons_of_mem ln hnext)]

theorem isPlain_content {content : List Byte} (htight : Tight content)
    (hbytes : ∀ c ∈ content, isAlphanumeric c = true ∨ c = COLON ∨ c = SP) (indent : ℕ) :
    YamlLine.IsPlain { indent := indent, content := content } := by
  have hplain (c : Byte) (hc : c ∈ content) : c ≠ LF ∧ c ≠ HASH := by
    rcases hbytes c hc with hword | rfl | rfl
    · exact ⟨(alphanumeric_line c hword).2.2, (alphanumeric_line c hword).2.1⟩
    · decide
    · decide
  constructor
  · exact htight
  · exact fun hmem => (hplain LF hmem).1 rfl
  · intro hhash
    exact (hplain HASH (List.mem_of_mem_head? hhash)).2 rfl

theorem YamlLine.IsPlain.dashed {ln : YamlLine} (h : ln.IsPlain) (indent : ℕ) :
    YamlLine.IsPlain { indent := indent, content := DASH :: SP :: ln.content } := by
  have hdash : Tight [DASH] := ⟨⟨DASH, [], rfl, rfl⟩, [], DASH, rfl, rfl⟩
  constructor
  · simpa using hdash.join h.tight [SP]
  · have hno := h.noBreak
    simp only [List.mem_cons, not_or]
    exact ⟨by decide, by decide, hno⟩
  · simp only [List.head?_cons, ne_eq, Option.some.injEq]
    decide

theorem nodeLines_plain {node : YamlNode} (h : node.IsBlock) (indent : ℕ) :
    ∀ ln ∈ nodeLines indent node, ln.IsPlain := by
  induction node using YamlNode.byChildren generalizing indent with
  | scalar word =>
      intro ln hln
      rw [List.mem_singleton.mp hln]
      exact isPlain_content h.word.tight (fun c hc => .inl (h.word.2 c hc)) indent
  | object members ih =>
      rw [nodeLines]
      apply forall_memberLines
      · rintro ⟨key, value⟩ hm word rfl
        have hmember := h.member hm
        apply isPlain_content (tight_member hmember.1 hmember.2.word)
        intro c hc
        simp only [List.mem_append] at hc
        rcases hc with (hkey | hcolon) | hword
        · exact .inl (hmember.1.2 c hkey)
        · have htwo : c ∈ [COLON, SP] := hcolon
          exact .inr (by simpa using htwo)
        · exact .inl (hmember.2.word.2 c hword)
      · intro m hm
        have hmember := h.member hm
        apply isPlain_content (tight_key hmember.1)
        intro c hc
        rcases List.mem_append.mp hc with hkey | hcolon
        · exact .inl (hmember.1.2 c hkey)
        · exact .inr (.inl (List.mem_singleton.mp hcolon))
      · intro m hm
        exact ih m hm (h.member hm).2 (indent + 2)
  | array items ih =>
      rw [nodeLines]
      apply forall_itemLines
      intro item hitem ln hln
      have hplain := ih item hitem (h.item hitem).1 (indent + 2) ln hln
      exact ⟨hplain, hplain.dashed indent⟩

/-- The text of a block is taken apart into its lines. -/
theorem tokenizeYaml_blockText {node : YamlNode} (h : node.IsBlock) :
    tokenizeYaml (blockText node) = nodeLines 0 node := by
  have hplain := nodeLines_plain h 0
  have hsplit : (blockText node).splitOn LF = (nodeLines 0 node).map YamlLine.text ++ [[]] :=
    splitOn_lines hplain
  rw [tokenizeYaml, hsplit, List.filterMap_append, filterMap_text hplain]
  exact List.append_nil _

/-- A word that is not in a member or an item is passed over. -/
theorem readsScalar {word : List Byte} (h : IsWord word) (passes : ℕ) :
    Reads (passes + 1) {} 0 [{ indent := 0, content := word }] (.object []) [] := by
  intro idx diag
  refine ⟨idx + 1, ?_⟩
  have hdash : dashItem word = none := by
    simpa using dashItem_none h []
  rw [parseBlockWith]
  simp only [lt_irrefl, if_false, hdash, keyAndValue_none h]
  cases passes with
  | zero => rfl
  | succ passes => rfl

/-- The tree of the text of a block. -/
def readRoot (node : YamlNode) : YamlNode :=
  if node.isScalar then .object [] else readBack node

theorem nodeLines_cons {node : YamlNode} (h : node.IsBlock) (indent : ℕ) :
    ∃ first below, nodeLines indent node = first :: below ∧ first.indent = indent := by
  cases node with
  | scalar word => exact ⟨_, _, rfl, rfl⟩
  | object members =>
      cases members with
      | nil => exact absurd rfl (h.members [] (.self _))
      | cons m others =>
          rw [nodeLines]
          exact memberLines_cons indent m others
  | array items =>
      cases items with
      | nil => exact absurd rfl (h.items [] (.self _)).1
      | cons item others =>
          have hitem := h.item List.mem_cons_self
          have hpos := length_dashed_pos hitem.1 hitem.2 indent
          rw [nodeLines, itemLines]
          cases hlines : nodeLines (indent + 2) item with
          | nil =>
              rw [hlines] at hpos
              cases hpos
          | cons first below => exact ⟨_, _, rfl, rfl⟩

theorem reads_nodeLines {node : YamlNode} (h : node.IsBlock) :
    Reads (nodeLines 0 node).length {} 0 (nodeLines 0 node) (readRoot node) [] := by
  cases hnode : node.isScalar with
  | true =>
      cases node with
      | scalar word => exact readsScalar h.word 0
      | object members => cases hnode
      | array items => cases hnode
  | false =>
      have hread := readsBlock h hnode 0 _ [] le_rfl (fun ln hln => by cases hln)
      rw [List.append_nil] at hread
      rw [readRoot, hnode]
      exact hread

theorem yamlToJson_blockText (build : Build) {node : YamlNode} (h : node.IsBlock) :
    yamlToJson build (blockText node) = .ok (emitJson build (readRoot node)) := by
  rcases reads_nodeLines h 0 {} with ⟨idx, hread⟩
  rcases nodeLines_cons h 0 with ⟨first, below, hlines, hfirst⟩
  have hparse : parseYaml (blockText node) = some (readRoot node, {}) := by
    rw [parseYaml, tokenizeYaml_blockText h, hlines]
    rw [hlines] at hread
    simp only [parseYamlBlock, hfirst, hread]
  simp only [yamlToJson, hparse]
  rfl

/-! ## The JSON of what is read back -/

section Json

variable {node value : YamlNode} {members others : List (List Byte × YamlNode)}
  {items : List YamlNode} {key : List Byte}

theorem isFlow_object (h : ∀ m ∈ members, IsWord m.1 ∧ m.2.IsFlow)
    (hkeys : (members.map Prod.fst).Nodup) : (YamlNode.object members).IsFlow := by
  constructor
  · intro word hword
    cases hword with
    | member hm hbelow => exact (h _ hm).2.scalars word hbelow
  · intro below hbelow
    cases hbelow with
    | self => exact fun m hm => (h m hm).1
    | member hm hbelow => exact (h _ hm).2.keys below hbelow
  · exact (distinct_object members).mpr ⟨hkeys, fun m hm => (h m hm).2.distinct⟩

theorem isFlow_array (h : ∀ item ∈ items, item.IsFlow) : (YamlNode.array items).IsFlow := by
  constructor
  · intro word hword
    cases hword with
    | item hitem hbelow => exact (h _ hitem).scalars word hbelow
  · intro below hbelow
    cases hbelow with
    | item hitem hbelow => exact (h _ hitem).keys below hbelow
  · exact (distinct_array items).mpr fun item hitem => (h item hitem).distinct

theorem isFlow_readMembers (hwords : ∀ m ∈ members, IsWord m.1)
    (hvalues : ∀ m ∈ members, (readBack m.2).IsFlow) (hkeys : (members.map Prod.fst).Nodup) :
    (YamlNode.object (readMembers members)).IsFlow := by
  rw [readMembers_eq]
  apply isFlow_object
  · intro m hm
    rcases List.mem_map.mp hm with ⟨source, hsource, rfl⟩
    exact ⟨hwords source hsource, hvalues source hsource⟩
  · rwa [List.map_map]

/-- No byte is escaped in what is read back, and no key is repeated. -/
theorem isFlow_readBack (h : node.IsFlow) : (readBack node).IsFlow ∧ (readItem node).IsFlow := by
  induction node using YamlNode.byChildren with
  | scalar word =>
      rw [readBack, readItem]
      exact ⟨h, h⟩
  | object members ih =>
      have hkeys := ((distinct_object members).mp h.distinct).1
      have hwords (m : List Byte × YamlNode) (hm : m ∈ members) := (h.member hm).1
      have hvalues (m : List Byte × YamlNode) (hm : m ∈ members) := (ih m hm (h.member hm).2).1
      have hread : (readBack (.object members)).IsFlow := by
        rw [readBack]
        exact isFlow_readMembers hwords hvalues hkeys
      refine ⟨hread, ?_⟩
      rcases wordFirst_or (.object members) with hword | ⟨key, value, others, hnode, hblock⟩
      · rwa [readItem_wordFirst hword]
      · cases hnode
        rw [List.forall_mem_cons] at hwords hvalues
        have hothers := isFlow_readMembers hwords.2 hvalues.2 (List.nodup_cons.mp hkeys).2
        rw [readItem_blockFirst hblock]
        apply isFlow_object
        · intro m hm
          rw [List.mem_singleton.mp hm]
          exact ⟨hwords.1, hothers⟩
        · simp
  | array items ih =>
      have hitems : (YamlNode.array (readItems items)).IsFlow := by
        rw [readItems_eq]
        apply isFlow_array
        intro item hitem
        rcases List.mem_map.mp hitem with ⟨source, hsource, rfl⟩
        exact (ih source hsource (h.item hsource)).2
      rw [readBack, readItem]
      exact ⟨hitems, hitems⟩

/-! The JSON of a tree becomes shorter where a block is lost. -/

/-- What is written for a member without the comma behind it. -/
def memberLength (m : List Byte × YamlNode) : ℕ :=
  m.1.length + 3 + (flowJson m.2).length

theorem length_commaSeparated (parts : List (List Byte)) :
    (commaSeparated parts).length = (parts.map fun part => part.length + 1).sum - 1 := by
  cases parts with
  | nil => rfl
  | cons part rest =>
      have hrest : (rest.flatMap (JsonText.COMMA :: ·)).length =
          (rest.map fun part => part.length + 1).sum := by
        simp [List.length_flatMap]
      rw [JsonText.commaSeparated_cons, List.length_append, hrest, List.map_cons, List.sum_cons]
      omega

theorem length_flowJson_object (members : List (List Byte × YamlNode)) :
    (flowJson (.object members)).length =
      (members.map fun m => memberLength m + 1).sum - 1 + 2 := by
  have hparts : ((members.map fun m => JsonText.quoted m.1 ++ COLON :: flowJson m.2).map
      fun part => part.length + 1) = members.map fun m => memberLength m + 1 := by
    simp only [List.map_map]
    apply List.map_congr_left
    intro m hm
    simp [memberLength, JsonText.quoted]
    omega
  rw [flowJson, flowJsonMembers_eq, objectText, ← hparts, ← length_commaSeparated]
  simp

theorem length_flowJson_array (items : List YamlNode) :
    (flowJson (.array items)).length =
      (items.map fun item => (flowJson item).length + 1).sum - 1 + 2 := by
  rw [flowJson, flowJsonItems_eq, arrayText]
  simp [length_commaSeparated, Function.comp_def]

/-- The JSON of the tree is the same or shorter. -/
def YamlNode.Shrinks (node source : YamlNode) : Prop :=
  node = source ∨ (flowJson node).length < (flowJson source).length

theorem YamlNode.Shrinks.le (h : value.Shrinks node) :
    (flowJson value).length ≤ (flowJson node).length := by
  rcases h with rfl | hless
  · exact le_rfl
  · exact hless.le

theorem shrinks_readMembers (h : ∀ m ∈ members, (readBack m.2).Shrinks m.2) :
    readMembers members = members ∨
      ((readMembers members).map fun m => memberLength m + 1).sum <
        (members.map fun m => memberLength m + 1).sum := by
  induction members with
  | nil => exact .inl rfl
  | cons m others ih =>
      rcases m with ⟨key, value⟩
      rw [List.forall_mem_cons] at h
      have hvalue : (readBack value).Shrinks value := h.1
      have hle := hvalue.le
      rw [readMembers, List.map_cons, List.sum_cons, List.map_cons, List.sum_cons]
      simp only [memberLength]
      rcases ih h.2 with hsame | hless
      · rw [hsame]
        rcases hvalue with hsameValue | hshorter
        · exact .inl (by rw [hsameValue])
        · exact .inr (by omega)
      · simp only [memberLength] at hless
        exact .inr (by omega)

theorem shrinks_object (h : ∀ m ∈ members, (readBack m.2).Shrinks m.2) :
    (YamlNode.object (readMembers members)).Shrinks (.object members) := by
  rcases shrinks_readMembers h with hsame | hless
  · exact .inl (congrArg YamlNode.object hsame)
  · right
    rw [length_flowJson_object, length_flowJson_object]
    cases members with
    | nil => exact absurd hless (lt_irrefl _)
    | cons m others =>
        rcases m with ⟨key, value⟩
        rw [readMembers, List.map_cons, List.sum_cons] at hless ⊢
        omega

theorem shrinks_readItems (h : ∀ item ∈ items, (readItem item).Shrinks item) :
    readItems items = items ∨
      ((readItems items).map fun item => (flowJson item).length + 1).sum <
        (items.map fun item => (flowJson item).length + 1).sum := by
  induction items with
  | nil => exact .inl rfl
  | cons item others ih =>
      rw [List.forall_mem_cons] at h
      have hle := h.1.le
      rw [readItems, List.map_cons, List.sum_cons, List.map_cons, List.sum_cons]
      rcases ih h.2 with hsame | hless
      · rw [hsame]
        rcases h.1 with hsameItem | hshorter
        · exact .inl (by rw [hsameItem])
        · exact .inr (by omega)
      · exact .inr (by omega)

theorem shrinks_array (h : ∀ item ∈ items, (readItem item).Shrinks item) :
    (YamlNode.array (readItems items)).Shrinks (.array items) := by
  rcases shrinks_readItems h with hsame | hless
  · exact .inl (congrArg YamlNode.array hsame)
  · right
    rw [length_flowJson_array, length_flowJson_array]
    cases items with
    | nil => exact absurd hless (lt_irrefl _)
    | cons item others =>
        rw [readItems, List.map_cons, List.sum_cons] at hless ⊢
        omega

theorem flowJson_ne_nil (node : YamlNode) : flowJson node ≠ [] := by
  cases node with
  | object members => simp [flowJson, objectText]
  | array items => simp [flowJson, arrayText]
  | scalar word =>
      rw [flowJson]
      split
      next hword =>
        rintro rfl
        revert hword
        decide
      next => simp [JsonText.quoted]

/-- A collection that is not empty has more than its two brackets. -/
theorem length_flowJson_block (h : value.IsBlock) (hblock : value.isScalar = false) :
    2 < (flowJson value).length := by
  cases value with
  | scalar word => cases hblock
  | object members =>
      cases members with
      | nil => exact absurd rfl (h.members [] (.self _))
      | cons m others =>
          rw [length_flowJson_object, List.map_cons, List.sum_cons, memberLength]
          omega
  | array items =>
      cases items with
      | nil => exact absurd rfl (h.items [] (.self _)).1
      | cons item others =>
          have hitem := List.length_pos_of_ne_nil (flowJson_ne_nil item)
          rw [length_flowJson_array, List.map_cons, List.sum_cons]
          omega

theorem shrinks_blockFirst (hvalue : value.IsBlock) (hblock : value.isScalar = false)
    (hothers : ∀ m ∈ others, (readBack m.2).Shrinks m.2) :
    (flowJson (readItem (.object ((key, value) :: others)))).length <
      (flowJson (.object ((key, value) :: others))).length := by
  have hlength := length_flowJson_block hvalue hblock
  have hle := (shrinks_object hothers).le
  rw [readItem_blockFirst hblock]
  simp only [length_flowJson_object, List.map_cons, List.map_nil, List.sum_cons, List.sum_nil,
    memberLength] at hle ⊢
  omega

/-- What is read back is the tree itself, or its JSON is shorter. -/
theorem shrinks_readBack (h : node.IsBlock) :
    (readBack node).Shrinks node ∧ (readItem node).Shrinks node := by
  induction node using YamlNode.byChildren with
  | scalar word =>
      rw [readBack, readItem]
      exact ⟨.inl rfl, .inl rfl⟩
  | object members ih =>
      have hvalues (m : List Byte × YamlNode) (hm : m ∈ members) := (ih m hm (h.member hm).2).1
      have hread : (readBack (.object members)).Shrinks (.object members) := by
        rw [readBack]
        exact shrinks_object hvalues
      refine ⟨hread, ?_⟩
      rcases wordFirst_or (.object members) with hword | ⟨key, value, others, hnode, hblock⟩
      · rwa [readItem_wordFirst hword]
      · cases hnode
        have hvalue := (h.member (m := (key, value)) List.mem_cons_self).2
        exact .inr (shrinks_blockFirst hvalue hblock (List.forall_mem_cons.mp hvalues).2)
  | array items ih =>
      have hread := shrinks_array fun item hitem => (ih item hitem (h.item hitem).1).2
      rw [readBack, readItem]
      exact ⟨hread, hread⟩

/-! The tree itself is read back where every block has its place. -/

theorem itemsWordFirst_object :
    (YamlNode.object members).ItemsWordFirst ↔ ∀ m ∈ members, m.2.ItemsWordFirst := by
  constructor
  · intro h m hm items hitems
    exact h items (.member hm hitems)
  · intro h items hitems
    cases hitems with
    | member hm hbelow => exact h _ hm items hbelow

theorem itemsWordFirst_array :
    (YamlNode.array items).ItemsWordFirst ↔
      ∀ item ∈ items, item.WordFirst ∧ item.ItemsWordFirst := by
  constructor
  · intro h item hitem
    exact ⟨h items (.self _) item hitem, fun below hbelow => h below (.item hitem hbelow)⟩
  · intro h below hbelow
    cases hbelow with
    | self => exact fun item hitem => (h item hitem).1
    | item hitem hbelow => exact (h _ hitem).2 below hbelow

theorem readItem_eq_iff (h : node.IsBlock) :
    readItem node = node ↔ node.WordFirst ∧ readBack node = node := by
  constructor
  · intro hread
    rcases wordFirst_or node with hword | ⟨key, value, others, rfl, hblock⟩
    · rw [readItem_wordFirst hword] at hread
      exact ⟨hword, hread⟩
    · have hvalue := (h.member (m := (key, value)) List.mem_cons_self).2
      have hothers : ∀ m ∈ others, (readBack m.2).Shrinks m.2 := fun m hm =>
        (shrinks_readBack (h.member (List.mem_cons_of_mem _ hm)).2).1
      have hless : (flowJson (readItem (.object ((key, value) :: others)))).length <
          (flowJson (.object ((key, value) :: others))).length :=
        shrinks_blockFirst hvalue hblock hothers
      rw [hread] at hless
      exact absurd hless (lt_irrefl _)
  · rintro ⟨hword, hread⟩
    rw [readItem_wordFirst hword, hread]

theorem map_eq_self_iff {α : Type*} (f : α → α) (xs : List α) :
    xs.map f = xs ↔ ∀ x ∈ xs, f x = x := by
  simpa using List.map_inj_left (f := f) (g := id) (l := xs)

theorem readBack_eq_iff (h : node.IsBlock) : readBack node = node ↔ node.ItemsWordFirst := by
  induction node using YamlNode.byChildren with
  | scalar word =>
      rw [readBack]
      refine iff_of_true rfl ?_
      intro items hitems
      cases hitems
  | object members ih =>
      rw [readBack, readMembers_eq, YamlNode.object.injEq, map_eq_self_iff, itemsWordFirst_object]
      apply forall₂_congr
      intro m hm
      rw [← ih m hm (h.member hm).2, Prod.ext_iff]
      simp
  | array items ih =>
      rw [readBack, readItems_eq, YamlNode.array.injEq, map_eq_self_iff, itemsWordFirst_array]
      apply forall₂_congr
      intro item hitem
      have hblock := (h.item hitem).1
      rw [readItem_eq_iff hblock, ih item hitem hblock]

end Json

theorem flowJson_scalar_ne (word : List Byte) :
    flowJson (.scalar word) ≠ flowJson (.object []) := by
  intro h
  rw [flowJson] at h
  split at h
  next hword =>
    subst h
    revert hword
    decide
  next => cases h

/-- The text of a block is converted to the JSON of its tree unless the tree is a bare
word or some item begins with a block. -/
theorem blockText_roundTrip_iff (build : Build) (tree : BlockTree) :
    yamlToJson build (blockText tree.node) = .ok (flowJson tree.node) ↔ tree.node.ReadsBack := by
  have hblock := tree.isBlock
  rw [yamlToJson_blockText build hblock, Except.ok.injEq]
  cases hroot : tree.node.isScalar with
  | true =>
      rcases tree with ⟨word | members | items, hflow⟩
      · have hempty : emitJson build (readRoot (.scalar word)) = flowJson (.object []) := rfl
        rw [hempty]
        constructor
        · exact fun heq => absurd heq.symm (flowJson_scalar_ne word)
        · exact fun hreads => absurd hreads.root (by simp [YamlNode.isScalar])
      · cases hroot
      · cases hroot
  | false =>
      have hemit : emitJson build (readRoot tree.node) = flowJson (readBack tree.node) := by
        rw [readRoot, hroot, if_neg Bool.false_ne_true,
          emitJson_flow build (isFlow_readBack hblock.isFlow).1]
      rw [hemit]
      constructor
      · intro hsame
        rcases (shrinks_readBack hblock).1 with hread | hless
        · exact ⟨hroot, (readBack_eq_iff hblock).mp hread⟩
        · exact absurd (congrArg List.length hsame) hless.ne
      · intro hreads
        rw [(readBack_eq_iff hblock).mpr hreads.items]

/-! ## A block that is lost -/

section Build

variable {word : List Byte} {members : List (List Byte × YamlNode)} {items : List YamlNode}

theorem isBlock_scalar (h : IsWord word) : (YamlNode.scalar word).IsBlock := by
  refine ⟨⟨?_, ?_, distinct_scalar word⟩, ?_, ?_⟩
  · intro value hvalue
    cases hvalue
    exact h
  · intro below hbelow
    cases hbelow
  · intro below hbelow
    cases hbelow
  · intro below hbelow
    cases hbelow

theorem isBlock_object (h : ∀ m ∈ members, IsWord m.1 ∧ m.2.IsBlock) (hne : members ≠ [])
    (hkeys : (members.map Prod.fst).Nodup) : (YamlNode.object members).IsBlock := by
  constructor
  · exact isFlow_object (fun m hm => ⟨(h m hm).1, (h m hm).2.isFlow⟩) hkeys
  · intro below hbelow
    cases hbelow with
    | self => exact hne
    | member hm hbelow => exact (h _ hm).2.members below hbelow
  · intro below hbelow
    cases hbelow with
    | member hm hbelow => exact (h _ hm).2.items below hbelow

theorem isBlock_array (h : ∀ item ∈ items, item.IsBlock ∧ item.isArray = false)
    (hne : items ≠ []) : (YamlNode.array items).IsBlock := by
  constructor
  · exact isFlow_array fun item hitem => (h item hitem).1.isFlow
  · intro below hbelow
    cases hbelow with
    | item hitem hbelow => exact (h _ hitem).1.members below hbelow
  · intro below hbelow
    cases hbelow with
    | self => exact ⟨hne, fun item hitem => (h item hitem).2⟩
    | item hitem hbelow => exact (h _ hitem).1.items below hbelow

end Build

/-- An item that begins with a map of one word. -/
def mapFirst : YamlNode :=
  .array [.object [(bytesOf "k", .object [(bytesOf "x", .scalar (bytesOf "1"))])]]

theorem isBlock_mapFirst : mapFirst.IsBlock := by
  have hword (word : List Byte) (hne : word ≠ []) (hbytes : word.all isAlphanumeric = true) :
      IsWord word :=
    ⟨hne, List.all_eq_true.mp hbytes⟩
  have hone : (YamlNode.scalar (bytesOf "1")).IsBlock :=
    isBlock_scalar (hword _ (by decide) (by decide))
  have hinner : (YamlNode.object [(bytesOf "x", .scalar (bytesOf "1"))]).IsBlock := by
    apply isBlock_object _ (List.cons_ne_nil _ _) (by simp)
    intro m hm
    rw [List.mem_singleton.mp hm]
    exact ⟨hword _ (by decide) (by decide), hone⟩
  have hitem : (YamlNode.object
      [(bytesOf "k", .object [(bytesOf "x", .scalar (bytesOf "1"))])]).IsBlock := by
    apply isBlock_object _ (List.cons_ne_nil _ _) (by simp)
    intro m hm
    rw [List.mem_singleton.mp hm]
    exact ⟨hword _ (by decide) (by decide), hinner⟩
  apply isBlock_array _ (List.cons_ne_nil _ _)
  intro item hmem
  rw [List.mem_singleton.mp hmem]
  exact ⟨hitem, rfl⟩

def mapFirstTree : BlockTree where
  node := mapFirst
  isBlock := isBlock_mapFirst

/-- The member of the map is lost. -/
theorem yamlToJson_mapFirst :
    yamlToJson .plain (blockText mapFirst) = .ok (bytesOf "[\x7b\"k\":\x7b\x7d\x7d]") ∧
      flowJson mapFirst = bytesOf "[\x7b\"k\":\x7b\"x\":\"1\"\x7d\x7d]" := by
  decide +kernel

theorem blockText_mapFirst_lost :
    ¬∀ (build : Build) (tree : BlockTree),
      yamlToJson build (blockText tree.node) = .ok (flowJson tree.node) := by
  intro h
  have hsame := h .plain mapFirstTree
  have hlost := yamlToJson_mapFirst
  rw [mapFirstTree, hlost.1, hlost.2, Except.ok.injEq] at hsame
  revert hsame
  decide

end Serde
end Katana
