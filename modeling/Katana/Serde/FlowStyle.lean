import Katana.Serde.YamlDuplicates

/-!
# Flow style

A tree of maps, sequences and words that is written in flow style on one line is what
`parse_inline_value` reads back.  A collection is taken apart at the commas at depth
zero; those inside its members stand at a greater depth, because every text that is
written has matching brackets and no quotes.
-/

namespace Katana
namespace Serde

open Library
open Library.JsonText (arrayText objectText commaSeparated)
open Http (Byte bytesOf SP byte_forall)

/-! ## Trees and their texts -/

def isAlphanumeric (c : Byte) : Bool :=
  (0x30 ≤ c && c ≤ 0x39) || (0x41 ≤ c && c ≤ 0x5a) || (0x61 ≤ c && c ≤ 0x7a)

def IsWord (text : List Byte) : Prop :=
  text ≠ [] ∧ ∀ c ∈ text, isAlphanumeric c = true

/-- Scalars and keys are words, and the keys of a map are distinct. -/
structure YamlNode.IsFlow (node : YamlNode) : Prop where
  scalars : ∀ value, node.Contains (.scalar value) → IsWord value
  keys : ∀ members, node.Contains (.object members) → ∀ m ∈ members, IsWord m.1
  distinct : node.Distinct

structure FlowTree where
  node : YamlNode
  isFlow : node.IsFlow

/-- The parts with a comma and a blank between them. -/
def flowParts : List (List Byte) → List Byte
  | [] => []
  | [part] => part
  | part :: next :: rest => part ++ bytesOf ", " ++ flowParts (next :: rest)

mutual

def flowText : YamlNode → List Byte
  | .scalar word => word
  | .object members => OPEN_BRACE :: flowParts (flowMembers members) ++ [CLOSE_BRACE]
  | .array items => OPEN_BRACKET :: flowParts (flowItems items) ++ [CLOSE_BRACKET]

def flowMembers : List (List Byte × YamlNode) → List (List Byte)
  | [] => []
  | (key, value) :: rest => (key ++ bytesOf ": " ++ flowText value) :: flowMembers rest

def flowItems : List YamlNode → List (List Byte)
  | [] => []
  | item :: rest => flowText item :: flowItems rest

end

mutual

/-- The JSON of the tree. -/
def flowJson : YamlNode → List Byte
  | .scalar word =>
      if word ∈ [bytesOf "true", bytesOf "false", bytesOf "null"] then word
      else JsonText.quoted word
  | .object members => objectText (commaSeparated (flowJsonMembers members))
  | .array items => arrayText (commaSeparated (flowJsonItems items))

def flowJsonMembers : List (List Byte × YamlNode) → List (List Byte)
  | [] => []
  | (key, value) :: rest => (JsonText.quoted key ++ COLON :: flowJson value) :: flowJsonMembers rest

def flowJsonItems : List YamlNode → List (List Byte)
  | [] => []
  | item :: rest => flowJson item :: flowJsonItems rest

end

def flowMember (m : List Byte × YamlNode) : List Byte :=
  m.1 ++ bytesOf ": " ++ flowText m.2

theorem flowMembers_eq (members : List (List Byte × YamlNode)) :
    flowMembers members = members.map flowMember := by
  induction members with
  | nil => rfl
  | cons m rest ih => rw [flowMembers, ih, List.map_cons, flowMember]

theorem flowItems_eq (items : List YamlNode) : flowItems items = items.map flowText := by
  induction items with
  | nil => rfl
  | cons item rest ih => rw [flowItems, ih, List.map_cons]

theorem flowJsonMembers_eq (members : List (List Byte × YamlNode)) :
    flowJsonMembers members =
      members.map fun m => JsonText.quoted m.1 ++ COLON :: flowJson m.2 := by
  induction members with
  | nil => rfl
  | cons m rest ih => rw [flowJsonMembers, ih, List.map_cons]

theorem flowJsonItems_eq (items : List YamlNode) : flowJsonItems items = items.map flowJson := by
  induction items with
  | nil => rfl
  | cons item rest ih => rw [flowJsonItems, ih, List.map_cons]

theorem YamlNode.IsFlow.member {members : List (List Byte × YamlNode)}
    (h : (YamlNode.object members).IsFlow) {m : List Byte × YamlNode} (hm : m ∈ members) :
    IsWord m.1 ∧ m.2.IsFlow :=
  ⟨h.keys members (.self _) m hm, fun value hvalue => h.scalars value (.member hm hvalue),
    fun below hbelow => h.keys below (.member hm hbelow),
    ((distinct_object members).mp h.distinct).2 m hm⟩

theorem YamlNode.IsFlow.item {items : List YamlNode} (h : (YamlNode.array items).IsFlow)
    {item : YamlNode} (hitem : item ∈ items) : item.IsFlow :=
  ⟨fun value hvalue => h.scalars value (.item hitem hvalue),
    fun below hbelow => h.keys below (.item hitem hbelow),
    (distinct_array items).mp h.distinct item hitem⟩

/-! ## Words -/

theorem alphanumeric_facts : ∀ c : Byte, isAlphanumeric c = true →
    (c ≠ APOSTROPHE ∧ c ≠ QUOTE ∧ c ≠ COMMA ∧ c ≠ COLON) ∧
      (c ≠ OPEN_BRACE ∧ c ≠ OPEN_BRACKET ∧ c ≠ CLOSE_BRACE ∧ c ≠ CLOSE_BRACKET) ∧
      isJsonWhitespace c = false ∧ needsEscape c = false := by
  apply byte_forall
  decide +kernel

/-- A text with something other than a blank at both ends. -/
structure Tight (text : List Byte) : Prop where
  first : ∃ c rest, text = c :: rest ∧ isJsonWhitespace c = false
  last : ∃ front c, text = front ++ [c] ∧ isJsonWhitespace c = false

section Texts

variable {text first last : List Byte}

theorem Tight.ne_nil (h : Tight text) : text ≠ [] := by
  obtain ⟨c, rest, rfl, -⟩ := h.first
  exact List.cons_ne_nil c rest

theorem Tight.trimView (h : Tight text) : trimView text = text := by
  obtain ⟨c, rest, hfirst, hc⟩ := h.first
  obtain ⟨front, d, hlast, hd⟩ := h.last
  have hdrop : text.dropWhile isJsonWhitespace = text := by
    rw [hfirst, List.dropWhile_cons_of_neg (by simp [hc])]
  rw [Serde.trimView, hdrop, hlast, List.rdropWhile_concat_neg _ _ _ (by simp [hd])]

/-- The blank behind a comma or a colon is trimmed. -/
theorem Tight.trimView_blank (h : Tight text) : Serde.trimView (SP :: text) = text := by
  have hblank : Serde.trimView (SP :: text) = Serde.trimView text := by
    rw [Serde.trimView, List.dropWhile_cons_of_pos (by decide), Serde.trimView]
  rw [hblank, h.trimView]

theorem Tight.join (hfirst : Tight first) (hlast : Tight last) (middle : List Byte) :
    Tight (first ++ middle ++ last) := by
  obtain ⟨c, rest, rfl, hc⟩ := hfirst.first
  obtain ⟨front, d, rfl, hd⟩ := hlast.last
  constructor
  · exact ⟨c, rest ++ middle ++ (front ++ [d]), by simp, hc⟩
  · exact ⟨c :: rest ++ middle ++ front, d, by simp, hd⟩

theorem IsWord.tight (h : IsWord text) : Tight text := by
  have hword (c : Byte) (hc : c ∈ text) : isJsonWhitespace c = false :=
    (alphanumeric_facts c (h.2 c hc)).2.2.1
  constructor
  · obtain ⟨c, rest, rfl⟩ := List.exists_cons_of_ne_nil h.1
    exact ⟨c, rest, rfl, hword c List.mem_cons_self⟩
  · refine ⟨text.dropLast, text.getLast h.1, (List.dropLast_append_getLast h.1).symm, ?_⟩
    exact hword _ (List.getLast_mem h.1)

theorem tight_brackets {opening closing : Byte} (hopening : isJsonWhitespace opening = false)
    (hclosing : isJsonWhitespace closing = false) (inner : List Byte) :
    Tight (opening :: inner ++ [closing]) :=
  ⟨⟨opening, inner ++ [closing], rfl, hopening⟩, opening :: inner, closing, rfl, hclosing⟩

theorem tight_flowText {node : YamlNode} (h : node.IsFlow) : Tight (flowText node) := by
  cases node with
  | scalar word =>
    rw [flowText]
    exact (h.scalars word (.self _)).tight
  | object members =>
    rw [flowText]
    exact tight_brackets (by decide) (by decide) _
  | array items =>
    rw [flowText]
    exact tight_brackets (by decide) (by decide) _

theorem tight_flowMember {m : List Byte × YamlNode} (hkey : IsWord m.1) (hvalue : m.2.IsFlow) :
    Tight (flowMember m) :=
  hkey.tight.join (tight_flowText hvalue) (bytesOf ": ")

theorem tight_flowParts {parts : List (List Byte)} (h : ∀ part ∈ parts, Tight part) :
    parts = [] ∨ Tight (flowParts parts) := by
  induction parts with
  | nil => exact .inl rfl
  | cons part rest ih =>
    right
    have hpart := h part List.mem_cons_self
    rcases ih fun other hother => h other (List.mem_cons_of_mem part hother) with rfl | hrest
    · exact hpart
    · cases rest with
      | nil => exact hpart
      | cons next rest => exact hpart.join hrest (bytesOf ", ")

/-- What stands between the brackets is taken out whole. -/
theorem innerText_flowParts {parts : List (List Byte)} (h : ∀ part ∈ parts, Tight part)
    (opening closing : Byte) :
    innerText (opening :: flowParts parts ++ [closing]) = flowParts parts := by
  have hinner : ((opening :: flowParts parts ++ [closing]).drop 1).take
      ((opening :: flowParts parts ++ [closing]).length - 2) = flowParts parts := by
    simp
  rw [innerText, hinner]
  rcases tight_flowParts h with rfl | htight
  · rfl
  · exact htight.trimView

end Texts

/-! ## Splitting -/

/-- Between the brackets that are open in front of it, the text is not split. -/
def KeptWhole (depth : ℤ) (text : List Byte) : Prop :=
  ∀ part rest, splitFrom { depth := depth } part (text ++ rest) =
    splitFrom { depth := depth } (part ++ text) rest

section Split

variable {depth : ℤ} {text : List Byte}

theorem KeptWhole.append {first last : List Byte} (hfirst : KeptWhole depth first)
    (hlast : KeptWhole depth last) : KeptWhole depth (first ++ last) := by
  intro part rest
  rw [List.append_assoc, hfirst, hlast, List.append_assoc]

theorem keptWhole_nil : KeptWhole depth [] := by
  intro part rest
  rw [List.nil_append, List.append_nil]

/-- One byte that is neither a comma at depth zero nor a quote or a bracket. -/
theorem keptWhole_byte {c : Byte} (hcomma : c ≠ COMMA ∨ depth ≠ 0)
    (hquotes : c ≠ APOSTROPHE ∧ c ≠ QUOTE)
    (hbrackets : c ≠ OPEN_BRACE ∧ c ≠ OPEN_BRACKET ∧ c ≠ CLOSE_BRACE ∧ c ≠ CLOSE_BRACKET) :
    KeptWhole depth [c] := by
  intro part rest
  have hsplits : SplitState.splits { depth := depth } c = false := by
    rcases hcomma with hcomma | hdepth
    · simp [SplitState.splits, hcomma]
    · simp [SplitState.splits, hdepth]
  have hnext : SplitState.next { depth := depth } c = { depth := depth } := by
    simp [SplitState.next, hquotes, hbrackets]
  rw [List.singleton_append, splitFrom, hsplits, if_neg Bool.false_ne_true, hnext]

theorem IsWord.keptWhole (h : IsWord text) : KeptWhole depth text := by
  have hall := h.2
  clear h
  induction text with
  | nil => exact keptWhole_nil
  | cons c rest ih =>
    have hfacts := alphanumeric_facts c (hall c List.mem_cons_self)
    have hfirst : KeptWhole depth [c] :=
      keptWhole_byte (.inl hfacts.1.2.2.1) ⟨hfacts.1.1, hfacts.1.2.1⟩ hfacts.2.1
    exact hfirst.append (ih fun d hd => hall d (List.mem_cons_of_mem c hd))

theorem keptWhole_colon : KeptWhole depth (bytesOf ": ") := by
  have hcolon : KeptWhole depth [COLON] := keptWhole_byte (.inl (by decide)) (by decide) (by decide)
  have hblank : KeptWhole depth [SP] := keptWhole_byte (.inl (by decide)) (by decide) (by decide)
  exact hcolon.append hblank

theorem keptWhole_comma (hdepth : depth ≠ 0) : KeptWhole depth (bytesOf ", ") := by
  have hcomma : KeptWhole depth [COMMA] := keptWhole_byte (.inr hdepth) (by decide) (by decide)
  have hblank : KeptWhole depth [SP] := keptWhole_byte (.inl (by decide)) (by decide) (by decide)
  exact hcomma.append hblank

theorem keptWhole_brackets {opening closing : Byte} {inner : List Byte}
    (hopening : opening = OPEN_BRACE ∨ opening = OPEN_BRACKET)
    (hclosing : closing = CLOSE_BRACE ∨ closing = CLOSE_BRACKET)
    (hinner : KeptWhole (depth + 1) inner) :
    KeptWhole depth (opening :: inner ++ [closing]) := by
  intro part rest
  have hopens (level : ℤ) : SplitState.splits { depth := level } opening = false ∧
      SplitState.next { depth := level } opening = { depth := level + 1 } := by
    rcases hopening with rfl | rfl <;> exact ⟨rfl, rfl⟩
  have hcloses (level : ℤ) : SplitState.splits { depth := level } closing = false ∧
      SplitState.next { depth := level } closing = { depth := level - 1 } := by
    rcases hclosing with rfl | rfl <;> exact ⟨rfl, rfl⟩
  rw [List.append_assoc, List.cons_append, splitFrom, (hopens depth).1, (hopens depth).2,
    if_neg Bool.false_ne_true, hinner, List.singleton_append, splitFrom, (hcloses _).1,
    (hcloses _).2, if_neg Bool.false_ne_true, add_sub_cancel_right]
  simp

theorem keptWhole_flowParts (hdepth : depth ≠ 0) {parts : List (List Byte)}
    (h : ∀ part ∈ parts, KeptWhole depth part) : KeptWhole depth (flowParts parts) := by
  induction parts with
  | nil => exact keptWhole_nil
  | cons part rest ih =>
    have hpart := h part List.mem_cons_self
    have hrest := ih fun other hother => h other (List.mem_cons_of_mem part hother)
    cases rest with
    | nil => exact hpart
    | cons next rest => exact (hpart.append (keptWhole_comma hdepth)).append hrest

theorem keptWhole_flowText {node : YamlNode} (h : node.IsFlow) (hdepth : 0 ≤ depth) :
    KeptWhole depth (flowText node) := by
  induction node using YamlNode.byChildren generalizing depth with
  | scalar word =>
    rw [flowText]
    exact (h.scalars word (.self _)).keptWhole
  | object members ih =>
    rw [flowText, flowMembers_eq]
    apply keptWhole_brackets (.inl rfl) (.inl rfl)
    apply keptWhole_flowParts (by omega)
    intro part hpart
    rcases List.mem_map.mp hpart with ⟨m, hm, rfl⟩
    have hmember := h.member hm
    exact (hmember.1.keptWhole.append keptWhole_colon).append (ih m hm hmember.2 (by omega))
  | array items ih =>
    rw [flowText, flowItems_eq]
    apply keptWhole_brackets (.inr rfl) (.inr rfl)
    apply keptWhole_flowParts (by omega)
    intro part hpart
    rcases List.mem_map.mp hpart with ⟨item, hitem, rfl⟩
    exact ih item hitem (h.item hitem) (by omega)

/-- At depth zero the parts come apart again. -/
theorem splitFrom_flowParts {parts : List (List Byte)}
    (h : ∀ part ∈ parts, Tight part ∧ KeptWhole 0 part) {lead : List Byte}
    (hlead : lead = [] ∨ lead = [SP]) : splitFrom {} lead (flowParts parts) = parts := by
  have htrim {part : List Byte} (hpart : Tight part) : trimView (lead ++ part) = part := by
    rcases hlead with rfl | rfl
    · exact hpart.trimView
    · exact hpart.trimView_blank
  induction parts generalizing lead with
  | nil => rcases hlead with rfl | rfl <;> rfl
  | cons part rest ih =>
    obtain ⟨htight, hwhole⟩ := h part List.mem_cons_self
    cases rest with
    | nil =>
      have hsplit := hwhole lead []
      rw [List.append_nil] at hsplit
      have hsome : (trimView (lead ++ part)).isEmpty = false := by
        rw [htrim htight, List.isEmpty_eq_false_iff]
        exact htight.ne_nil
      rw [flowParts, hsplit, splitFrom, hsome, if_neg Bool.false_ne_true, htrim htight]
    | cons next rest =>
      have hcomma : bytesOf ", " ++ flowParts (next :: rest) =
          COMMA :: SP :: flowParts (next :: rest) := rfl
      have hblank : splitFrom {} [] (SP :: flowParts (next :: rest)) =
          splitFrom {} [SP] (flowParts (next :: rest)) := rfl
      have hsplit := hwhole lead (bytesOf ", " ++ flowParts (next :: rest))
      rw [flowParts, List.append_assoc, hsplit, hcomma, splitFrom,
        if_pos (by rfl), htrim htight, hblank]
      congr 1
      apply ih (fun other hother => h other (List.mem_cons_of_mem part hother)) (.inr rfl)
      intro other hother
      exact hother.trimView_blank

end Split

/-! ## Reading -/

theorem dropQuotes_word {text : List Byte} (h : IsWord text) : dropQuotes text = text := by
  obtain ⟨c, rest, rfl⟩ := List.exists_cons_of_ne_nil h.1
  have hc := alphanumeric_facts c (h.2 c List.mem_cons_self)
  simp [dropQuotes, hc.1.1, hc.1.2.1]

theorem keyAndValue_flowMember {m : List Byte × YamlNode} (hkey : IsWord m.1)
    (hvalue : m.2.IsFlow) : keyAndValue (flowMember m) = some (m.1, flowText m.2) := by
  have htext : flowMember m = m.1 ++ COLON :: SP :: flowText m.2 := by
    rw [flowMember, List.append_assoc]
    rfl
  have hcolon : (flowMember m).idxOf? COLON = some m.1.length := by
    rw [htext, List.idxOf?_eq_some_iff]
    refine ⟨by simp, by simp, fun j hj => ?_⟩
    rw [List.getElem_append_left hj]
    exact (alphanumeric_facts _ (hkey.2 _ (List.getElem_mem hj))).1.2.2.2
  have hbehind : (flowMember m).drop (m.1.length + 1) = SP :: flowText m.2 := by
    rw [htext, ← List.drop_drop, List.drop_left]
    rfl
  rw [keyAndValue, hcolon, Option.map_some, hbehind, (tight_flowText hvalue).trimView_blank, htext,
    List.take_left, normalizeKey, hkey.tight.trimView, dropQuotes_word hkey]

/-- The parts of a flow collection that is read. -/
theorem parts_flowParts {parts : List (List Byte)}
    (h : ∀ part ∈ parts, Tight part ∧ KeptWhole 0 part) (opening closing : Byte) :
    ((splitTopLevel (innerText (opening :: flowParts parts ++ [closing]))).filter
      fun part => !part.isEmpty) = parts := by
  rw [innerText_flowParts (fun part hpart => (h part hpart).1), splitTopLevel,
    splitFrom_flowParts h (.inl rfl), List.filter_eq_self]
  intro part hpart
  have hne := (h part hpart).1.ne_nil
  simpa using hne

section Inline

variable {parseValue : List Byte → YamlDiagnostic → YamlNode × YamlDiagnostic}

theorem inlineMembers_flow (lineNo : ℕ) {members : List (List Byte × YamlNode)}
    (hread : ∀ m ∈ members, ∀ diag, parseValue (flowText m.2) diag = (m.2, diag))
    (hflow : ∀ m ∈ members, IsWord m.1 ∧ m.2.IsFlow) (hkeys : (members.map Prod.fst).Nodup)
    {s : Mapping × YamlDiagnostic} (hseen : ∀ m ∈ members, m.1 ∉ s.1.seen) :
    ((members.map flowMember).foldl (inlineMember parseValue lineNo) s).1.object =
        s.1.object ++ members ∧
      ((members.map flowMember).foldl (inlineMember parseValue lineNo) s).2 = s.2 := by
  induction members generalizing s with
  | nil => exact ⟨(List.append_nil _).symm, rfl⟩
  | cons m rest ih =>
    rw [List.map_cons, List.nodup_cons] at hkeys
    have hm := hflow m List.mem_cons_self
    have hnew := hseen m List.mem_cons_self
    have hstep : inlineMember parseValue lineNo s (flowMember m) = (s.1.add m.1 m.2, s.2) := by
      rw [inlineMember, keyAndValue_flowMember hm.1 hm.2]
      dsimp only
      rw [if_neg hnew, hread m List.mem_cons_self]
    have hfresh : ∀ other ∈ rest, other.1 ∉ (s.1.add m.1 m.2).seen := by
      intro other hother
      rw [Mapping.add, List.mem_cons, not_or]
      refine ⟨fun hsame => hkeys.1 ?_, hseen other (List.mem_cons_of_mem m hother)⟩
      rw [← hsame]
      exact List.mem_map_of_mem hother
    have hrest := ih (fun other hother => hread other (List.mem_cons_of_mem m hother))
      (fun other hother => hflow other (List.mem_cons_of_mem m hother)) hkeys.2
      (s := (s.1.add m.1 m.2, s.2)) hfresh
    rw [List.map_cons, List.foldl_cons, hstep, hrest.1, hrest.2]
    refine ⟨?_, rfl⟩
    rw [Mapping.add_object hnew, List.append_assoc, List.singleton_append]

theorem inlineItems_flow {items : List YamlNode}
    (hread : ∀ item ∈ items, ∀ diag, parseValue (flowText item) diag = (item, diag))
    (s : List YamlNode × YamlDiagnostic) :
    (items.map flowText).foldl (inlineItem parseValue) s = (s.1 ++ items, s.2) := by
  induction items generalizing s with
  | nil => rw [List.map_nil, List.foldl_nil, List.append_nil]
  | cons item rest ih =>
    have hstep : inlineItem parseValue s (flowText item) = (s.1 ++ [item], s.2) := by
      rw [inlineItem, hread item List.mem_cons_self]
    rw [List.map_cons, List.foldl_cons, hstep,
      ih fun other hother => hread other (List.mem_cons_of_mem item hother)]
    simp

end Inline

theorem flow_ends (opening closing : Byte) (inner : List Byte) :
    (opening :: inner ++ [closing]).head? = some opening ∧
      (opening :: inner ++ [closing]).getLast? = some closing :=
  ⟨rfl, List.getLast?_concat⟩

theorem length_le_flowParts {parts : List (List Byte)} {part : List Byte} (hpart : part ∈ parts) :
    part.length ≤ (flowParts parts).length := by
  induction parts with
  | nil => cases hpart
  | cons first rest ih =>
    cases rest with
    | nil =>
      rw [List.mem_singleton.mp hpart]
      exact le_rfl
    | cons next rest =>
      rw [flowParts, List.length_append, List.length_append]
      rcases List.mem_cons.mp hpart with rfl | hrest
      · omega
      · have hle := ih hrest
        omega

/-- What is written in flow style is read back. -/
theorem parseInlineWith_flowText (lineNo : ℕ) {node : YamlNode} (h : node.IsFlow) {levels : ℕ}
    (hlevels : (flowText node).length < levels) (diag : YamlDiagnostic) :
    parseInlineWith lineNo levels (flowText node) diag = (node, diag) := by
  induction node using YamlNode.byChildren generalizing levels diag with
  | scalar word =>
    obtain ⟨levels, rfl⟩ := Nat.exists_eq_succ_of_ne_zero (Nat.ne_zero_of_lt hlevels)
    have hword := h.scalars word (.self _)
    obtain ⟨c, rest, rfl⟩ := List.exists_cons_of_ne_nil hword.1
    have hc := alphanumeric_facts c (hword.2 c List.mem_cons_self)
    rw [flowText, parseInlineWith, hword.tight.trimView]
    simp [isFlowMap, isFlowSequence, hc.2.1.1, hc.2.1.2.1]
  | object members ih =>
    obtain ⟨levels, rfl⟩ := Nat.exists_eq_succ_of_ne_zero (Nat.ne_zero_of_lt hlevels)
    have hparts : ∀ part ∈ members.map flowMember, Tight part ∧ KeptWhole 0 part := by
      intro part hpart
      rcases List.mem_map.mp hpart with ⟨m, hm, rfl⟩
      have hmember := h.member hm
      exact ⟨tight_flowMember hmember.1 hmember.2,
        (hmember.1.keptWhole.append keptWhole_colon).append
          (keptWhole_flowText hmember.2 le_rfl)⟩
    have htight := tight_flowText h
    rw [flowText, flowMembers_eq] at hlevels htight ⊢
    have hread : ∀ m ∈ members, ∀ diag,
        parseInlineWith lineNo levels (flowText m.2) diag = (m.2, diag) := by
      intro m hm diag
      refine ih m hm (h.member hm).2 ?_ diag
      have hle := length_le_flowParts (List.mem_map_of_mem (f := flowMember) hm)
      simp only [flowMember, List.length_append] at hle
      simp only [List.length_append, List.length_cons, List.length_nil] at hlevels
      omega
    have hfold := inlineMembers_flow lineNo hread (fun m hm => h.member hm)
      ((distinct_object members).mp h.distinct).1 (s := ({}, diag)) fun m _ => List.not_mem_nil
    have hflow : isFlowMap (OPEN_BRACE :: flowParts (members.map flowMember) ++ [CLOSE_BRACE]) =
        true := by
      rw [isFlowMap, (flow_ends _ _ _).1, (flow_ends _ _ _).2]
      rfl
    rw [parseInlineWith, htight.trimView, List.isEmpty_eq_false_iff.mpr htight.ne_nil,
      if_neg Bool.false_ne_true, if_pos hflow, parseInlineMap, parts_flowParts hparts]
    rw [hfold.1, hfold.2]
    rfl
  | array items ih =>
    obtain ⟨levels, rfl⟩ := Nat.exists_eq_succ_of_ne_zero (Nat.ne_zero_of_lt hlevels)
    have hparts : ∀ part ∈ items.map flowText, Tight part ∧ KeptWhole 0 part := by
      intro part hpart
      rcases List.mem_map.mp hpart with ⟨item, hitem, rfl⟩
      exact ⟨tight_flowText (h.item hitem), keptWhole_flowText (h.item hitem) le_rfl⟩
    have htight := tight_flowText h
    rw [flowText, flowItems_eq] at hlevels htight ⊢
    have hread : ∀ item ∈ items, ∀ diag,
        parseInlineWith lineNo levels (flowText item) diag = (item, diag) := by
      intro item hitem diag
      refine ih item hitem (h.item hitem) ?_ diag
      have hle := length_le_flowParts (List.mem_map_of_mem (f := flowText) hitem)
      simp only [List.length_append, List.length_cons, List.length_nil] at hlevels
      omega
    have hmap : isFlowMap (OPEN_BRACKET :: flowParts (items.map flowText) ++ [CLOSE_BRACKET]) =
        false := by
      rw [isFlowMap, (flow_ends _ _ _).1, (flow_ends _ _ _).2]
      rfl
    have hflow : isFlowSequence
        (OPEN_BRACKET :: flowParts (items.map flowText) ++ [CLOSE_BRACKET]) = true := by
      rw [isFlowSequence, (flow_ends _ _ _).1, (flow_ends _ _ _).2]
      rfl
    rw [parseInlineWith, htight.trimView, List.isEmpty_eq_false_iff.mpr htight.ne_nil,
      if_neg Bool.false_ne_true, hmap, if_neg Bool.false_ne_true, if_pos hflow,
      parseInlineSequence, parts_flowParts hparts, inlineItems_flow hread]
    rfl

/-! ## Emission -/

theorem emitString_word (build : Build) {text : List Byte} (h : IsWord text) :
    emitString build text = JsonText.quoted text := by
  have hplain : text.flatMap escapeByte = text := by
    have hall := h.2
    clear h
    induction text with
    | nil => rfl
    | cons c rest ih =>
      have hc := (alphanumeric_facts c (hall c List.mem_cons_self)).2.2.2
      rw [List.flatMap_cons, ih fun d hd => hall d (List.mem_cons_of_mem c hd), escapeByte, hc]
      rfl
  rw [emitString_eq, hplain]

theorem emitJson_flow (build : Build) {node : YamlNode} (h : node.IsFlow) :
    emitJson build node = flowJson node := by
  induction node using YamlNode.byChildren with
  | scalar word =>
    have hword := h.scalars word (.self _)
    rw [emitJson, emitScalar, hword.tight.trimView, dropQuotes_word hword,
      emitString_word build hword, flowJson]
    simp [isBoolLiteral, isNullLiteral, or_assoc]
  | object members ih =>
    rw [emitJson, emitMembers_zero, flowJson, flowJsonMembers_eq]
    have htexts : members.map (memberText build) =
        members.map fun m => JsonText.quoted m.1 ++ COLON :: flowJson m.2 := by
      apply List.map_congr_left
      intro m hm
      rw [memberText, emitString_word build (h.member hm).1, ih m hm (h.member hm).2]
    rw [htexts]
    rfl
  | array items ih =>
    rw [emitJson, emitItems_zero, flowJson, flowJsonItems_eq]
    have htexts : items.map (emitJson build) = items.map flowJson := by
      apply List.map_congr_left
      intro item hitem
      exact ih item hitem (h.item hitem)
    rw [htexts]
    rfl

/-- A tree that is written in flow style and read back is emitted as its JSON. -/
theorem flowText_roundTrip (build : Build) (lineNo : ℕ) (tree : FlowTree)
    (diag : YamlDiagnostic) :
    emitJson build (parseInlineValue lineNo (flowText tree.node) diag).1 = flowJson tree.node := by
  rw [parseInlineValue, parseInlineWith_flowText lineNo tree.isFlow (Nat.lt_succ_self _),
    emitJson_flow build tree.isFlow]

/-- Words, empty and nested collections. -/
example :
    let node : YamlNode := .object [(bytesOf "a", .array [.scalar (bytesOf "true"), .array []]),
      (bytesOf "b", .object [(bytesOf "c", .scalar (bytesOf "d1"))])]
    flowText node = bytesOf "\x7ba: [true, []], b: \x7bc: d1\x7d\x7d" ∧
      flowJson node = bytesOf "\x7b\"a\":[true,[]],\"b\":\x7b\"c\":\"d1\"\x7d\x7d" := by
  decide +kernel

end Serde
end Katana
