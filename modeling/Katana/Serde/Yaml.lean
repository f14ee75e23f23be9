import Katana.Serde.EscapeDecoding

/-!
# From YAML to JSON

`yaml_to_json` cuts the text into lines, reads them into a tree and writes the tree as
JSON.  A block is read line by line: lines at its own indentation are items or members,
deeper lines that no child has taken are passed over, and the first line that is less
indented ends it.  A block that has both items and members is what its last line is.
-/

namespace Katana
namespace Serde

open Http (Byte bytesOf LF SP toChars)

def APOSTROPHE : Byte := 0x27
def DASH : Byte := 0x2d
def HASH : Byte := 0x23

inductive YamlNode where
  | scalar (value : List Byte)
  | object (members : List (List Byte × YamlNode))
  | array (items : List YamlNode)

/-- Induction over a tree, with the hypothesis for every child. -/
@[elab_as_elim] theorem YamlNode.byChildren {motive : YamlNode → Prop}
    (scalar : ∀ value, motive (.scalar value))
    (object : ∀ members : List (List Byte × YamlNode), (∀ m ∈ members, motive m.2) →
      motive (.object members))
    (array : ∀ items : List YamlNode, (∀ item ∈ items, motive item) → motive (.array items))
    (node : YamlNode) : motive node := by
  refine @YamlNode.rec motive (fun members => ∀ m ∈ members, motive m.2)
    (fun items => ∀ item ∈ items, motive item) (fun m => motive m.2)
    scalar object array ?_ ?_ ?_ ?_ ?_ node
  · intro m hm
    cases hm
  · intro m members hfirst hrest
    exact List.forall_mem_cons.mpr ⟨hfirst, hrest⟩
  · intro item hitem
    cases hitem
  · intro item items hfirst hrest
    exact List.forall_mem_cons.mpr ⟨hfirst, hrest⟩
  · intro key value hvalue
    exact hvalue

/-! ## Writing -/

def isBoolLiteral (sv : List Byte) : Bool :=
  sv = bytesOf "true" || sv = bytesOf "false"

def isNullLiteral (sv : List Byte) : Bool :=
  sv = bytesOf "null"

/-- One pair of quotes is taken off. -/
def dropQuotes (sv : List Byte) : List Byte :=
  if 2 ≤ sv.length && ((sv.head? = some QUOTE && sv.getLast? = some QUOTE) ||
      (sv.head? = some APOSTROPHE && sv.getLast? = some APOSTROPHE)) then
    (sv.drop 1).take (sv.length - 2)
  else sv

/-- What is pushed for a string. -/
def emitString (build : Build) (sv : List Byte) : List Byte :=
  QUOTE :: escapeJsonStringInto build sv [] ++ [QUOTE]

def emitScalar (build : Build) (v : List Byte) : List Byte :=
  let sv := trimView v
  if isBoolLiteral sv || isNullLiteral sv then sv else emitString build (dropQuotes sv)

mutual

def emitJson (build : Build) : YamlNode → List Byte
  | .scalar value => emitScalar build value
  | .object members => OPEN_BRACE :: emitMembers build 0 members ++ [CLOSE_BRACE]
  | .array items => OPEN_BRACKET :: emitItems build 0 items ++ [CLOSE_BRACKET]

/-- From the member with index `i` on. -/
def emitMembers (build : Build) : ℕ → List (List Byte × YamlNode) → List Byte
  | _, [] => []
  | i, (key, value) :: rest =>
      (if i ≠ 0 then [COMMA] else []) ++
        (emitString build key ++ COLON :: emitJson build value) ++ emitMembers build (i + 1) rest

def emitItems (build : Build) : ℕ → List YamlNode → List Byte
  | _, [] => []
  | i, item :: rest =>
      (if i ≠ 0 then [COMMA] else []) ++ emitJson build item ++ emitItems build (i + 1) rest

end

/-! ## Lines -/

structure YamlDiagnostic where
  line : ℕ := 0
  message : List Byte := []

/-- The first error is kept. -/
def setYamlError (diag : YamlDiagnostic) (line : ℕ) (message : List Byte) : YamlDiagnostic :=
  if !diag.message.isEmpty then diag else { line := line, message := message }

structure YamlLine where
  indent : ℕ
  content : List Byte
  deriving DecidableEq

/-- The token of a line; empty lines and comments have none. -/
def yamlLine (line : List Byte) : Option YamlLine :=
  let indent := (line.takeWhile (· = SP)).length
  let content := trimView (line.drop indent)
  if line.isEmpty || content.isEmpty || content.head? = some HASH then none
  else some { indent := indent, content := content }

/-- An empty piece behind the last line feed yields no token. -/
def tokenizeYaml (text : List Byte) : List YamlLine :=
  (text.splitOn LF).filterMap yamlLine

def normalizeKey (key : List Byte) : List Byte :=
  dropQuotes (trimView key)

/-- The key before the first colon and the trimmed text behind it. -/
def keyAndValue (part : List Byte) : Option (List Byte × List Byte) :=
  (part.idxOf? COLON).map fun colon =>
    (normalizeKey (part.take colon), trimView (part.drop (colon + 1)))

/-! ## Flow collections -/

structure SplitState where
  depth : ℤ := 0
  inSingle : Bool := false
  inDouble : Bool := false

/-- The state behind a byte that does not end a part. -/
def SplitState.next (s : SplitState) (c : Byte) : SplitState :=
  if c = APOSTROPHE && !s.inDouble then { s with inSingle := !s.inSingle }
  else if c = QUOTE && !s.inSingle then { s with inDouble := !s.inDouble }
  else if !s.inSingle && !s.inDouble then
    if c = OPEN_BRACE || c = OPEN_BRACKET then { s with depth := s.depth + 1 }
    else if c = CLOSE_BRACE || c = CLOSE_BRACKET then { s with depth := s.depth - 1 }
    else s
  else s

/-- The delimiter is a comma in every call. -/
def SplitState.splits (s : SplitState) (c : Byte) : Bool :=
  !s.inSingle && !s.inDouble && c = COMMA && s.depth = 0

/-- The part read so far is given in front of the bytes ahead. -/
def splitFrom : SplitState → List Byte → List Byte → List (List Byte)
  | _, part, [] => if (trimView part).isEmpty then [] else [trimView part]
  | s, part, c :: rest =>
      if s.splits c then trimView part :: splitFrom s [] rest
      else splitFrom (s.next c) (part ++ [c]) rest

def splitTopLevel (input : List Byte) : List (List Byte) :=
  splitFrom {} [] input

/-- What is between the brackets. -/
def innerText (value : List Byte) : List Byte :=
  trimView ((value.drop 1).take (value.length - 2))

structure Mapping where
  object : List (List Byte × YamlNode) := []
  seen : List (List Byte) := []

/-- An earlier member of the same key is erased. -/
def Mapping.add (m : Mapping) (key : List Byte) (value : YamlNode) : Mapping where
  object := (if key ∈ m.seen then m.object.eraseP (·.1 = key) else m.object) ++ [(key, value)]
  seen := key :: m.seen

def duplicateKey (key : List Byte) (place : String) : List Byte :=
  bytesOf "duplicate key '" ++ key ++ bytesOf "'" ++ bytesOf place

section Inline

variable (parseValue : List Byte → YamlDiagnostic → YamlNode × YamlDiagnostic) (lineNo : ℕ)

/-- One part of a flow map. -/
def inlineMember (s : Mapping × YamlDiagnostic) (part : List Byte) : Mapping × YamlDiagnostic :=
  match keyAndValue part with
  | none => s
  | some (key, val) =>
      let diag :=
        if key ∈ s.1.seen then setYamlError s.2 lineNo (duplicateKey key " in inline map") else s.2
      let parsed := parseValue val diag
      (s.1.add key parsed.1, parsed.2)

def parseInlineMap (value : List Byte) (diag : YamlDiagnostic) : YamlNode × YamlDiagnostic :=
  let parts := (splitTopLevel (innerText value)).filter fun part => !part.isEmpty
  let s := parts.foldl (inlineMember parseValue lineNo) ({}, diag)
  (.object s.1.object, s.2)

def inlineItem (s : List YamlNode × YamlDiagnostic) (part : List Byte) :
    List YamlNode × YamlDiagnostic :=
  let parsed := parseValue part s.2
  (s.1 ++ [parsed.1], parsed.2)

def parseInlineSequence (value : List Byte) (diag : YamlDiagnostic) : YamlNode × YamlDiagnostic :=
  let parts := (splitTopLevel (innerText value)).filter fun part => !part.isEmpty
  let s := parts.foldl (inlineItem parseValue) ([], diag)
  (.array s.1, s.2)

end Inline

def isFlowMap (sv : List Byte) : Bool :=
  sv.head? = some OPEN_BRACE && sv.getLast? = some CLOSE_BRACE

def isFlowSequence (sv : List Byte) : Bool :=
  sv.head? = some OPEN_BRACKET && sv.getLast? = some CLOSE_BRACKET

/-- Every level of flow collections takes two bytes off the value. -/
def parseInlineWith (lineNo : ℕ) : ℕ → List Byte → YamlDiagnostic → YamlNode × YamlDiagnostic
  | 0, _, diag => (.scalar [], diag)
  | levels + 1, value, diag =>
      let trimmed := trimView value
      if trimmed.isEmpty then (.scalar [], diag)
      else if isFlowMap trimmed then
        parseInlineMap (parseInlineWith lineNo levels) lineNo trimmed diag
      else if isFlowSequence trimmed then
        parseInlineSequence (parseInlineWith lineNo levels) trimmed diag
      else (.scalar trimmed, diag)

def parseInlineValue (lineNo : ℕ) (value : List Byte) (diag : YamlDiagnostic) :
    YamlNode × YamlDiagnostic :=
  parseInlineWith lineNo (value.length + 1) value diag

/-! ## Blocks -/

/-- The lines from `idx` on. -/
structure YamlReader where
  lines : List YamlLine
  idx : ℕ := 0
  diag : YamlDiagnostic := {}

/-- Behind the first line. -/
def YamlReader.next (r : YamlReader) : YamlReader :=
  { r with lines := r.lines.tail, idx := r.idx + 1 }

/-- The node of a block and its `seen_keys`. -/
structure YamlBlock where
  isArray : Bool := false
  mapping : Mapping := {}
  array : List YamlNode := []

def YamlBlock.node (b : YamlBlock) : YamlNode :=
  if b.isArray then .array b.array else .object b.mapping.object

def YamlBlock.asArray (b : YamlBlock) : YamlBlock :=
  if b.isArray then b else { b with isArray := true, array := [] }

/-- The keys seen before stay. -/
def YamlBlock.asObject (b : YamlBlock) : YamlBlock :=
  if b.isArray then
    { b with isArray := false, mapping := { b.mapping with object := [] } }
  else b

def YamlBlock.addItem (b : YamlBlock) (item : YamlNode) : YamlBlock :=
  { b.asArray with array := b.asArray.array ++ [item] }

def YamlBlock.addMember (b : YamlBlock) (key : List Byte) (child : YamlNode) : YamlBlock :=
  { b.asObject with mapping := b.asObject.mapping.add key child }

/-- The text of an item. -/
def dashItem (content : List Byte) : Option (List Byte) :=
  if content.take 2 = [DASH, SP] then some (trimView (content.drop 2)) else none

section Values

variable (block : ℕ → YamlReader → YamlNode × YamlReader)

def parseYamlValue (value : List Byte) (indent lineNo : ℕ) (r : YamlReader) :
    YamlNode × YamlReader :=
  let trimmed := trimView value
  if trimmed.isEmpty then block (indent + 2) r
  else if isFlowMap trimmed || isFlowSequence trimmed then
    let parsed := parseInlineValue lineNo trimmed r.diag
    (parsed.1, { r with diag := parsed.2 })
  else (.scalar trimmed, r)

/-- The members of the block `extra` come behind the first one; an array is dropped. -/
def YamlNode.extraMembers : YamlNode → List (List Byte × YamlNode)
  | .object members => members
  | _ => []

/-- The lines below the first line of an item, which are at their own indentation. -/
def parseExtra (indent : ℕ) (r : YamlReader) : List (List Byte × YamlNode) × YamlReader :=
  match r.lines with
  | [] => ([], r)
  | ln :: _ =>
      if indent < ln.indent then
        let extra := block ln.indent r
        (extra.1.extraMembers, extra.2)
      else ([], r)

def parseItem (item : List Byte) (indent lineNo : ℕ) (r : YamlReader) : YamlNode × YamlReader :=
  if item.isEmpty then block (indent + 2) r
  else
    match keyAndValue item with
    | none => (.scalar item, r)
    | some (key, val) =>
        let first := parseYamlValue block val indent lineNo r
        let extra := parseExtra block indent first.2
        (.object ((key, first.1) :: extra.1), extra.2)

end Values

/-- Every pass takes a line or ends the block. -/
def parseBlockWith : ℕ → YamlBlock → ℕ → YamlReader → YamlNode × YamlReader
  | 0, b, _, r => (b.node, r)
  | passes + 1, b, indent, r =>
      match r.lines with
      | [] => (b.node, r)
      | ln :: _ =>
          if ln.indent < indent then (b.node, r)
          else if indent < ln.indent then parseBlockWith passes b indent r.next
          else
            match dashItem ln.content with
            | some item =>
                let parsed :=
                  parseItem (parseBlockWith passes {}) item indent (r.idx + 1) r.next
                parseBlockWith passes (b.addItem parsed.1) indent parsed.2
            | none =>
                match keyAndValue ln.content with
                | none => parseBlockWith passes b indent r.next
                | some (key, val) =>
                    let child :=
                      parseYamlValue (parseBlockWith passes {}) val indent (r.idx + 1) r.next
                    let diag :=
                      if key ∈ b.mapping.seen then
                        setYamlError child.2.diag (r.idx + 1) (duplicateKey key "")
                      else child.2.diag
                    parseBlockWith passes (b.addMember key child.1) indent
                      { child.2 with diag := diag }

def parseYamlBlock (indent : ℕ) (r : YamlReader) : YamlNode × YamlReader :=
  parseBlockWith r.lines.length {} indent r

/-- The tree of a text and what has been diagnosed. -/
def parseYaml (text : List Byte) : Option (YamlNode × YamlDiagnostic) :=
  match tokenizeYaml text with
  | [] => none
  | first :: rest =>
      let parsed := parseYamlBlock first.indent { lines := first :: rest }
      some (parsed.1, parsed.2.diag)

/-- Where there is no value, what is assigned to `error`, if anything is. -/
def yamlToJson (build : Build) (text : List Byte) : Except (Option (List Byte)) (List Byte) :=
  match parseYaml text with
  | none => .error none
  | some (root, diag) =>
      if !diag.message.isEmpty then
        .error (some (bytesOf "line " ++ toChars 10 (if diag.line = 0 then 1 else diag.line) ++
          bytesOf ": " ++ diag.message))
      else .ok (emitJson build root)

end Serde
end Katana
